import Ptok.Critnib.Concurrent.Get

/-!
# Pointers that critnib_find_le follows

`find_successor` looks for the rightmost child of a node that is not `NULL` and then loads that child's slot a second
time. A remove that clears the slot in between hands it a `NULL`. This is the only way to one.
-/

namespace Ptok.Critnib

open Lib

deriving instance DecidableEq for Loc

/-- Between two consecutive loads of the same child slot nothing stores `NULL` there. -/
def Unclear (s : List (Act Loc Event)) : Prop :=
  ∀ s₁ s₂ a i (log : List Event), s = s₁ ++ .load (.child a i) :: (log.map .store ++ .load (.child a i) :: s₂) →
    .slot (.child (.node a) i) .null ∉ log

theorem Unclear.left {s t : List (Act Loc Event)} (h : Unclear (s ++ t)) : Unclear s := by
  rintro s₁ s₂ a i log rfl
  exact h s₁ (s₂ ++ t) a i log (by simp)

theorem Unclear.right {s t : List (Act Loc Event)} (h : Unclear (s ++ t)) : Unclear t := by
  rintro s₁ s₂ a i log rfl
  exact h (s ++ s₁) s₂ a i log (by simp)

/-- The program follows no `NULL` as long as no slot is cleared between two loads of it. -/
def NoNull {α : Type} (p : R α) : Prop :=
  ∀ m s r, Unclear s → Prog.Exec Mem.load m s p r → r ≠ .error .nullDeref

namespace NoNull

variable {α β : Type}

theorem pure (a : α) : NoNull (Pure.pure a : R α) := by
  intro m s r _ hx
  rw [hx.of_ret.1]
  simp

theorem stuck {e : Stuck} (h : e ≠ .nullDeref) : NoNull (Prog.stuck e : R α) := by
  intro m s r _ hx
  rw [hx.of_ret.1]
  simpa using h

theorem bind {p : R β} {f : β → R α} (hp : NoNull p) (hf : ∀ b, NoNull (f b)) : NoNull (p >>= f) := by
  intro m s r hs hx
  obtain ⟨s₁, s₂, r₁, rfl, h₁, h₂⟩ := hx.bind
  cases r₁ with
  | ok b => exact hf b _ _ _ hs.right h₂
  | error e =>
      have := hp _ _ _ hs.left h₁
      rw [(Prog.Exec.of_ret h₂).1]
      simpa using this

theorem load_bind {l : Loc} {f : l.Val → R α} (hf : ∀ v, NoNull (f v)) : NoNull (Critnib.load l >>= f) := by
  intro m s r hs hx
  obtain ⟨log, s', rfl, h⟩ := hx.of_get_bind
  have hs' : Unclear ((log.map .store ++ [.load l]) ++ s') := by simpa using hs
  exact hf _ _ _ _ hs'.right h

theorem load (l : Loc) : NoNull (Critnib.load l) := load_bind (f := Pure.pure) fun v => pure v

end NoNull

/-! ## find_successor -/

/-- A child slot changes by a store to it. -/
theorem store_child_cases (m : Mem) (e : Event) (a : Addr) (i : Fin 16) :
    ((m.store e).node a).child i = (m.node a).child i ∨ e = .slot (.child (.node a) i) (((m.store e).node a).child i) := by
  have hset : ∀ (n : Ptr) (f : Node → Node), (∀ x, (f x).child = x.child) →
      ((m.setNode n f).node a).child i = (m.node a).child i := by
    intro n f hf
    cases n with
    | null => rfl
    | leaf k => rfl
    | node b =>
        by_cases hab : a = b
        · subst hab
          simp [Mem.setNode, hf]
        · simp [Mem.setNode, Function.update_of_ne hab]
  cases e with
  | slot s p =>
      by_cases hs : ∃ j, s = .child (.node a) j
      · obtain ⟨j, rfl⟩ := hs
        by_cases hij : i = j
        · subst hij
          simp [Mem.store, Mem.setNode]
        · simp [Mem.store, Mem.setNode, Function.update_of_ne hij]
      · rw [slot_node m fun j hj => hs ⟨j, hj⟩]
        exact Or.inl rfl
  | path n w => exact Or.inl (hset n _ fun _ => rfl)
  | shift n sh => exact Or.inl (hset n _ fun _ => rfl)
  | mallocNode ok => cases ok <;> exact Or.inl rfl
  | mallocLeaf ok => cases ok <;> exact Or.inl rfl
  | _ => exact Or.inl rfl

/-- A child that was seen is there until its slot is cleared. -/
theorem child_ne_null {m : Mem} {a : Addr} {i : Fin 16} {log : List Event} (h : (m.node a).child i ≠ .null)
    (hlog : .slot (.child (.node a) i) .null ∉ log) : ((storeAll m log).node a).child i ≠ .null := by
  induction log generalizing m with
  | nil => exact h
  | cons e log ih =>
      refine ih ?_ fun he => hlog (List.mem_cons_of_mem e he)
      rcases store_child_cases m e a i with he | he
      · exact fun hn => h (he.symm.trans hn)
      · intro hn
        change ((m.store e).node a).child i = .null at hn
        rw [hn] at he
        exact hlog (he ▸ List.mem_cons_self)

theorem loadChild_node (a : Addr) (i : Fin 16) : loadChild (.node a) i = load (.child a i) := rfl

/-- The slot that the loop finds was the last one it loaded. -/
theorem firstChild_some {m : Mem} {s : List (Act Loc Event)} {a : Addr} {is : List (Fin 16)} {i : Fin 16}
    (hx : Prog.Exec Mem.load m s (firstChild (.node a) is) (.ok (some i))) :
    ∃ s₁ s₂, ∃ log : List Event, s = s₁ ++ s₂ ∧ s₂ = .load (.child a i) :: log.map .store ∧
      ((storeAll m (stores s₁)).node a).child i ≠ .null := by
  induction is generalizing m s with
  | nil => cases hx.of_ret.1
  | cons j is ih =>
      rw [firstChild, loadChild_node] at hx
      obtain ⟨l, s', rfl, hx₁⟩ := hx.of_get_bind
      by_cases hn : (storeAll m l).load (.child a j) = .null
      · rw [if_pos hn] at hx₁
        obtain ⟨s₁, s₂, log, rfl, hs₂, hne⟩ := ih hx₁
        refine ⟨l.map .store ++ .load (.child a j) :: s₁, s₂, log, by simp, hs₂, ?_⟩
        rwa [stores_append, stores_load, Prog.stores_map_store, storeAll_append]
      · rw [if_neg hn] at hx₁
        obtain ⟨he, hs⟩ := hx₁.of_ret
        cases he
        refine ⟨l.map .store, .load (.child a i) :: s', stores s', rfl, ?_, ?_⟩
        · exact congrArg _ (Prog.eq_map_store hs)
        · rwa [Prog.stores_map_store]

theorem firstChild_noNull (a : Addr) (is : List (Fin 16)) : NoNull (firstChild (.node a) is) := by
  induction is with
  | nil => exact .pure none
  | cons j is ih =>
      rw [firstChild, loadChild_node]
      refine .load_bind fun p => ?_
      split
      · exact ih
      · exact .pure _

theorem findSuccessor_noNull (fuel : ℕ) (a : Addr) : NoNull (findSuccessor fuel (.node a)) := by
  induction fuel generalizing a with
  | zero => exact .stuck (by simp)
  | succ fuel ih =>
      intro m s r hs hx
      rw [findSuccessor] at hx
      obtain ⟨s₁, s₂, r₁, rfl, h₁, h₂⟩ := hx.bind
      rcases r₁ with e | _ | i
      · rw [(Prog.Exec.of_ret h₂).1]
        have := firstChild_noNull a nibsDown _ _ _ hs.left h₁
        simpa using this
      · rw [(Prog.Exec.of_ret h₂).1]
        simp
      · obtain ⟨s₃, s₄, log, rfl, rfl, hne⟩ := firstChild_some h₁
        simp only [loadChild_node] at h₂
        obtain ⟨log', s₅, rfl, h₃⟩ := h₂.of_get_bind
        -- between the test and the second load the slot is not cleared
        have hclear := hs s₃ s₅ a i (log ++ log') (by simp)
        have hchild : (storeAll (storeAll m (stores (s₃ ++ .load (.child a i) :: log.map .store))) log').load
            (.child a i) ≠ .null := by
          have h := child_ne_null hne hclear
          simpa [storeAll_append, Mem.load] using h
        generalize (storeAll (storeAll m (stores (s₃ ++ .load (.child a i) :: log.map .store))) log').load
          (.child a i) = n at h₃ hchild
        have hs₅ : Unclear s₅ := by
          have h := hs
          rw [show s₃ ++ .load (.child a i) :: log.map .store ++ (log'.map .store ++ .load (.child a i) :: s₅) =
            (s₃ ++ .load (.child a i) :: log.map .store ++ (log'.map .store ++ [.load (.child a i)])) ++ s₅ by simp] at h
          exact h.right
        cases n with
        | null => exact absurd rfl hchild
        | leaf k => exact NoNull.load (.value k) _ _ _ hs₅ h₃
        | node b => exact ih b _ _ _ hs₅ h₃

/-! ## find_le -/

theorem findLeft_noNull (fuel : ℕ) (a : Addr) (is : List (Fin 16)) : NoNull (findLeft fuel (.node a) is) := by
  induction is with
  | nil => exact .pure _
  | cons i is ih =>
      rw [findLeft, loadChild_node]
      refine .load_bind fun p => ?_
      cases p with
      | null => exact ih
      | leaf k => exact .load _
      | node b => exact findSuccessor_noNull fuel b

theorem findLe_noNull (key : Word) (fuel : ℕ) (n : Ptr) : NoNull (findLe key fuel n) := by
  induction fuel generalizing n with
  | zero => exact .stuck (by simp)
  | succ fuel ih =>
      cases n with
      | null => exact .pure _
      | leaf k =>
          refine .load_bind fun k_ => ?_
          split
          · exact .load _
          · exact .pure _
      | node a =>
          refine .load_bind fun path => .load_bind fun shift => ?_
          split
          · refine .load_bind fun path => ?_
            split
            · exact findSuccessor_noNull fuel a
            · exact .pure _
          · refine .load_bind fun shift => .load_bind fun p => .bind (ih p) fun value => ?_
            split
            · exact .pure _
            · exact findLeft_noNull fuel a _

end Ptok.Critnib
