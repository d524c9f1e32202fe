import Ptok.Lib.Interleave

/-!
# How many loads a reader makes

A program has a bound on its loads whatever they give. A reader of a system that has not ended yet can be run to its
end alone, so what is known of whole runs bounds its loads so far.
-/

namespace Ptok.Lib

variable {M E Loc : Type} {Val : Loc → Type} {α β : Type} [Storable M E] {rd : M → (l : Loc) → Val l} {m : M} {a b n : ℕ}

namespace Prog

/-- It ends after so many loads at most. -/
def AtMost : ℕ → Prog Loc Val α → Prop
  | _, .ret _ => True
  | 0, .load _ _ => False
  | n + 1, .load _ k => ∀ v, (k v).AtMost n

@[simp] theorem AtMost.ret (r : Except Stuck α) : (Prog.ret r : Prog Loc Val α).AtMost n := by
  cases n <;> exact trivial

theorem AtMost.mono {p : Prog Loc Val α} (h : p.AtMost a) (hab : a ≤ b) : p.AtMost b := by
  induction p generalizing a b with
  | ret r => exact .ret r
  | load l k ih =>
      cases a with
      | zero => exact h.elim
      | succ a =>
          cases b with
          | zero => omega
          | succ b => exact fun v => ih v (h v) (by omega)

theorem AtMost.bind {p : Prog Loc Val β} {f : β → Prog Loc Val α} (h : p.AtMost a) (hf : ∀ x, (f x).AtMost b) :
    (p >>= f).AtMost (a + b) := by
  change (p.bind f).AtMost (a + b)
  induction p generalizing a with
  | ret r =>
      cases r with
      | ok x => exact (hf x).mono (Nat.le_add_left b a)
      | error e => exact .ret _
  | load l k ih =>
      cases a with
      | zero => exact h.elim
      | succ a =>
          rw [Nat.succ_add]
          exact fun v => ih v (h v)

theorem AtMost.get_bind {l : Loc} {f : Val l → Prog Loc Val α} (hf : ∀ v, (f v).AtMost b) : (get l >>= f).AtMost (b + 1) :=
  hf

theorem AtMost.get (l : Loc) : (get l : Prog Loc Val (Val l)).AtMost 1 := fun _ => .ret _

/-- Besides its stores a run has at most that many steps. -/
theorem Exec.length_le {s : List (Act Loc E)} {p : Prog Loc Val α} {r : Except Stuck α} (h : Exec rd m s p r)
    (hp : p.AtMost n) : s.length ≤ (stores s).length + n := by
  induction h generalizing n with
  | ret m r => exact Nat.zero_le _
  | @load m s l k r _ ih =>
      cases n with
      | zero => exact hp.elim
      | succ n =>
          have := ih (hp _)
          simp only [List.length_cons, stores_load]
          omega
  | @store m s e p r _ ih =>
      have := ih hp
      simp only [List.length_cons, stores_store]
      omega

variable (rd) in
/-- A program can run to its end while nothing is stored. -/
theorem exists_exec (m : M) (p : Prog Loc Val α) :
    ∃ s : List (Act Loc E), ∃ r, Exec rd m s p r ∧ stores s = [] ∧ (s = [] → p = .ret r) := by
  induction p with
  | ret r => exact ⟨[], r, .ret m r, rfl, fun _ => rfl⟩
  | load l k ih =>
      obtain ⟨s, r, h, hs, -⟩ := ih (rd m l)
      exact ⟨.load l :: s, r, .load h, hs, by simp⟩

end Prog

namespace Sys

variable {ι : Type} [DecidableEq ι]

/-- How many loads of one reader are in a schedule. -/
def loads (i : ι) : List (Act ι E Loc Val α) → ℕ
  | [] => 0
  | .load j :: s => if i = j then loads i s + 1 else loads i s
  | .store _ :: s => loads i s
  | .call _ _ :: s => loads i s

variable {ps ps' : ι → Prog Loc Val α} {s t : List (Act ι E Loc Val α)}

/-- What a reader has done so far, and how it goes on, is a run of its own. -/
theorem Exec.extend {i : ι} {r : Except Stuck α} {tr' : List (Lib.Act Loc E)} (h : Exec rd m ps s ps')
    (hcall : ∀ p, .call i p ∉ s) (hx : Prog.Exec rd (storeAll m (stores s)) tr' (ps' i) r) :
    ∃ tr, Prog.Exec rd m tr (ps i) r ∧ Lib.stores tr = stores s ++ Lib.stores tr' ∧
      tr.length = (stores s).length + loads i s + tr'.length := by
  induction h with
  | nil m ps => exact ⟨tr', hx, rfl, by simp [stores, loads]⟩
  | @store m ps ps' e s _ ih =>
      obtain ⟨tr, h, htr, hlen⟩ := ih (fun p hp => hcall p (by simp [hp])) hx
      refine ⟨.store e :: tr, .store h, by simp [stores, htr], ?_⟩
      simp only [List.length_cons, stores, loads, hlen]
      omega
  | @call m ps ps' j r' p s _ _ ih =>
      have hij : i ≠ j := by
        rintro rfl
        exact hcall p (by simp)
      obtain ⟨tr, h, htr, hlen⟩ := ih (fun p hp => hcall p (by simp [hp])) hx
      rw [Function.update_of_ne hij] at h
      exact ⟨tr, h, htr, hlen⟩
  | @load m ps ps' j l k s hj _ ih =>
      obtain ⟨tr, h, htr, hlen⟩ := ih (fun p hp => hcall p (by simp [hp])) hx
      by_cases hij : i = j
      · subst hij
        rw [Function.update_self] at h
        refine ⟨.load l :: tr, by rw [hj]; exact .load h, htr, ?_⟩
        simp only [List.length_cons, stores, loads, if_true, hlen]
        omega
      · rw [Function.update_of_ne hij] at h
        refine ⟨tr, h, htr, ?_⟩
        simp only [stores, loads, if_neg hij, hlen]

/-- If every run of a program among these stores has at most `n` loads and a good end, then a reader that began it has
made at most `n` loads, and has come to a good end if it made `n`. -/
theorem Exec.bounded {i : ι} {p : Prog Loc Val α} {good : Except Stuck α → Prop}
    (h : Exec rd m ps (s ++ .call i p :: t) ps') (hcall : ∀ p, .call i p ∉ t)
    (hall : ∀ (tr : List (Lib.Act Loc E)) r, Prog.Exec rd (storeAll m (stores s)) tr p r → Lib.stores tr = stores t →
      good r ∧ tr.length ≤ (stores t).length + n) :
    loads i t ≤ n ∧ (loads i t = n → ∃ r, ps' i = .ret r) ∧ ∀ r, ps' i = .ret r → good r := by
  obtain ⟨ps₁, -, h⟩ := h.append
  cases h with
  | call hi h =>
      obtain ⟨tr', r, hx, hnone, hend⟩ :=
        Prog.exists_exec (E := E) rd (storeAll (storeAll m (stores s)) (stores t)) (ps' i)
      obtain ⟨tr, htr, hstores, hlen⟩ := h.extend hcall hx
      rw [Function.update_self] at htr
      rw [hnone, List.append_nil] at hstores
      obtain ⟨hgood, hle⟩ := hall tr r htr hstores
      rw [hlen] at hle
      refine ⟨by omega, fun hn => ⟨r, hend ?_⟩, fun r' hr => ?_⟩
      · exact List.eq_nil_of_length_eq_zero (by omega)
      · rw [hr] at hx
        rwa [← hx.of_ret.1]

end Sys

end Ptok.Lib
