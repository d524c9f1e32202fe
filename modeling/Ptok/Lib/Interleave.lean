import Ptok.Lib.Atomic

/-!
# Readers among the stores of a writer

Readers load while somebody stores. `Prog.Exec` is the run of one reader: its loads and the stores that fall
between them, in one order. `Sys.Exec` is a system of any number of readers; what one of them sees is a run of its
own, since the others store nothing.
-/

namespace Ptok.Lib

variable {M E Loc : Type} {Val : Loc → Type} {α β : Type} [Storable M E]

/-- One step while a reader is at work. -/
inductive Act (Loc E : Type)
  | load (l : Loc)
  | store (e : E)

/-- The stores of a schedule. -/
def stores : List (Act Loc E) → List E
  | [] => []
  | .load _ :: s => stores s
  | .store e :: s => e :: stores s

@[simp] theorem stores_nil : stores ([] : List (Act Loc E)) = [] := rfl

@[simp] theorem stores_load (l : Loc) (s : List (Act Loc E)) : stores (.load l :: s) = stores s := rfl

@[simp] theorem stores_store (e : E) (s : List (Act Loc E)) : stores (.store e :: s) = e :: stores s := rfl

@[simp] theorem stores_append (s t : List (Act Loc E)) : stores (s ++ t) = stores s ++ stores t := by
  induction s with
  | nil => rfl
  | cons x s ih => cases x <;> simp [ih]

namespace Prog

/-- A program ends with a result after the steps of a schedule. -/
inductive Exec (rd : M → (l : Loc) → Val l) : M → List (Act Loc E) → Prog Loc Val α → Except Stuck α → Prop
  | ret (m : M) (r : Except Stuck α) : Exec rd m [] (.ret r) r
  | load {m : M} {s : List (Act Loc E)} {l : Loc} {k : Val l → Prog Loc Val α} {r : Except Stuck α}
      (h : Exec rd m s (k (rd m l)) r) : Exec rd m (.load l :: s) (.load l k) r
  | store {m : M} {s : List (Act Loc E)} {e : E} {p : Prog Loc Val α} {r : Except Stuck α}
      (h : Exec rd (Storable.store m e) s p r) : Exec rd m (.store e :: s) p r

variable {rd : M → (l : Loc) → Val l} {m : M} {s : List (Act Loc E)} {r : Except Stuck α}

/-- The parts of a run: what `p` does comes first, and the rest starts in the memory it leaves. -/
theorem Exec.bind {p : Prog Loc Val β} {f : β → Prog Loc Val α} (h : Exec rd m s (p >>= f) r) :
    ∃ s₁ s₂ r₁, s = s₁ ++ s₂ ∧ Exec rd m s₁ p r₁ ∧
      match r₁ with
      | .ok b => Exec rd (storeAll m (stores s₁)) s₂ (f b) r
      | .error e => Exec rd (storeAll m (stores s₁)) s₂ (.ret (.error e)) r := by
  change Exec rd m s (p.bind f) r at h
  generalize hq : p.bind f = q at h
  induction h generalizing p with
  | ret m r =>
      cases p with
      | load l k => cases hq
      | ret r₁ =>
          refine ⟨[], [], r₁, rfl, .ret m r₁, ?_⟩
          cases r₁ with
          | ok b =>
              change f b = _ at hq
              change Exec rd m [] (f b) r
              rw [hq]
              exact .ret m r
          | error e =>
              change Prog.ret (.error e) = _ at hq
              change Exec rd m [] (.ret (.error e)) r
              rw [hq]
              exact .ret m r
  | @load m s l k r h ih =>
      cases p with
      | ret r₁ =>
          refine ⟨[], .load l :: s, r₁, rfl, .ret m r₁, ?_⟩
          cases r₁ with
          | ok b =>
              change f b = _ at hq
              change Exec rd m _ (f b) r
              rw [hq]
              exact .load h
          | error e => cases hq
      | load l' k' =>
          cases hq
          obtain ⟨s₁, s₂, r₁, rfl, h₁, h₂⟩ := ih rfl
          exact ⟨.load l :: s₁, s₂, r₁, rfl, .load h₁, h₂⟩
  | @store m s e q r h ih =>
      obtain ⟨s₁, s₂, r₁, rfl, h₁, h₂⟩ := ih hq
      exact ⟨.store e :: s₁, s₂, r₁, rfl, .store h₁, h₂⟩

/-- After its end a program does nothing. -/
theorem Exec.of_ret {r₀ : Except Stuck α} (h : Exec rd m s (.ret r₀) r) : r = r₀ ∧ ∀ x ∈ s, ∃ e, x = .store e := by
  generalize hp : Prog.ret r₀ = p at h
  induction h with
  | ret m r => cases hp; exact ⟨rfl, by simp⟩
  | load => cases hp
  | @store m s e p r h ih =>
      obtain ⟨rfl, hs⟩ := ih hp
      refine ⟨rfl, ?_⟩
      simpa using hs

theorem Exec.bind_ok {p : Prog Loc Val β} {f : β → Prog Loc Val α} {a : α} (h : Exec rd m s (p >>= f) (.ok a)) :
    ∃ s₁ s₂ b, s = s₁ ++ s₂ ∧ Exec rd m s₁ p (.ok b) ∧ Exec rd (storeAll m (stores s₁)) s₂ (f b) (.ok a) := by
  obtain ⟨s₁, s₂, r₁, rfl, h₁, h₂⟩ := h.bind
  cases r₁ with
  | ok b => exact ⟨s₁, s₂, b, rfl, h₁, h₂⟩
  | error e => cases (Exec.of_ret h₂).1

/-- Some stores come before a load. -/
theorem Exec.of_load {l : Loc} {k : Val l → Prog Loc Val α} (h : Exec rd m s (.load l k) r) :
    ∃ es s', s = es.map .store ++ .load l :: s' ∧
      Exec rd (storeAll m es) s' (k (rd (storeAll m es) l)) r := by
  generalize hp : Prog.load l k = p at h
  induction h with
  | ret => cases hp
  | @load m s l k r h ih =>
      cases hp
      exact ⟨[], s, rfl, h⟩
  | @store m s e p r h ih =>
      obtain ⟨es, s', rfl, h'⟩ := ih hp
      exact ⟨e :: es, s', rfl, h'⟩

@[simp] theorem stores_map_store (es : List E) : stores (es.map (Act.store : E → Act Loc E)) = es := by
  induction es with
  | nil => rfl
  | cons e es ih => simp [ih]

omit [Storable M E] in
theorem eq_map_store {s : List (Act Loc E)} (h : ∀ x ∈ s, ∃ e, x = .store e) : s = (stores s).map .store := by
  induction s with
  | nil => rfl
  | cons x s ih =>
      obtain ⟨e, rfl⟩ := h x (by simp)
      rw [stores_store, List.map_cons, ← ih fun x hx => h x (by simp [hx])]

theorem Exec.of_get_bind {l : Loc} {f : Val l → Prog Loc Val α} (h : Exec rd m s (get l >>= f) r) :
    ∃ es s', s = es.map .store ++ .load l :: s' ∧
      Exec rd (storeAll m es) s' (f (rd (storeAll m es) l)) r :=
  Exec.of_load h

/-- As long as nobody stores anything, a program runs alone. -/
theorem Exec.eval_eq {p : Prog Loc Val α} (h : Exec rd m s p r) (hs : stores s = []) : r = p.eval (rd m) := by
  induction h with
  | ret m r => rfl
  | load _ ih => exact ih hs
  | store _ _ => cases hs

/-- It loads nothing else than this. -/
def Loads (P : Loc → Prop) : Prog Loc Val α → Prop
  | .ret _ => True
  | .load l k => P l ∧ ∀ v, (k v).Loads P

theorem Loads.bind {P : Loc → Prop} {p : Prog Loc Val β} {f : β → Prog Loc Val α} (h : p.Loads P)
    (hf : ∀ b, (f b).Loads P) : (p >>= f).Loads P := by
  show (p.bind f).Loads P
  induction p with
  | ret r =>
      cases r with
      | ok b => exact hf b
      | error e => trivial
  | load l k ih => exact ⟨h.1, fun v => ih v (h.2 v)⟩

theorem Loads.get_bind {P : Loc → Prop} {l : Loc} {f : Val l → Prog Loc Val α} (h : P l) (hf : ∀ v, (f v).Loads P) :
    (get l >>= f).Loads P := ⟨h, hf⟩

theorem Exec.loads {P : Loc → Prop} {p : Prog Loc Val α} (h : Exec rd m s p r) (hp : p.Loads P) {l : Loc}
    (hl : .load l ∈ s) : P l := by
  induction h with
  | ret m r => cases hl
  | load _ ih =>
      rcases List.mem_cons.mp hl with he | hl
      · cases he
        exact hp.1
      · exact ih (hp.2 _) hl
  | store _ ih => exact ih hp (by simpa using hl)

/-- The result after the steps of a schedule, if the program has ended by then and the schedule fits. -/
def run [DecidableEq Loc] (rd : M → (l : Loc) → Val l) : M → List (Act Loc E) → Prog Loc Val α → Option (Except Stuck α)
  | _, [], .ret r => some r
  | m, .load l' :: s, .load l k => if l' = l then run rd m s (k (rd m l)) else none
  | m, .store e :: s, p => run rd (Storable.store m e) s p
  | _, _, _ => none

theorem exec_of_run [DecidableEq Loc] {p : Prog Loc Val α} (h : run rd m s p = some r) : Exec rd m s p r := by
  induction s generalizing m p with
  | nil =>
      cases p with
      | ret r₀ =>
          cases h
          exact .ret m _
      | load l k => cases h
  | cons x s ih =>
      cases x with
      | store e => exact .store (ih (by cases p <;> exact h))
      | load l' =>
          cases p with
          | ret r₀ => cases h
          | load l k =>
              rw [run] at h
              split at h
              · subst ‹l' = l›
                exact .load (ih h)
              · cases h

end Prog

/-! ## Many readers -/

namespace Sys

/-- One step of a system: a store of the writer, a reader `i` begins a program, or it does its next load. -/
inductive Act (ι E Loc : Type) (Val : Loc → Type) (α : Type)
  | store (e : E)
  | call (i : ι) (p : Prog Loc Val α)
  | load (i : ι)

variable {ι : Type}

/-- The stores of a schedule. -/
def stores : List (Act ι E Loc Val α) → List E
  | [] => []
  | .store e :: s => e :: stores s
  | .call _ _ :: s => stores s
  | .load _ :: s => stores s

theorem stores_append (s t : List (Act ι E Loc Val α)) : stores (s ++ t) = stores s ++ stores t := by
  induction s with
  | nil => rfl
  | cons x s ih => cases x <;> simp [stores, ih]

theorem stores_split {s : List (Act ι E Loc Val α)} {l l' : List E} (h : stores s = l ++ l') :
    ∃ s₁ s₂, s = s₁ ++ s₂ ∧ stores s₁ = l := by
  induction s generalizing l with
  | nil =>
      obtain ⟨rfl, -⟩ := List.append_eq_nil_iff.mp h.symm
      exact ⟨[], [], rfl, rfl⟩
  | cons x s ih =>
      cases x with
      | store e =>
          cases l with
          | nil => exact ⟨[], .store e :: s, rfl, rfl⟩
          | cons e' l =>
              simp only [stores, List.cons_append, List.cons.injEq] at h
              obtain ⟨rfl, h⟩ := h
              obtain ⟨s₁, s₂, rfl, h₁⟩ := ih h
              exact ⟨.store e :: s₁, s₂, rfl, by rw [stores, h₁]⟩
      | call i p =>
          obtain ⟨s₁, s₂, rfl, h₁⟩ := ih h
          exact ⟨.call i p :: s₁, s₂, rfl, h₁⟩
      | load i =>
          obtain ⟨s₁, s₂, rfl, h₁⟩ := ih h
          exact ⟨.load i :: s₁, s₂, rfl, h₁⟩

variable [DecidableEq ι]

/-- The steps of a schedule lead from a memory and what the readers have still to do to another. -/
inductive Exec (rd : M → (l : Loc) → Val l) : M → (ι → Prog Loc Val α) → List (Act ι E Loc Val α) →
    (ι → Prog Loc Val α) → Prop
  | nil (m : M) (ps : ι → Prog Loc Val α) : Exec rd m ps [] ps
  | store {m : M} {ps ps' : ι → Prog Loc Val α} {e : E} {s : List (Act ι E Loc Val α)}
      (h : Exec rd (Storable.store m e) ps s ps') : Exec rd m ps (.store e :: s) ps'
  | call {m : M} {ps ps' : ι → Prog Loc Val α} {i : ι} {r : Except Stuck α} {p : Prog Loc Val α}
      {s : List (Act ι E Loc Val α)} (hi : ps i = .ret r) (h : Exec rd m (Function.update ps i p) s ps') :
      Exec rd m ps (.call i p :: s) ps'
  | load {m : M} {ps ps' : ι → Prog Loc Val α} {i : ι} {l : Loc} {k : Val l → Prog Loc Val α}
      {s : List (Act ι E Loc Val α)} (hi : ps i = .load l k)
      (h : Exec rd m (Function.update ps i (k (rd m l))) s ps') : Exec rd m ps (.load i :: s) ps'

variable {rd : M → (l : Loc) → Val l} {m : M} {ps ps' : ι → Prog Loc Val α} {s t : List (Act ι E Loc Val α)}

theorem Exec.append (h : Exec rd m ps (s ++ t) ps') :
    ∃ ps₁, Exec rd m ps s ps₁ ∧ Exec rd (storeAll m (stores s)) ps₁ t ps' := by
  induction s generalizing m ps with
  | nil => exact ⟨ps, .nil m ps, h⟩
  | cons x s ih =>
      cases h with
      | store h =>
          obtain ⟨ps₁, h₁, h₂⟩ := ih h
          exact ⟨ps₁, .store h₁, h₂⟩
      | call hi h =>
          obtain ⟨ps₁, h₁, h₂⟩ := ih h
          exact ⟨ps₁, .call hi h₁, h₂⟩
      | load hi h =>
          obtain ⟨ps₁, h₁, h₂⟩ := ih h
          exact ⟨ps₁, .load hi h₁, h₂⟩

/-- What one reader does until its program ends is a run of its own. -/
theorem Exec.reader {i : ι} {r : Except Stuck α} (h : Exec rd m ps s ps') (hcall : ∀ p, .call i p ∉ s)
    (hr : ps' i = .ret r) :
    ∃ s₁ s₂ tr, s = s₁ ++ s₂ ∧ Prog.Exec rd m tr (ps i) r ∧ Lib.stores tr = stores s₁ := by
  induction h with
  | nil m ps =>
      rw [hr]
      exact ⟨[], [], [], rfl, .ret m r, rfl⟩
  | @store m ps ps' e s _ ih =>
      obtain ⟨s₁, s₂, tr, rfl, h₁, htr⟩ := ih (fun p hp => hcall p (by simp [hp])) hr
      exact ⟨.store e :: s₁, s₂, .store e :: tr, rfl, .store h₁, by simp [stores, htr]⟩
  | @call m ps ps' j r' p s _ _ ih =>
      have hij : i ≠ j := by
        rintro rfl
        exact hcall p (by simp)
      obtain ⟨s₁, s₂, tr, rfl, h₁, htr⟩ := ih (fun p hp => hcall p (by simp [hp])) hr
      rw [Function.update_of_ne hij] at h₁
      exact ⟨.call j p :: s₁, s₂, tr, rfl, h₁, htr⟩
  | @load m ps ps' j l k s hj _ ih =>
      obtain ⟨s₁, s₂, tr, rfl, h₁, htr⟩ := ih (fun p hp => hcall p (by simp [hp])) hr
      by_cases hij : i = j
      · subst hij
        rw [Function.update_self] at h₁
        rw [hj]
        exact ⟨.load i :: s₁, s₂, .load l :: tr, rfl, .load h₁, htr⟩
      · rw [Function.update_of_ne hij] at h₁
        exact ⟨.load j :: s₁, s₂, tr, rfl, h₁, htr⟩

/-- The run of a reader from its call to the end. -/
theorem Exec.lookup {i : ι} {p : Prog Loc Val α} {r : Except Stuck α} (h : Exec rd m ps (s ++ .call i p :: t) ps')
    (hcall : ∀ p, .call i p ∉ t) (hr : ps' i = .ret r) :
    ∃ s₁ s₂ tr, t = s₁ ++ s₂ ∧ Prog.Exec rd (storeAll m (stores s)) tr p r ∧ Lib.stores tr = stores s₁ := by
  obtain ⟨ps₁, -, h⟩ := h.append
  cases h with
  | call hi h =>
      have := h.reader hcall hr
      rwa [Function.update_self] at this

end Sys

end Ptok.Lib
