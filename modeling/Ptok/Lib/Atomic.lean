import Mathlib

/-!
# Code over a shared memory

A reader is a program of atomic loads (`Prog`). It can be run in one memory that nobody changes
(`Prog.eval`), or one load at a time while somebody else stores. Code that holds the write lock is the only
one to store (`Wr`): what it reads is what it and its predecessors wrote, so it is a function of the memory it
starts in, and the stores it makes are logged in order for those who watch them one by one.
-/

namespace Ptok.Lib

/-- Why code has no result: a loop needs more rounds than it was given, `NULL` or something that is no
pointer to a node was followed, or an assertion failed. -/
inductive Stuck
  | fuel
  | nullDeref
  | wildDeref
  | assertion
  deriving DecidableEq, Repr

/-- A computation with loops returns `a`: it does so for every sufficient number of rounds. -/
def Returns {α : Type} (run : ℕ → Except Stuck α) (a : α) : Prop :=
  ∃ N, ∀ fuel, N ≤ fuel → run fuel = .ok a

/-- It never returns: every number of rounds is used up, however great. -/
def Diverges {α : Type} (run : ℕ → Except Stuck α) : Prop := ∃ N, ∀ fuel, N ≤ fuel → run fuel = .error .fuel

theorem Returns.unique {α : Type} {run : ℕ → Except Stuck α} {a b : α} (ha : Returns run a)
    (hb : Returns run b) : a = b := by
  obtain ⟨N, ha⟩ := ha
  obtain ⟨M, hb⟩ := hb
  have h := (ha (max N M) (Nat.le_max_left N M)).symm.trans (hb (max N M) (Nat.le_max_right N M))
  exact Except.ok.inj h

theorem Diverges.not_returns {α : Type} {run : ℕ → Except Stuck α} (h : Diverges run) (a : α) :
    ¬ Returns run a := by
  rintro ⟨N, hN⟩
  obtain ⟨M, hM⟩ := h
  cases (hM (max N M) (Nat.le_max_right N M)).symm.trans (hN (max N M) (Nat.le_max_left N M))

theorem Returns.map {α β : Type} {run : ℕ → Except Stuck α} {a : α} (h : Returns run a) (f : α → β) :
    Returns (fun fuel => (run fuel).map f) (f a) := by
  obtain ⟨N, hN⟩ := h
  exact ⟨N, fun fuel hf => by simp only [hN fuel hf, Except.map]⟩

theorem Diverges.map {α β : Type} {run : ℕ → Except Stuck α} (h : Diverges run) (f : α → β) :
    Diverges fun fuel => (run fuel).map f := by
  obtain ⟨N, hN⟩ := h
  exact ⟨N, fun fuel hf => by simp only [hN fuel hf, Except.map]⟩

/-- A result of the mapped computation is the image of one of the computation. -/
theorem Returns.of_map {α β : Type} {run : ℕ → Except Stuck α} {f : α → β} {b : β}
    (h : Returns (fun fuel => (run fuel).map f) b) : ∃ fuel a, run fuel = .ok a ∧ f a = b := by
  obtain ⟨N, hN⟩ := h
  have h := hN N le_rfl
  cases he : run N with
  | error e => simp [he, Except.map] at h
  | ok a => exact ⟨N, a, he, by simpa [he, Except.map] using h⟩

/-! ## Programs of loads -/

/-- A program that loads shared words one after another and ends with a result. -/
inductive Prog (Loc : Type) (Val : Loc → Type) (α : Type)
  | ret (r : Except Stuck α)
  | load (l : Loc) (k : Val l → Prog Loc Val α)

namespace Prog

variable {Loc : Type} {Val : Loc → Type} {α β : Type}

def bind : Prog Loc Val α → (α → Prog Loc Val β) → Prog Loc Val β
  | .ret (.ok a), f => f a
  | .ret (.error e), _ => .ret (.error e)
  | .load l k, f => .load l fun v => (k v).bind f

instance : Monad (Prog Loc Val) where
  pure a := .ret (.ok a)
  bind := bind

/-- One load. -/
def get (l : Loc) : Prog Loc Val (Val l) := .load l fun v => .ret (.ok v)

def stuck (e : Stuck) : Prog Loc Val α := .ret (.error e)

/-- The result of a program that runs alone: all its loads read the same memory. -/
def eval (rd : (l : Loc) → Val l) : Prog Loc Val α → Except Stuck α
  | .ret r => r
  | .load l k => (k (rd l)).eval rd

@[simp] theorem eval_pure (rd : (l : Loc) → Val l) (a : α) :
    (pure a : Prog Loc Val α).eval rd = .ok a := rfl

@[simp] theorem eval_get (rd : (l : Loc) → Val l) (l : Loc) : (get l).eval rd = .ok (rd l) := rfl

@[simp] theorem eval_stuck (rd : (l : Loc) → Val l) (e : Stuck) :
    (stuck e : Prog Loc Val α).eval rd = .error e := rfl

theorem eval_bind (rd : (l : Loc) → Val l) (p : Prog Loc Val α) (f : α → Prog Loc Val β) :
    (p >>= f).eval rd = p.eval rd >>= fun a => (f a).eval rd := by
  show (p.bind f).eval rd = _
  induction p with
  | ret r => cases r <;> rfl
  | load l k ih => exact ih (rd l)

@[simp] theorem eval_get_bind (rd : (l : Loc) → Val l) (l : Loc) (f : Val l → Prog Loc Val β) :
    (get l >>= f).eval rd = (f (rd l)).eval rd := rfl

@[simp] theorem eval_pure_bind (rd : (l : Loc) → Val l) (a : α) (f : α → Prog Loc Val β) :
    ((pure a : Prog Loc Val α) >>= f).eval rd = (f a).eval rd := rfl

/-- A part whose result is known. -/
theorem eval_bind_ok {rd : (l : Loc) → Val l} {p : Prog Loc Val α} {a : α} (h : p.eval rd = .ok a)
    (f : α → Prog Loc Val β) : (p >>= f).eval rd = (f a).eval rd := by
  rw [eval_bind, h]
  rfl

end Prog

/-! ## Code under the write lock -/

/-- A memory `M` that stores of the kinds `E` change. -/
class Storable (M : Type) (E : outParam Type) where
  /-- the memory after one store -/
  store : M → E → M

/-- The memory after some stores, the first one first. -/
def storeAll {M E : Type} [Storable M E] (m : M) (log : List E) : M := log.foldl Storable.store m

section

variable {M E : Type} [Storable M E]

@[simp] theorem storeAll_nil (m : M) : storeAll m [] = m := rfl

@[simp] theorem storeAll_cons (m : M) (e : E) (log : List E) :
    storeAll m (e :: log) = storeAll (Storable.store m e) log := rfl

@[simp] theorem storeAll_append (m : M) (log log' : List E) :
    storeAll m (log ++ log') = storeAll (storeAll m log) log' := List.foldl_append

end

/-- Code that holds the write lock: its result and the log of its stores. -/
def Wr (M E α : Type) : Type := M → Except Stuck (α × List E)

namespace Wr

variable {M E α β : Type}

section

variable [Storable M E]

def bind (x : Wr M E α) (f : α → Wr M E β) : Wr M E β := fun m =>
  match x m with
  | .error e => .error e
  | .ok (a, log) =>
    match f a (storeAll m log) with
    | .error e => .error e
    | .ok (b, log') => .ok (b, log ++ log')

instance : Monad (Wr M E) where
  pure a := fun _ => .ok (a, [])
  bind := bind

end

/-- Read something from the memory. -/
def read (f : M → α) : Wr M E α := fun m => .ok (f m, [])

/-- A computation over the memory that stores nothing and may get stuck. -/
def query (f : M → Except Stuck α) : Wr M E α := fun m => (f m).map fun a => (a, [])

/-- One store. -/
def emit (e : E) : Wr M E Unit := fun _ => .ok ((), [e])

def stuck (e : Stuck) : Wr M E α := fun _ => .error e

@[simp] theorem read_apply (f : M → α) (m : M) : (read f : Wr M E α) m = .ok (f m, []) := rfl

@[simp] theorem query_apply (f : M → Except Stuck α) (m : M) :
    (query f : Wr M E α) m = (f m).map fun a => (a, []) := rfl

@[simp] theorem emit_apply (e : E) (m : M) : (emit e : Wr M E Unit) m = .ok ((), [e]) := rfl

theorem query_ok {f : M → Except Stuck α} {m : M} {a : α} {log : List E} :
    (query f : Wr M E α) m = .ok (a, log) ↔ f m = .ok a ∧ log = [] := by
  rw [query_apply]
  rcases f m with e | b
  · simp [Except.map]
  · simp [Except.map, eq_comm]

variable [Storable M E]

/-- The result and the memory left behind. -/
def exec (x : Wr M E α) (m : M) : Except Stuck (α × M) := (x m).map fun r => (r.1, storeAll m r.2)

@[simp] theorem pure_apply (a : α) (m : M) : (pure a : Wr M E α) m = .ok (a, []) := rfl

/-- Code after code: the second part starts in the memory the first one leaves. -/
@[simp] theorem bind_apply (x : Wr M E α) (f : α → Wr M E β) (m : M) :
    (x >>= f) m = (x m).bind fun r => (f r.1 (storeAll m r.2)).map fun r' => (r'.1, r.2 ++ r'.2) := by
  show x.bind f m = _
  unfold bind
  rcases x m with e | ⟨a, log⟩
  · rfl
  · show (match f a (storeAll m log) with | .error e => _ | .ok (b, log') => _) =
      Except.map _ (f a (storeAll m log))
    rcases f a (storeAll m log) with e | ⟨b, log'⟩ <;> rfl

/-- The parts of a run. -/
theorem bind_ok {x : Wr M E α} {f : α → Wr M E β} {m : M} {b : β} {log : List E} :
    (x >>= f) m = .ok (b, log) ↔
      ∃ a l l', x m = .ok (a, l) ∧ f a (storeAll m l) = .ok (b, l') ∧ log = l ++ l' := by
  rw [bind_apply]
  constructor
  · intro h
    rcases hx : x m with e | ⟨a, l⟩
    · rw [hx] at h
      cases h
    · rw [hx] at h
      rcases hf : f a (storeAll m l) with e | ⟨b', l'⟩
      · simp [Except.bind, hf, Except.map] at h
      · simp only [Except.bind, hf, Except.map] at h
        cases h
        exact ⟨a, l, l', rfl, hf, rfl⟩
  · rintro ⟨a, l, l', hx, hf, rfl⟩
    simp [hx, hf, Except.bind, Except.map]

theorem forM_emit_apply {ι : Type} (e : ι → E) (l : List ι) (m : M) :
    (l.forM fun i => (emit (e i) : Wr M E Unit)) m = .ok ((), l.map e) := by
  rw [List.forM_eq_forM]
  induction l generalizing m with
  | nil => rfl
  | cons i l ih => simp [List.forM_cons, ih, Except.bind, Except.map]

/-- The memory before and the memory after are related, whenever the code returns. -/
def Relates (R : M → M → Prop) (x : Wr M E α) : Prop := ∀ m a log, x m = .ok (a, log) → R m (storeAll m log)

namespace Relates

variable {R : M → M → Prop}

theorem pure (hr : ∀ m, R m m) (a : α) : Relates R (Pure.pure a : Wr M E α) := by
  intro m b log h
  cases h
  exact hr m

theorem read (hr : ∀ m, R m m) (f : M → α) : Relates R (Wr.read f : Wr M E α) := by
  intro m b log h
  cases h
  exact hr m

theorem query (hr : ∀ m, R m m) (f : M → Except Stuck α) : Relates R (Wr.query f : Wr M E α) := by
  intro m b log h
  obtain ⟨-, rfl⟩ := query_ok.mp h
  exact hr m

theorem stuck (e : Stuck) : Relates R (Wr.stuck e : Wr M E α) := fun _ _ _ h => by cases h

theorem emit {e : E} (h : ∀ m, R m (Storable.store m e)) : Relates R (Wr.emit e : Wr M E Unit) := by
  intro m b log hm
  cases hm
  exact h m

theorem bind (ht : ∀ ⦃m m' m''⦄, R m m' → R m' m'' → R m m'') {x : Wr M E α} {f : α → Wr M E β} (hx : Relates R x)
    (hf : ∀ a, Relates R (f a)) : Relates R (x >>= f) := by
  intro m b log h
  obtain ⟨a, l, l', hxm, hfm, rfl⟩ := bind_ok.mp h
  rw [storeAll_append]
  exact ht (hx m a l hxm) (hf a _ b l' hfm)

theorem forM {ι : Type} (hr : ∀ m, R m m) (ht : ∀ ⦃m m' m''⦄, R m m' → R m' m'' → R m m'') {f : ι → Wr M E Unit}
    (hf : ∀ i, Relates R (f i)) (l : List ι) : Relates R (l.forM f) := by
  induction l with
  | nil => exact .pure hr ()
  | cons i l ih => exact .bind ht (hf i) fun _ => ih

end Relates

/-- Every store of the code is of some kind. -/
def Emits (P : E → Prop) (x : Wr M E α) : Prop := ∀ m a log, x m = .ok (a, log) → ∀ e ∈ log, P e

namespace Emits

variable {P : E → Prop}

omit [Storable M E] in
theorem of_nil {x : Wr M E α} (h : ∀ m a log, x m = .ok (a, log) → log = []) : Emits P x := by
  intro m a log hm e he
  rw [h m a log hm] at he
  cases he

theorem pure (a : α) : Emits P (Pure.pure a : Wr M E α) := of_nil fun _ _ _ h => by cases h; rfl

omit [Storable M E] in
theorem read (f : M → α) : Emits P (Wr.read f : Wr M E α) := of_nil fun _ _ _ h => by cases h; rfl

omit [Storable M E] in
theorem query (f : M → Except Stuck α) : Emits P (Wr.query f : Wr M E α) := of_nil fun _ _ _ h => (query_ok.mp h).2

omit [Storable M E] in
theorem stuck (e : Stuck) : Emits P (Wr.stuck e : Wr M E α) := of_nil fun _ _ _ h => by cases h

omit [Storable M E] in
theorem emit {e : E} (h : P e) : Emits P (Wr.emit e : Wr M E Unit) := by
  intro m a log hm e' he
  cases hm
  rwa [List.mem_singleton.mp he]

theorem bind {x : Wr M E α} {f : α → Wr M E β} (hx : Emits P x) (hf : ∀ a, Emits P (f a)) : Emits P (x >>= f) := by
  intro m b log h e he
  obtain ⟨a, l, l', hxm, hfm, rfl⟩ := bind_ok.mp h
  rcases List.mem_append.mp he with he | he
  · exact hx m a l hxm e he
  · exact hf a _ b l' hfm e he

theorem forM {ι : Type} {f : ι → Wr M E Unit} (hf : ∀ i, Emits P (f i)) (l : List ι) : Emits P (l.forM f) := by
  induction l with
  | nil => exact .pure ()
  | cons i l ih => exact .bind (hf i) fun _ => ih

end Emits

theorem exec_ok {x : Wr M E α} {m m' : M} {a : α} :
    x.exec m = .ok (a, m') ↔ ∃ log, x m = .ok (a, log) ∧ m' = storeAll m log := by
  rw [exec]
  rcases x m with e | ⟨b, log⟩
  · simp [Except.map]
  · simp only [Except.map, Except.ok.injEq, Prod.mk.injEq]
    constructor
    · rintro ⟨rfl, rfl⟩
      exact ⟨log, ⟨rfl, rfl⟩, rfl⟩
    · rintro ⟨_, ⟨rfl, rfl⟩, rfl⟩
      exact ⟨rfl, rfl⟩

theorem exec_of_apply {x : Wr M E α} {m : M} {a : α} {log : List E} (h : x m = .ok (a, log)) :
    x.exec m = .ok (a, storeAll m log) := by
  simp [exec, h, Except.map]

end Wr

end Ptok.Lib
