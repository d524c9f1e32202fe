import Ptok.Lib.Atomic

/-!
# Stores with a ghost beside the memory

A ghost says what the memory is meant to be. `step m g e g'` lists the stores `e` that code may make in memory `m`
when the ghost is `g`, with what the ghost is afterwards. An invariant that every step keeps holds between any two
stores of a run.
-/

namespace Ptok.Lib

variable {M E G α β : Type} [Storable M E] (step : M → G → E → G → Prop)

/-- Stores one after another. -/
inductive Path : M → G → List E → G → Prop
  | nil (m : M) (g : G) : Path m g [] g
  | cons {m : M} {g g₁ g₂ : G} {e : E} {log : List E} (h : step m g e g₁)
      (t : Path (Storable.store m e) g₁ log g₂) : Path m g (e :: log) g₂

/-- Code returns `a`, and its stores lead from one ghost to the other. -/
structure Does (x : Wr M E α) (m : M) (g : G) (a : α) (log : List E) (g' : G) : Prop where
  run : x m = .ok (a, log)
  path : Path step m g log g'

variable {step}

theorem Path.append {m : M} {g g₁ g₂ : G} {log log' : List E} (h : Path step m g log g₁)
    (h' : Path step (storeAll m log) g₁ log' g₂) : Path step m g (log ++ log') g₂ := by
  induction h with
  | nil m g => exact h'
  | cons h t ih => exact .cons h (ih h')

theorem Path.single {m : M} {g g' : G} {e : E} (h : step m g e g') : Path step m g [e] g' := .cons h (.nil _ _)

theorem Path.split {l l' : List E} {m : M} {g g' : G} (h : Path step m g (l ++ l') g') :
    ∃ g₁, Path step m g l g₁ ∧ Path step (storeAll m l) g₁ l' g' := by
  induction l generalizing m g with
  | nil => exact ⟨g, .nil m g, h⟩
  | cons e l ih =>
      cases h with
      | cons hs t =>
          obtain ⟨g₁, h₁, h₂⟩ := ih t
          exact ⟨g₁, .cons hs h₁, h₂⟩

theorem Path.mono {step' : M → G → E → G → Prop} (hstep : ∀ {m g e g'}, step m g e g' → step' m g e g') {m : M}
    {g g' : G} {log : List E} (hp : Path step m g log g') : Path step' m g log g' := by
  induction hp with
  | nil m g => exact .nil m g
  | cons hs t ih => exact .cons (hstep hs) ih

theorem Path.inv {I : M → G → Prop} (hI : ∀ {m g e g'}, step m g e g' → I m g → I (Storable.store m e) g') {m : M}
    {g g' : G} {log : List E} (hp : Path step m g log g') (h : I m g) : I (storeAll m log) g' := by
  induction hp with
  | nil m g => exact h
  | cons hs t ih => exact ih (hI hs h)

namespace Does

variable {m : M} {g g₁ g₂ g' : G} {a : α} {b : β} {l l' log : List E}

theorem bind {x : Wr M E α} {f : α → Wr M E β} (h : Does step x m g a l g₁)
    (h' : Does step (f a) (storeAll m l) g₁ b l' g₂) : Does step (x >>= f) m g b (l ++ l') g₂ where
  run := by simp [h.run, h'.run, Except.bind, Except.map]
  path := h.path.append h'.path

theorem pure (a : α) (m : M) (g : G) : Does step (Pure.pure a) m g a [] g := ⟨rfl, .nil m g⟩

theorem read {v : M → β} {f : β → Wr M E α} (h : Does step (f (v m)) m g a log g') :
    Does step (Wr.read v >>= f) m g a log g' :=
  bind (l := []) ⟨rfl, .nil m g⟩ h

theorem reads {v : M → β} {b : β} {f : β → Wr M E α} (hv : v m = b) (h : Does step (f b) m g a log g') :
    Does step (Wr.read v >>= f) m g a log g' := by
  subst hv
  exact read h

theorem query {v : M → Except Stuck β} {b : β} {f : β → Wr M E α} (hv : v m = .ok b)
    (h : Does step (f b) m g a log g') : Does step (Wr.query v >>= f) m g a log g' :=
  bind (l := []) ⟨by simp [hv, Except.map], .nil m g⟩ h

theorem emit {e : E} {f : Unit → Wr M E α} (hs : step m g e g₁) (h : Does step (f ()) (Storable.store m e) g₁ a log g') :
    Does step (Wr.emit e >>= f) m g a (e :: log) g' :=
  bind (l := [e]) ⟨rfl, .single hs⟩ h

theorem emit_last {e : E} (hs : step m g e g₁) : Does step (Wr.emit e) m g () [e] g₁ := ⟨rfl, .single hs⟩

end Does

/-! ## The calls of writers -/

section

variable {Op R : Type} (pre : M → Op → Prop) (run : Op → ℕ → Wr M E R)

/-- Calls under the write lock return one after the other, and this is the log of their stores. -/
inductive Runs : M → List Op → List E → Prop
  | nil (m : M) : Runs m [] []
  | cons {m : M} {op : Op} {ops : List Op} {r : R} {log log' : List E} (hpre : pre m op)
      (hr : Returns (fun fuel => run op fuel m) (r, log)) (t : Runs (storeAll m log) ops log') :
      Runs m (op :: ops) (log ++ log')

/-- By the time of these stores a call of `op` has begun, and it has stored something. -/
def Begun (m : M) (ops : List Op) (log : List E) (op : Op) : Prop :=
  ∃ ops₁ ops₂ log₁ log₂, ops = ops₁ ++ op :: ops₂ ∧ Runs pre run m ops₁ log₁ ∧ log = log₁ ++ log₂ ∧ log₂ ≠ []

variable {pre run} {m : M} {g g' : G} {op op' : Op} {ops : List Op} {r : R} {l l' log log' : List E}

theorem Begun.cons (hpre : pre m op) (hr : Returns (fun fuel => run op fuel m) (r, log))
    (h : Begun pre run (storeAll m log) ops l op') : Begun pre run m (op :: ops) (log ++ l) op' := by
  obtain ⟨ops₁, ops₂, log₁, log₂, rfl, hruns, rfl, hne⟩ := h
  exact ⟨op :: ops₁, ops₂, log ++ log₁, log₂, rfl, .cons hpre hr hruns, by simp, hne⟩

theorem Begun.head (hne : l ≠ []) : Begun pre run m (op :: ops) l op := ⟨[], ops, [], l, rfl, .nil m, rfl, hne⟩

theorem Begun.mem (h : Begun pre run m ops l op) : op ∈ ops := by
  obtain ⟨ops₁, ops₂, -, -, rfl, -⟩ := h
  simp

/-- What has been stored so far are steps, if the stores of every call begun so far are, and so is what the call at work
has still to store. -/
theorem Runs.path {P : Op → Prop} {S : M → G → E → G → Prop} {I : M → G → Prop}
    (hop : ∀ {m g op}, I m g → pre m op → P op → ∃ r log g', Returns (fun fuel => run op fuel m) (r, log) ∧
      Path S m g log g' ∧ I (storeAll m log) g')
    (h : Runs pre run m ops (l ++ l')) (hP : ∀ op, Begun pre run m ops l op → P op) (hm : I m g) :
    ∃ g₁ l₁ l₂ g', l' = l₁ ++ l₂ ∧ Path S m g l g₁ ∧ Path S (storeAll m l) g₁ l₁ g' ∧ I (storeAll m (l ++ l₁)) g' := by
  generalize hlog : l ++ l' = log at h
  induction h generalizing g l with
  | nil m =>
      obtain ⟨rfl, rfl⟩ := List.append_eq_nil_iff.mp hlog
      exact ⟨g, [], [], g, rfl, .nil m g, .nil m g, hm⟩
  | @cons m op ops r log log' hpre hr t ih =>
      by_cases hne : l = []
      · subst hne
        exact ⟨g, [], l', g, rfl, .nil m g, .nil m g, hm⟩
      obtain ⟨r', log₁, g₁, hr', hpath, hok⟩ := hop hm hpre (hP op (.head hne))
      cases hr.unique hr'
      rcases List.append_eq_append_iff.mp hlog with ⟨c, rfl, rfl⟩ | ⟨c, rfl, rfl⟩
      · -- the call is still at work
        obtain ⟨g₂, hp, hp'⟩ := hpath.split
        exact ⟨g₂, c, log', g₁, rfl, hp, hp', hok⟩
      · obtain ⟨g₂, l₁, l₂, g', rfl, hp, hp', hok'⟩ := ih (fun op hb => hP op (hb.cons hpre hr)) hok rfl
        refine ⟨g₂, l₁, l₂, g', rfl, hpath.append hp, ?_, ?_⟩
        · rwa [storeAll_append]
        · rwa [List.append_assoc, storeAll_append]

end

end Ptok.Lib
