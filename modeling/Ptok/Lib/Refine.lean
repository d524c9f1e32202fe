import Ptok.Lib.Atomic

/-!
# Implementations of one specification

A specification says what a call answers in an abstract state and what it leaves. An implementation refines it along a
relation between its states and the abstract ones if it can match every call that may be made. Then it matches every
sequence of calls, and two implementations of one specification return the same.
-/

namespace Ptok.Lib

/-! ## What a computation returns -/

theorem Returns.bind {α β : Type} {x : ℕ → Except Stuck α} {y : α → ℕ → Except Stuck β} {r : α} {b : β}
    (hx : Returns x r) (hy : Returns (y r) b) : Returns (fun fuel => x fuel >>= fun r => y r fuel) b := by
  obtain ⟨N, hN⟩ := hx
  obtain ⟨M, hM⟩ := hy
  refine ⟨max N M, fun fuel hf => ?_⟩
  dsimp only
  rw [hN fuel (by omega)]
  exact hM fuel (by omega)

theorem Returns.of_map_injective {α β : Type} {x : ℕ → Except Stuck α} {c : α → β} {r : β}
    (hr : Returns (fun fuel => (x fuel).map c) r) (hc : Function.Injective c) : ∃ s, Returns x s ∧ c s = r := by
  obtain ⟨N, hN⟩ := hr
  have hone : ∀ fuel, N ≤ fuel → ∃ s, x fuel = .ok s ∧ c s = r := by
    intro fuel hf
    have h := hN fuel hf
    cases hx : x fuel with
    | error e => simp [hx, Except.map] at h
    | ok s => exact ⟨s, rfl, by simpa [hx, Except.map] using h⟩
  obtain ⟨s, -, hs⟩ := hone N le_rfl
  refine ⟨s, ⟨N, fun fuel hf => ?_⟩, hs⟩
  obtain ⟨s', hx, hs'⟩ := hone fuel hf
  rw [hx, hc (hs'.trans hs.symm)]

/-! ## Sequences of calls -/

variable {Op Ret A S : Type} {spec : A → Op → Ret → A → Prop} {pre : A → Op → Prop}
  {call : Op → S → ℕ → Except Stuck (Ret × S)} {R : S → A → Prop} {a a' a₁ a₂ : A} {s s' : S} {op : Op} {ops : List Op}
  {r : Ret} {rs rs' : List Ret}

/-- The calls are answered one after the other. -/
inductive Answered (spec : A → Op → Ret → A → Prop) : A → List Op → List Ret → A → Prop
  | nil (a : A) : Answered spec a [] [] a
  | cons {a a' a'' : A} {op : Op} {ops : List Op} {r : Ret} {rs : List Ret} (h : spec a op r a')
      (t : Answered spec a' ops rs a'') : Answered spec a (op :: ops) (r :: rs) a''

/-- Every call may be made where it is made. -/
def Allowed (spec : A → Op → Ret → A → Prop) (pre : A → Op → Prop) : A → List Op → Prop
  | _, [] => True
  | a, op :: ops => pre a op ∧ ∀ r a', spec a op r a' → Allowed spec pre a' ops

/-- The calls return one after the other. -/
inductive Calling (call : Op → S → ℕ → Except Stuck (Ret × S)) : S → List Op → List Ret → S → Prop
  | nil (s : S) : Calling call s [] [] s
  | cons {s s' s'' : S} {op : Op} {ops : List Op} {r : Ret} {rs : List Ret} (hr : Returns (call op s) (r, s'))
      (t : Calling call s' ops rs s'') : Calling call s (op :: ops) (r :: rs) s''

/-- Each call that may be made returns what the specification answers. -/
structure Refines (spec : A → Op → Ret → A → Prop) (pre : A → Op → Prop) (call : Op → S → ℕ → Except Stuck (Ret × S))
    (R : S → A → Prop) : Prop where
  step : ∀ {s a op}, R s a → pre a op → ∃ r s' a', Returns (call op s) (r, s') ∧ spec a op r a' ∧ R s' a'

theorem Refines.run (h : Refines spec pre call R) (hR : R s a) (hops : Allowed spec pre a ops) :
    ∃ rs s' a', Calling call s ops rs s' ∧ Answered spec a ops rs a' ∧ R s' a' := by
  induction ops generalizing s a with
  | nil => exact ⟨[], s, a, .nil s, .nil a, hR⟩
  | cons op ops ih =>
      obtain ⟨hpre, hrest⟩ := hops
      obtain ⟨r, s', a', hr, hspec, hR'⟩ := h.step hR hpre
      obtain ⟨rs, s'', a'', hcalls, hans, hR''⟩ := ih hR' (hrest r a' hspec)
      exact ⟨r :: rs, s'', a'', .cons hr hcalls, .cons hspec hans, hR''⟩

/-- In every state each call has one answer at most, and leaves one state. -/
def OneAnswer (spec : A → Op → Ret → A → Prop) : Prop :=
  ∀ a op r r' a₁ a₂, spec a op r a₁ → spec a op r' a₂ → r = r' ∧ a₁ = a₂

theorem Answered.unique (hone : OneAnswer spec) (h : Answered spec a ops rs a₁) (h' : Answered spec a ops rs' a₂) :
    rs = rs' ∧ a₁ = a₂ := by
  induction h generalizing rs' with
  | nil a =>
      cases h'
      exact ⟨rfl, rfl⟩
  | cons hs _ ih =>
      cases h' with
      | cons hs' t =>
          obtain ⟨rfl, rfl⟩ := hone _ _ _ _ _ _ hs hs'
          obtain ⟨rfl, rfl⟩ := ih t
          exact ⟨rfl, rfl⟩

/-- Where the specification has one answer, every implementation returns it. -/
theorem Refines.returns (h : Refines spec pre call R) (hone : OneAnswer spec) (hR : R s a) (hops : Allowed spec pre a ops)
    (hans : Answered spec a ops rs a') : ∃ s', Calling call s ops rs s' := by
  obtain ⟨rs', s', a'', hcalls, hans', -⟩ := h.run hR hops
  obtain ⟨rfl, -⟩ := hans.unique hone hans'
  exact ⟨s', hcalls⟩

end Ptok.Lib
