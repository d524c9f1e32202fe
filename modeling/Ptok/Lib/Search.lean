import Mathlib

/-!
# A search in a map that changes

A map changes at one key at a time while somebody looks for its greatest key up to a bound. The search looks at one
part of the map after another, so what it comes to may have been the answer at no moment. `Found`, `NotFound` and
`Lost` say what it has seen in the end; while the map changes calmly, the answer was right at some moment.
-/

namespace Ptok.Lib

variable {K V : Type} [LinearOrder K]

/-- One key is bound that was not, one is unbound, or nothing happens. -/
inductive Change (g g' : K → Option V) : Prop
  | same (h : g' = g)
  | bind {k : K} {v : V} (hk : g k = none) (h : g' = Function.update g k (some v))
  | unbind {k : K} (h : g' = Function.update g k none)

/-- The greatest key up to `q`, with its value. -/
structure IsLast (g : K → Option V) (q z : K) (v : V) : Prop where
  value : g z = some v
  le : z ≤ q
  greatest : ∀ k ≤ q, g k ≠ none → k ≤ z

section

variable {g g' : K → Option V} {x y z : K} {v : V}

/-- What is bound now and was not before is the only change. -/
theorem Change.of_bind (h : Change g g') (hx : g x = none) (hx' : g' x ≠ none) (hy : y ≠ x) : g' y = g y := by
  cases h with
  | same h => rw [h]
  | @bind k v hk h =>
      subst h
      by_cases hxk : x = k
      · subst hxk
        exact Function.update_of_ne hy _ _
      · rw [Function.update_of_ne hxk] at hx'
        exact absurd hx hx'
  | @unbind k h =>
      subst h
      by_cases hxk : x = k
      · subst hxk
        simp at hx'
      · rw [Function.update_of_ne hxk] at hx'
        exact absurd hx hx'

theorem Change.of_unbind (h : Change g g') (hx : g x ≠ none) (hx' : g' x = none) (hy : y ≠ x) : g' y = g y := by
  cases h with
  | same h => rw [h]
  | @bind k v hk h =>
      subst h
      by_cases hxk : x = k
      · subst hxk
        simp at hx'
      · rw [Function.update_of_ne hxk] at hx'
        exact absurd hx' hx
  | @unbind k h =>
      subst h
      by_cases hxk : x = k
      · subst hxk
        exact Function.update_of_ne hy _ _
      · rw [Function.update_of_ne hxk] at hx'
        exact absurd hx' hx

/-- A key that stays bound keeps its value. -/
theorem Change.value_eq (h : Change g g') (hx : g x ≠ none) (hx' : g' x ≠ none) : g' x = g x := by
  cases h with
  | same h => rw [h]
  | @bind k v hk h =>
      subst h
      refine Function.update_of_ne ?_ _ _
      rintro rfl
      exact hx hk
  | @unbind k h =>
      subst h
      refine Function.update_of_ne ?_ _ _
      rintro rfl
      simp at hx'

end

variable {f : ℕ → K → Option V} {P P' : K → Prop} {q z : K} {v : V} {i i' j j' n : ℕ}

/-! ## What a search has seen -/

/-- The key was not bound at some moment. -/
def Free (f : ℕ → K → Option V) (i j : ℕ) (k : K) : Prop := ∃ s, i ≤ s ∧ s ≤ j ∧ f s k = none

omit [LinearOrder K] in
theorem Free.mono {k : K} (h : Free f i' j' k) (hi : i ≤ i') (hj : j' ≤ j) : Free f i j k := by
  obtain ⟨s, hs, hs', hfree⟩ := h
  exact ⟨s, hi.trans hs, hs'.trans hj, hfree⟩

/-- Among the keys in `P`: a value that was bound, and the keys above it had not been bound at some moment before. -/
structure Found (f : ℕ → K → Option V) (P : K → Prop) (i j : ℕ) (v : V) : Prop where
  seen : ∃ z t, i ≤ t ∧ t ≤ j ∧ P z ∧ f t z = some v ∧ ∀ y, P y → z < y → Free f i t y

/-- None of the keys was bound all the time. -/
def NotFound (f : ℕ → K → Option V) (P : K → Prop) (i j : ℕ) : Prop := ∀ y, P y → Free f i j y

/-- In some part of the keys there was a bound one at any moment, but not the same one all the time. -/
structure Lost (f : ℕ → K → Option V) (P : K → Prop) (i j : ℕ) : Prop where
  seen : ∃ (S : K → Prop) (s t : ℕ), i ≤ s ∧ s ≤ t ∧ t ≤ j ∧ (∀ k, S k → P k) ∧
    (∀ k y, S k → P y → k < y → S y ∨ Free f i s y) ∧ (∀ u, s ≤ u → u ≤ t → ∃ k, S k ∧ f u k ≠ none) ∧
    ∀ k, S k → Free f s t k

/-- A search among some of the keys is a search among more of them, if the others that count were seen free before. -/
theorem Found.grow (h : Found f P' i' j' v) (hi : i ≤ i') (hj : j' ≤ j) (hP : ∀ y, P' y → P y)
    (hup : ∀ x y, P' x → P y → x < y → P' y ∨ Free f i i' y) : Found f P i j v := by
  obtain ⟨z, t, hit, htj, hz, hv, habove⟩ := h.seen
  refine ⟨z, t, hi.trans hit, htj.trans hj, hP z hz, hv, fun y hy hlt => ?_⟩
  rcases hup z y hz hy hlt with hy' | hfree
  · exact (habove y hy' hlt).mono hi le_rfl
  · exact hfree.mono le_rfl hit

theorem Lost.grow (h : Lost f P' i' j') (hi : i ≤ i') (hj : j' ≤ j) (hP : ∀ y, P' y → P y)
    (hup : ∀ x y, P' x → P y → x < y → P' y ∨ Free f i i' y) : Lost f P i j := by
  obtain ⟨S, s, t, his, hst, htj, hS, habove, hin, hout⟩ := h.seen
  refine ⟨S, s, t, hi.trans his, hst, htj.trans hj, fun k hk => hP k (hS k hk), fun k y hk hy hlt => ?_, hin, hout⟩
  rcases hup k y (hS k hk) hy hlt with hy' | hfree
  · exact (habove k y hk hy' hlt).imp id fun hf => hf.mono hi le_rfl
  · exact Or.inr (hfree.mono le_rfl his)

/-- The value was bound at some moment, or it is the one that stands for nothing. -/
def Came (null : V) (f : ℕ → K → Option V) (P : K → Prop) (i j : ℕ) (v : V) : Prop :=
  v = null ∨ ∃ z t, i ≤ t ∧ t ≤ j ∧ P z ∧ f t z = some v

omit [LinearOrder K] in
theorem Came.grow {null : V} (h : Came null f P' i' j' v) (hi : i ≤ i') (hj : j' ≤ j) (hP : ∀ y, P' y → P y) :
    Came null f P i j v := by
  rcases h with h | ⟨z, t, hit, htj, hz, hv⟩
  · exact Or.inl h
  · exact Or.inr ⟨z, t, hi.trans hit, htj.trans hj, hP z hz, hv⟩

theorem Found.came {null : V} (h : Found f P i j v) : Came null f P i j v := by
  obtain ⟨z, t, hit, htj, hz, hv, -⟩ := h.seen
  exact Or.inr ⟨z, t, hit, htj, hz, hv⟩

/-- How a search ends that comes to a value. -/
def Sought (null : V) (f : ℕ → K → Option V) (P : K → Prop) (i j : ℕ) (v : V) : Prop :=
  Found f P i j v ∨ Lost f P i j ∧ Came null f P i j v

theorem Sought.grow {null : V} (h : Sought null f P' i' j' v) (hi : i ≤ i') (hj : j' ≤ j) (hP : ∀ y, P' y → P y)
    (hup : ∀ x y, P' x → P y → x < y → P' y ∨ Free f i i' y) : Sought null f P i j v :=
  h.imp (fun h => h.grow hi hj hP hup) fun h => ⟨h.1.grow hi hj hP hup, h.2.grow hi hj hP⟩

theorem Sought.came {null : V} (h : Sought null f P i j v) : Came null f P i j v := by
  rcases h with h | ⟨-, h⟩
  · exact h.came
  · exact h

/-! ## Changes in one direction -/

omit [LinearOrder K] in
/-- A key that is bound stays bound as long as nothing is unbound. -/
theorem bound_mono {k : K} (h : ∀ t, i ≤ t → t < j → f t k ≠ none → f (t + 1) k ≠ none) {s t : ℕ} (hi : i ≤ s)
    (hst : s ≤ t) (hj : t ≤ j) (hs : f s k ≠ none) : f t k ≠ none := by
  induction t, hst using Nat.le_induction with
  | base => exact hs
  | succ t hst ih => exact h t (hi.trans hst) (by omega) (ih (by omega))

/-- What gets lost was unbound. -/
theorem Lost.unbound (h : Lost f P i j) : ¬ ∀ k, P k → ∀ t, i ≤ t → t < j → f t k ≠ none → f (t + 1) k ≠ none := by
  intro hall
  obtain ⟨S, s, t, his, hst, htj, hS, -, hin, hout⟩ := h.seen
  obtain ⟨k, hk, hbound⟩ := hin s le_rfl hst
  obtain ⟨u, hsu, hut, hfree⟩ := hout k hk
  exact bound_mono (hall k (hS k hk)) his hsu (hut.trans htj) hbound hfree

/-! ## Calm changes -/

/-- What is bound at a moment. -/
def Bound (f : ℕ → K → Option V) (i : ℕ) (k : K) : Prop := f i k ≠ none

variable (B : ℕ → K → Prop)

/-- Bound all the time so far. -/
def Old (i : ℕ) (k : K) : Prop := ∀ s ≤ i, B s k

/-- Bound, but not all the time. -/
def New (i : ℕ) (k : K) : Prop := B i k ∧ ¬ Old B i k

/-- No key up to `q` is bound while a greater one is that was not always, or unbound while any other one is that was
not always. It does not matter if a key that was always bound is above one of the two. -/
structure Calm (q : K) (i : ℕ) : Prop where
  bind : ∀ x ≤ q, ¬ B i x → B (i + 1) x → ∀ y ≤ q, New B i y → x < y → ∃ o ≤ q, Old B i o ∧ x < o
  unbind : ∀ x ≤ q, B i x → ¬ B (i + 1) x → ∀ y ≤ q, New B i y → y ≠ x →
    ∃ o ≤ q, Old B i o ∧ o ≠ x ∧ (x < o ∨ y < o)

variable {B}

omit [LinearOrder K] in
theorem Old.free {k : K} (h : Old (Bound f) i k) (hj : j' ≤ i) : ¬ Free f j j' k := by
  rintro ⟨s, -, hs, hfree⟩
  exact h s (hs.trans hj) hfree

omit [LinearOrder K] in
theorem Old.succ {k : K} (h : Old (Bound f) i k) (hk : f (i + 1) k ≠ none) : Old (Bound f) (i + 1) k := by
  intro s hs
  rcases Nat.le_succ_iff.mp hs with hs | rfl
  · exact h s hs
  · exact hk

/-- The key that is bound or unbound is the only one that changes. -/
theorem Change.old (h : Change (f i) (f (i + 1))) {o x : K} (ho : Old (Bound f) i o) (hx : f i x ≠ none)
    (hx' : f (i + 1) x = none) (hne : o ≠ x) : Old (Bound f) (i + 1) o :=
  ho.succ (by rw [h.of_unbind hx hx' hne]; exact ho i le_rfl)

/-- Every key that is bound was the answer at some moment, or it is below a key that has always been bound. -/
theorem Calm.answered (hf : ∀ i < n, Change (f i) (f (i + 1))) (hc : ∀ i < n, Calm (Bound f) q i) (hi : i ≤ n) (hz : z ≤ q)
    (hv : f i z = some v) : (∃ o ≤ q, z < o ∧ Old (Bound f) i o) ∨ ∃ t ≤ i, IsLast (f t) q z v := by
  -- it is the answer now, or something above it is bound
  have hnow : ∀ i, f i z = some v → (∃ y ≤ q, z < y ∧ f i y ≠ none) ∨ IsLast (f i) q z v := by
    intro i hv
    by_cases h : ∃ y ≤ q, z < y ∧ f i y ≠ none
    · exact Or.inl h
    · refine Or.inr ⟨hv, hz, fun k hk hbound => ?_⟩
      by_contra hlt
      exact h ⟨k, hk, not_le.mp hlt, hbound⟩
  induction i with
  | zero =>
      rcases hnow 0 hv with ⟨y, hy, hlt, hbound⟩ | hlast
      · left
        refine ⟨y, hy, hlt, fun s hs => ?_⟩
        rwa [Nat.le_zero.mp hs]
      · exact Or.inr ⟨0, le_rfl, hlast⟩
  | succ i ih =>
      have hstep := hf i hi
      have hcalm := hc i hi
      by_cases hfree : f i z = none
      · -- it has just been bound
        rcases hnow (i + 1) hv with ⟨y, hy, hlt, hbound⟩ | hlast
        · left
          have hz' : f (i + 1) z ≠ none := by simp [hv]
          have hsame : ∀ y, y ≠ z → f (i + 1) y = f i y := fun y hne => hstep.of_bind hfree hz' hne
          have hold : ∀ o, z < o → Old (Bound f) i o → Old (Bound f) (i + 1) o := fun o hlt ho =>
            ho.succ (by rw [hsame o hlt.ne']; exact ho i le_rfl)
          by_cases ho : Old (Bound f) i y
          · exact ⟨y, hy, hlt, hold y hlt ho⟩
          · rw [hsame y hlt.ne'] at hbound
            obtain ⟨o, hoq, ho, hzo⟩ := hcalm.bind z hz (not_not.mpr hfree) hz' y hy ⟨hbound, ho⟩ hlt
            exact ⟨o, hoq, hzo, hold o hzo ho⟩
        · exact Or.inr ⟨i + 1, le_rfl, hlast⟩
      · have hvi : f i z = some v := by
          rw [← hv]
          exact (hstep.value_eq hfree (by simp [hv])).symm
        rcases ih (by omega) hvi with ⟨o, hoq, hzo, ho⟩ | ⟨t, ht, hlast⟩
        · by_cases ho' : f (i + 1) o = none
          · -- the key above it that was always bound is unbound
            have hbi : f i o ≠ none := ho i le_rfl
            rcases hnow (i + 1) hv with ⟨y, hy, hlt, hbound⟩ | hlast
            · left
              have hne : y ≠ o := by
                rintro rfl
                exact hbound ho'
              by_cases hyo : Old (Bound f) i y
              · exact ⟨y, hy, hlt, hyo.succ hbound⟩
              · rw [hstep.of_unbind hbi ho' hne] at hbound
                obtain ⟨o', hoq', hold, hne', hlt'⟩ := hcalm.unbind o hoq hbi (not_not.mpr ho') y hy ⟨hbound, hyo⟩ hne
                exact ⟨o', hoq', hlt'.elim hzo.trans hlt.trans, hstep.old hold hbi ho' hne'⟩
            · exact Or.inr ⟨i + 1, le_rfl, hlast⟩
          · exact Or.inl ⟨o, hoq, hzo, ho.succ ho'⟩
        · exact Or.inr ⟨t, by omega, hlast⟩

/-- There was a moment with nothing bound up to `q`, or there is a key that has always been bound. -/
theorem Calm.empty (hf : ∀ i < n, Change (f i) (f (i + 1))) (hc : ∀ i < n, Calm (Bound f) q i) (hi : i ≤ n) :
    (∃ o ≤ q, Old (Bound f) i o) ∨ ∃ t ≤ i, ∀ k ≤ q, f t k = none := by
  have hnow : ∀ i, (∃ y ≤ q, f i y ≠ none) ∨ ∀ k ≤ q, f i k = none := by
    intro i
    by_cases h : ∃ y ≤ q, f i y ≠ none
    · exact Or.inl h
    · refine Or.inr fun k hk => ?_
      by_contra hbound
      exact h ⟨k, hk, hbound⟩
  induction i with
  | zero =>
      rcases hnow 0 with ⟨y, hy, hbound⟩ | hnone
      · left
        refine ⟨y, hy, fun s hs => ?_⟩
        rwa [Nat.le_zero.mp hs]
      · exact Or.inr ⟨0, le_rfl, hnone⟩
  | succ i ih =>
      have hstep := hf i hi
      rcases ih (by omega) with ⟨o, hoq, ho⟩ | ⟨t, ht, hnone⟩
      · by_cases ho' : f (i + 1) o = none
        · have hbi : f i o ≠ none := ho i le_rfl
          rcases hnow (i + 1) with ⟨y, hy, hbound⟩ | hnone
          · left
            have hne : y ≠ o := by
              rintro rfl
              exact hbound ho'
            by_cases hyo : Old (Bound f) i y
            · exact ⟨y, hy, hyo.succ hbound⟩
            · rw [hstep.of_unbind hbi ho' hne] at hbound
              obtain ⟨o', hoq', hold, hne', -⟩ := (hc i hi).unbind o hoq hbi (not_not.mpr ho') y hy ⟨hbound, hyo⟩ hne
              exact ⟨o', hoq', hstep.old hold hbi ho' hne'⟩
          · exact Or.inr ⟨i + 1, le_rfl, hnone⟩
        · exact Or.inl ⟨o, hoq, ho.succ ho'⟩
      · exact Or.inr ⟨t, by omega, hnone⟩

theorem Found.current (h : Found f (· ≤ q) i j v) (hf : ∀ i < n, Change (f i) (f (i + 1)))
    (hc : ∀ i < n, Calm (Bound f) q i) (hj : j ≤ n) : ∃ t ≤ j, ∃ z, IsLast (f t) q z v := by
  obtain ⟨z, t, -, htj, hz, hv, habove⟩ := h.seen
  rcases Calm.answered hf hc (htj.trans hj) hz hv with ⟨o, hoq, hlt, ho⟩ | ⟨t', ht', hlast⟩
  · exact absurd (habove o hoq hlt) (ho.free le_rfl)
  · exact ⟨t', ht'.trans htj, z, hlast⟩

theorem NotFound.current (h : NotFound f (· ≤ q) i j) (hf : ∀ i < n, Change (f i) (f (i + 1)))
    (hc : ∀ i < n, Calm (Bound f) q i) (hj : j ≤ n) : ∃ t ≤ j, ∀ k ≤ q, f t k = none := by
  rcases Calm.empty hf hc hj with ⟨o, hoq, ho⟩ | hnone
  · exact absurd (h o hoq) (ho.free le_rfl)
  · exact hnone

/-- Nothing gets lost while the map changes calmly: the last key of the part that was bound all the time would be unbound
while another one is bound that was not. -/
theorem Calm.not_lost (hf : ∀ i < n, Change (f i) (f (i + 1))) (hc : ∀ i < n, Calm (Bound f) q i) (hj : j ≤ n) :
    ¬ Lost f (· ≤ q) i j := by
  intro h
  obtain ⟨S, s, t, -, hst, htj, hS, habove, hin, hout⟩ := h.seen
  have hkey : ∀ u, s ≤ u → u ≤ t → ∃ k, S k ∧ ∀ w, s ≤ w → w ≤ u → f w k ≠ none := by
    intro u hsu
    induction u, hsu using Nat.le_induction with
    | base =>
        intro hst
        obtain ⟨k, hk, hbound⟩ := hin s le_rfl hst
        refine ⟨k, hk, fun w hsw hws => ?_⟩
        rwa [le_antisymm hws hsw]
    | succ u hsu ih =>
        intro hut
        obtain ⟨k, hk, hstays⟩ := ih (by omega)
        have hgo : ∀ k, S k → (∀ w, s ≤ w → w ≤ u → f w k ≠ none) → f (u + 1) k ≠ none →
            ∃ k, S k ∧ ∀ w, s ≤ w → w ≤ u + 1 → f w k ≠ none := by
          intro k hk hstays hbound
          refine ⟨k, hk, fun w hsw hwu => ?_⟩
          rcases Nat.le_succ_iff.mp hwu with hwu | rfl
          · exact hstays w hsw hwu
          · exact hbound
        by_cases hk' : f (u + 1) k = none
        · have hstep := hf u (by omega)
          have hbu : f u k ≠ none := hstays u hsu le_rfl
          obtain ⟨y, hy, hbound⟩ := hin (u + 1) (by omega) hut
          have hne : y ≠ k := by
            rintro rfl
            exact hbound hk'
          by_cases hold : Old (Bound f) u y
          · exact hgo y hy (fun w _ hw => hold w hw) hbound
          · rw [hstep.of_unbind hbu hk' hne] at hbound
            obtain ⟨o, hoq, ho, hne', hlt⟩ := (hc u (by omega)).unbind k (hS k hk) hbu (not_not.mpr hk') y (hS y hy) ⟨hbound, hold⟩ hne
            have hSo : S o := by
              rcases hlt with hlt | hlt
              · exact (habove k o hk hoq hlt).resolve_right (ho.free hsu)
              · exact (habove y o hy hoq hlt).resolve_right (ho.free hsu)
            exact hgo o hSo (fun w _ hw => ho w hw) (hstep.old ho hbu hk' hne' _ le_rfl)
        · exact hgo k hk hstays hk'
  obtain ⟨k, hk, hstays⟩ := hkey t hst le_rfl
  obtain ⟨w, hsw, hwt, hfree⟩ := hout k hk
  exact hstays w hsw hwt hfree

end Ptok.Lib
