import Ptok.Lib.Trie

/-!
# What a reader finds while the trie changes

A reader dives along the digits of its key and stops at a leaf or at nothing. It may be inside nodes that are no
longer in the tree. `Finds` is where the dive would end if nothing were stored any more. `Finds.of_fate` is the
effect of one store on it: if what changed is either right for the reader now or the same as before, then so is
what the reader finds, wherever it stands.
-/

namespace Ptok.Lib

namespace Coding

variable {K D N L P : Type}

/-- A walk that goes on, where it does, along the digits of `k`. -/
def Chooses (S : Coding K D N L) (k : K) (sel : N → (D → Tree P L N D) → Option D) : Prop :=
  ∀ n c i, S.ok n → sel n c = some i → i = S.dig k (S.pos n)

theorem Follows.chooses {S : Coding K D N L} {k : K} {sel : N → (D → Tree P L N D) → Option D} (h : Follows S k sel) : Chooses S k sel := by
  intro n c i hok hs
  rcases h n c hok with ⟨-, h⟩ | ⟨-, h⟩
  · exact Option.some.inj (hs.symm.trans h)
  · cases hs.symm.trans h

theorem along_chooses (S : Coding K D N L) (k : K) : Chooses S k (along (P := P) S k) := fun _ _ _ _ h => (Option.some.inj h).symm

theorem toParent_chooses (S : Coding K D N L) (k : K) : Chooses S k (toParent (P := P) S k) := by
  intro n c i _ h
  unfold toParent at h
  split at h
  · exact (Option.some.inj h).symm
  · cases h

variable [DecidableEq K] (S : Coding K D N L)

/-- The dive along `k` from a pointer ends with this leaf, or without one for `k`. -/
inductive Finds (cell : P → Cell P L N D) (k : K) : P → Option L → Prop
  | nil {p : P} (h : cell p = .nil) : Finds cell k p none
  | leaf {p : P} {l : L} (h : cell p = .leaf l) : Finds cell k p (if S.key l = k then some l else none)
  | node {p : P} {n : N} {ch : D → P} {r : Option L} (h : cell p = .node n ch)
      (hr : Finds cell k (ch (S.dig k (S.pos n))) r) : Finds cell k p r

variable {S} {cell cell' : P → Cell P L N D} {k : K} {p : P}

/-- In a tree it finds what the tree has. -/
theorem finds_iff {t : Tree P L N D} (h : Rep cell p t) {r : Option L} : S.Finds cell k p r ↔ r = S.get k t := by
  induction t generalizing p with
  | nil =>
      constructor
      · intro hr
        cases hr with
        | nil => rfl
        | leaf h' => cases h'.symm.trans h
        | node h' => cases h'.symm.trans h
      · rintro rfl
        exact .nil h
  | leaf q l =>
      obtain ⟨rfl, h⟩ := h
      constructor
      · intro hr
        cases hr with
        | nil h' => cases h'.symm.trans h
        | leaf h' => cases h'.symm.trans h; rfl
        | node h' => cases h'.symm.trans h
      · rintro rfl
        exact .leaf h
  | node q n c ih =>
      obtain ⟨rfl, ch, h, hc⟩ := h
      constructor
      · intro hr
        cases hr with
        | nil h' => cases h'.symm.trans h
        | leaf h' => cases h'.symm.trans h
        | node h' hr =>
            cases h'.symm.trans h
            exact (ih _ (hc _)).mp hr
      · rintro rfl
        exact .node h ((ih _ (hc _)).mpr rfl)

/-- What a store does to the cell of a pointer that the reader may follow. `W` says which ends are right by now. -/
inductive Fate [DecidableEq D] (S : Coding K D N L) (cell cell' : P → Cell P L N D) (k : K) (W : Option L → Prop)
    (p : P) : Prop
  | same (h : cell' p = cell p)
  /-- the leaf of another key -/
  | other {l l' : L} (h : cell p = .leaf l) (h' : cell' p = .leaf l') (hk : S.key l ≠ k) (hk' : S.key l' ≠ k)
  | slot {n : N} {ch : D → P} {i : D} {q : P} (h : cell p = .node n ch)
      (h' : cell' p = .node n (Function.update ch i q))
      (hq : ∀ r, S.Finds cell' k q r → S.Finds cell k (ch i) r ∨ W r)

theorem Finds.of_fate [DecidableEq D] {W : Option L → Prop} {X : P → Prop}
    (hX : ∀ {p n ch}, X p → cell p = .node n ch → ∀ i, X (ch i)) (hfate : ∀ p, X p → Fate S cell cell' k W p)
    {r : Option L} (hp : X p) (h : S.Finds cell' k p r) : S.Finds cell k p r ∨ W r := by
  induction h with
  | @nil p h =>
      cases hfate p hp with
      | same he => exact Or.inl (.nil (he ▸ h))
      | other _ h' => cases h'.symm.trans h
      | slot _ h' => cases h'.symm.trans h
  | @leaf p l h =>
      cases hfate p hp with
      | same he => exact Or.inl (.leaf (he ▸ h))
      | @other l₀ l' h₀ h' hk hk' =>
          cases h'.symm.trans h
          rw [if_neg hk']
          have := Finds.leaf (S := S) (k := k) h₀
          rw [if_neg hk] at this
          exact Or.inl this
      | slot _ h' => cases h'.symm.trans h
  | @node p n ch r h hr ih =>
      cases hfate p hp with
      | same he =>
          rw [he] at h
          rcases ih (hX hp h _) with h' | h'
          · exact Or.inl (.node h h')
          · exact Or.inr h'
      | other _ h' => cases h'.symm.trans h
      | @slot n' ch' i q h₀ h' hq =>
          cases h'.symm.trans h
          by_cases hi : S.dig k (S.pos n) = i
          · subst hi
            rw [Function.update_self] at hr
            rcases hq r hr with h' | h'
            · exact Or.inl (.node h₀ h')
            · exact Or.inr h'
          · rw [Function.update_of_ne hi] at ih
            rcases ih (hX hp h₀ _) with h' | h'
            · exact Or.inl (.node h₀ h')
            · exact Or.inr h'

/-! ## Lookups in a tree with another subtree -/

/-- The lookup of the key the walk follows comes to the new subtree. -/
theorem get_plug [DecidableEq D] {sel : N → (D → Tree P L N D) → Option D} (hsel : Chooses S k sel)
    (u : Tree P L N D) {t : Tree P L N D} {b : ℕ} (ht : S.Fits t b) : S.get k (Tree.plug sel u t) = S.get k u := by
  induction t generalizing b with
  | nil => rfl
  | leaf p l => rfl
  | node p n c ih =>
      cases hs : sel n c with
      | none => rw [Tree.plug_none hs]
      | some i =>
          obtain rfl := hsel n c i ht.1 hs
          rw [Tree.plug_some hs]
          show S.get k (Function.update c _ _ _) = _
          rw [Function.update_self]
          exact ih _ (ht.2.2.2.2 _)

/-- A lookup that gives the same in both subtrees gives the same in both trees. -/
theorem get_plug_of_eq [DecidableEq D] {sel : N → (D → Tree P L N D) → Option D} {t u : Tree P L N D}
    (h : S.get k u = S.get k (Tree.focus sel t)) : S.get k (Tree.plug sel u t) = S.get k t := by
  induction t with
  | nil => exact h
  | leaf p l => exact h
  | node p n c ih =>
      cases hs : sel n c with
      | none =>
          rw [Tree.focus_none hs] at h
          rw [Tree.plug_none hs, h]
      | some i =>
          rw [Tree.focus_some hs] at h
          rw [Tree.plug_some hs]
          show S.get k (Function.update c i _ _) = S.get k (c _)
          by_cases hi : S.dig k (S.pos n) = i
          · subst hi
            rw [Function.update_self]
            exact ih _ h
          · rw [Function.update_of_ne hi]

/-- Only the leaf of the key matters. -/
theorem get_congr {u u' : Tree P L N D} (hu : S.Routed u) (hu' : S.Routed u')
    (h : ∀ l, S.key l = k → (u'.Has l ↔ u.Has l)) : S.get k u' = S.get k u := by
  refine Option.ext fun l => ?_
  rw [get_eq_some hu', get_eq_some hu]
  exact and_congr_left (h l)

/-- Neither do the leaves of the key the walk follows: what is found of it is found in the new subtree. -/
theorem get_plug_or [DecidableEq D] {k₀ : K} {sel : N → (D → Tree P L N D) → Option D} (hsel : Chooses S k₀ sel)
    {t u : Tree P L N D} {b : ℕ} (ht : S.Fits t b) (hu : S.Routed u)
    (h : ∀ l, S.key l ≠ k₀ → (u.Has l ↔ (Tree.focus sel t).Has l)) (k : K) :
    S.get k u = S.get k (Tree.focus sel t) ∨ S.get k u = S.get k (Tree.plug sel u t) := by
  by_cases hk : k = k₀
  · subst hk
    exact Or.inr (get_plug hsel u ht).symm
  · obtain ⟨b', -, hfit⟩ := ht.focus sel
    refine Or.inl (get_congr hfit.routed hu fun l hl => h l ?_)
    rwa [hl]

/-- A store to the slot where a walk ends, as readers of a key see it. -/
theorem fate_set [DecidableEq P] [DecidableEq D] {W : Option L → Prop} (sel : N → (D → Tree P L N D) → Option D)
    {h : Heap P L N D} {t u : Tree P L N D} {q : P} (ht : Rep h.cell h.root t)
    (hu : Rep (h.set (Tree.slotOf sel .root t) q).cell (h.set (Tree.slotOf sel .root t) q).root (Tree.plug sel u t))
    (hview : S.get k u = S.get k (Tree.focus sel t) ∨ W (S.get k u)) (p : P) :
    Fate S h.cell (h.set (Tree.slotOf sel .root t) q).cell k W p := by
  obtain ⟨q', hq', hrep⟩ := Rep.focus sel (s := .root) ht rfl
  obtain ⟨q'', hq'', hrep'⟩ := Rep.of_plug sel (s := .root) hu rfl
  cases hq''.unique (Heap.holds_set_self hq' q)
  cases hs : Tree.slotOf sel .root t with
  | root => exact .same rfl
  | child a i =>
      rw [hs] at hq' hrep'
      by_cases ha : p = a
      · subst ha
        obtain ⟨n, ch, hn, rfl⟩ := hq'
        refine .slot hn (Heap.set_child_cell hn i q) fun r hr => ?_
        obtain rfl := (finds_iff hrep').mp hr
        exact hview.imp (finds_iff hrep).mpr id
      · exact .same (Heap.set_child_cell_ne h ha i q)

end Coding

end Ptok.Lib
