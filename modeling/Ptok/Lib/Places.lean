import Ptok.Lib.Tree

/-!
# Where things are

A family of places covers a multiset of pointers if what is found at the places is the multiset. If nothing is twice
in the multiset, everything in it is at exactly one place.
-/

namespace Ptok.Lib

variable {P L N D ι κ : Type}

/-- `f i` is what is at the place `i`. -/
structure Covers (f : ι → Option P) (s : Multiset P) : Prop where
  mem_iff : ∀ p, p ∈ s ↔ ∃ i, f i = some p
  inj : s.Nodup → ∀ {i j p}, f i = some p → f j = some p → i = j

namespace Covers

theorem zero {f : ι → Option P} (h : ∀ i, f i = none) : Covers f 0 where
  mem_iff p := by simp [h]
  inj _ := by simp [h]

/-- Two families side by side. -/
theorem sum {f : ι → Option P} {f' : κ → Option P} {s t : Multiset P} (h : Covers f s) (h' : Covers f' t) :
    Covers (Sum.elim f f') (s + t) where
  mem_iff p := by
    rw [Multiset.mem_add, h.mem_iff, h'.mem_iff]
    simp
  inj hs := by
    obtain ⟨hs, ht, hd⟩ := Multiset.nodup_add.mp hs
    have hne : ∀ {i j p}, f i = some p → f' j ≠ some p := fun hi hj =>
      Multiset.disjoint_left.mp hd ((h.mem_iff _).mpr ⟨_, hi⟩) ((h'.mem_iff _).mpr ⟨_, hj⟩)
    rintro (i | i) (j | j) p hi hj
    · exact congrArg Sum.inl (h.inj hs hi hj)
    · exact absurd hj (hne hi)
    · exact absurd hi (hne hj)
    · exact congrArg Sum.inr (h'.inj ht hi hj)

/-- Other names for the places. -/
theorem comap {f : ι → Option P} {s : Multiset P} (h : Covers f s) {e : κ → ι} (he : Function.Bijective e) :
    Covers (fun i => f (e i)) s where
  mem_iff p := by
    rw [h.mem_iff]
    constructor
    · rintro ⟨i, hi⟩
      obtain ⟨j, rfl⟩ := he.2 i
      exact ⟨j, hi⟩
    · rintro ⟨j, hj⟩
      exact ⟨e j, hj⟩
  inj hs _ _ _ hi hj := he.1 (h.inj hs hi hj)

/-- The positions of a list. -/
theorem list (l : List P) : Covers (fun i : ℕ => l[i]?) (l : Multiset P) where
  mem_iff p := by rw [Multiset.mem_coe, List.mem_iff_getElem?]
  inj hs i j p hi hj := by
    obtain ⟨hi', -⟩ := List.getElem?_eq_some_iff.mp hi
    exact (List.getElem?_inj hi' (Multiset.coe_nodup.mp hs)).mp (hi.trans hj.symm)

/-- Slots with something or nothing in each of them. -/
theorem slots [Fintype ι] {f : ι → Option P} {own : ι → Multiset P} (h : ∀ i p, p ∈ own i ↔ f i = some p) :
    Covers f (∑ i, own i) where
  mem_iff p := by simp [h]
  inj hs i j p hi hj := by
    by_contra hne
    exact Tree.disjoint_of_nodup_sum hs hne ((h i p).mpr hi) ((h j p).mpr hj)

/-- What is at the start of a path, and what is found along each first step. -/
theorem path [Fintype ι] {f : List ι → Option P} {p : P} {g : ι → List ι → Option P} {s : ι → Multiset P}
    (hnil : f [] = some p) (hcons : ∀ i is, f (i :: is) = g i is) (h : ∀ i, Covers (g i) (s i)) :
    Covers f (p ::ₘ ∑ i, s i) where
  mem_iff q := by
    rw [Multiset.mem_cons, Multiset.mem_sum]
    simp only [Finset.mem_univ, true_and, (h _).mem_iff]
    constructor
    · rintro (rfl | ⟨i, is, hi⟩)
      · exact ⟨[], hnil⟩
      · exact ⟨i :: is, (hcons i is).trans hi⟩
    · rintro ⟨_ | ⟨i, is⟩, hi⟩
      · exact Or.inl (Option.some.inj (hi.symm.trans hnil))
      · exact Or.inr ⟨i, is, (hcons i is).symm.trans hi⟩
  inj hs := by
    obtain ⟨hout, hs⟩ := Multiset.nodup_cons.mp hs
    -- what is found after a step is not the start
    have hbelow : ∀ {i is q}, f (i :: is) = some q → q ∈ s i := fun hi =>
      ((h _).mem_iff _).mpr ⟨_, (hcons _ _).symm.trans hi⟩
    have hne : ∀ {i is}, f (i :: is) ≠ some p := fun hi =>
      hout (Multiset.mem_sum.mpr ⟨_, Finset.mem_univ _, hbelow hi⟩)
    rintro (_ | ⟨i, is⟩) (_ | ⟨j, js⟩) q hi hj
    · rfl
    · cases Option.some.inj (hi.symm.trans hnil)
      exact absurd hj hne
    · cases Option.some.inj (hj.symm.trans hnil)
      exact absurd hi hne
    · have hij : i = j := by
        by_contra hne
        exact Tree.disjoint_of_nodup_sum hs hne (hbelow hi) (hbelow hj)
      subst hij
      rw [hcons] at hi hj
      rw [(h i).inj (Tree.nodup_child_of_sum hs i) hi hj]

/-- Nothing is after the start. -/
theorem start [Fintype ι] {f : List ι → Option P} {p : P} (hnil : f [] = some p) (hcons : ∀ i is, f (i :: is) = none) :
    Covers f {p} := by
  have h := path (s := fun _ : ι => 0) hnil hcons fun _ => .zero fun _ => rfl
  rwa [Finset.sum_const_zero, ← Multiset.singleton_add, add_zero] at h

end Covers

/-! ## Paths through a tree -/

/-- What a path of digits leads to. -/
def follow (h : P → Cell P L N D) : P → List D → Option P
  | p, [] =>
    match h p with
    | .nil => none
    | _ => some p
  | p, d :: ds =>
    match h p with
    | .node _ c => follow h (c d) ds
    | _ => none

/-- Every node and every leaf of a tree is found along paths. -/
theorem Rep.covers [Fintype D] {h : P → Cell P L N D} {p : P} {t : Tree P L N D} (ht : Rep h p t) :
    Covers (follow h p) (t.nodes + t.leaves) := by
  induction t generalizing p with
  | nil =>
      have hp : h p = .nil := ht
      refine .zero fun ds => ?_
      cases ds <;> simp [follow, hp]
  | leaf q l =>
      obtain ⟨rfl, hp⟩ := ht
      rw [Tree.nodes_leaf, Tree.leaves_leaf, zero_add]
      exact .start (by simp [follow, hp]) fun d ds => by simp [follow, hp]
  | node q n c ih =>
      obtain ⟨rfl, ch, hp, hc⟩ := ht
      have heq : (Tree.node p n c).nodes + (Tree.node p n c).leaves = p ::ₘ ∑ d, ((c d).nodes + (c d).leaves) := by
        rw [Tree.nodes_node, Tree.leaves_node, Multiset.cons_add, Finset.sum_add_distrib]
      rw [heq]
      refine .path (by simp [follow, hp]) (fun d ds => ?_) fun d => ih d (hc d)
      simp [follow, hp]

/-! ## Linked lists -/

/-- The list that starts at `p` and goes on with `next`. -/
def Chain (next : P → P) (null : P) : P → List P → Prop
  | p, [] => p = null
  | p, q :: qs => p = q ∧ p ≠ null ∧ Chain next null (next p) qs

/-- The `i`th entry, or `null` after the end. -/
def entry (next : P → P) (p : P) : ℕ → P
  | 0 => p
  | i + 1 => entry next (next p) i

theorem Chain.entry_eq {next : P → P} {null p : P} {l : List P} (h : Chain next null p l) (hnull : next null = null)
    (i : ℕ) : entry next p i = (l[i]?).getD null := by
  induction i generalizing p l with
  | zero =>
      cases l with
      | nil => exact h
      | cons q qs => exact h.1
  | succ i ih =>
      cases l with
      | nil =>
          have hp : p = null := h
          subst hp
          have hnil := @ih (next p) [] hnull
          exact hnil
      | cons q qs => exact ih h.2.2

theorem Chain.ne_null {next : P → P} {null p : P} {l : List P} (h : Chain next null p l) : null ∉ l := by
  induction l generalizing p with
  | nil => simp
  | cons q qs ih =>
      obtain ⟨rfl, hp, h⟩ := h
      rw [List.mem_cons, not_or]
      exact ⟨hp.symm, ih h⟩

end Ptok.Lib
