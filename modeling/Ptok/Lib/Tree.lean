import Mathlib

/-!
# Trees made of pointers

What a memory holds behind a pointer is a `Cell`. `Rep` says that the cells reached from a pointer form a given
tree. Every node and leaf of a `Tree` carries the pointer it is found at, so ownership is a statement about
multisets of pointers, and a store to a slot of a tree is an operation on trees (`Rep.plug`).
-/

namespace Ptok.Lib

variable {P L N D : Type}

/-- What a pointer leads to: nothing, a leaf, or a node with one child pointer for each digit. -/
inductive Cell (P L N D : Type)
  | nil
  | leaf (l : L)
  | node (n : N) (child : D → P)

inductive Tree (P L N D : Type)
  | nil
  | leaf (p : P) (l : L)
  | node (p : P) (n : N) (child : D → Tree P L N D)

/-- The cells reached from a pointer form this tree. -/
def Rep (h : P → Cell P L N D) : P → Tree P L N D → Prop
  | q, .nil => h q = .nil
  | q, .leaf p l => q = p ∧ h p = .leaf l
  | q, .node p n c => q = p ∧ ∃ ch, h p = .node n ch ∧ ∀ i, Rep h (ch i) (c i)

namespace Tree

/-- A leaf with this content is in the tree. -/
def Has (l : L) : Tree P L N D → Prop
  | .nil => False
  | .leaf _ l' => l' = l
  | .node _ _ c => ∃ i, (c i).Has l

@[simp] theorem has_nil (l : L) : ¬ (Tree.nil : Tree P L N D).Has l := id

@[simp] theorem has_leaf (p : P) (l l' : L) : (Tree.leaf p l' : Tree P L N D).Has l ↔ l' = l := Iff.rfl

@[simp] theorem has_node (p : P) (n : N) (c : D → Tree P L N D) (l : L) :
    (Tree.node p n c).Has l ↔ ∃ i, (c i).Has l := Iff.rfl

/-- Equal but for the pointers. -/
def SameShape : Tree P L N D → Tree P L N D → Prop
  | .nil, .nil => True
  | .leaf _ l, .leaf _ l' => l = l'
  | .node _ n c, .node _ n' c' => n = n' ∧ ∀ i, SameShape (c i) (c' i)
  | _, _ => False

section Owned

variable [Fintype D]

/-- The pointers of the inner nodes. -/
def nodes : Tree P L N D → Multiset P
  | .nil => 0
  | .leaf _ _ => 0
  | .node p _ c => p ::ₘ ∑ i, (c i).nodes

/-- The pointers of the leaves. -/
def leaves : Tree P L N D → Multiset P
  | .nil => 0
  | .leaf p _ => {p}
  | .node _ _ c => ∑ i, (c i).leaves

@[simp] theorem nodes_nil : (Tree.nil : Tree P L N D).nodes = 0 := rfl
@[simp] theorem nodes_leaf (p : P) (l : L) : (Tree.leaf p l : Tree P L N D).nodes = 0 := rfl
@[simp] theorem nodes_node (p : P) (n : N) (c : D → Tree P L N D) :
    (Tree.node p n c).nodes = p ::ₘ ∑ i, (c i).nodes := rfl
@[simp] theorem leaves_nil : (Tree.nil : Tree P L N D).leaves = 0 := rfl
@[simp] theorem leaves_leaf (p : P) (l : L) : (Tree.leaf p l : Tree P L N D).leaves = {p} := rfl
@[simp] theorem leaves_node (p : P) (n : N) (c : D → Tree P L N D) :
    (Tree.node p n c).leaves = ∑ i, (c i).leaves := rfl

theorem mem_nodes_child {p q : P} {n : N} {c : D → Tree P L N D} {i : D} (h : q ∈ (c i).nodes) :
    q ∈ (Tree.node p n c).nodes := by
  simp only [nodes_node, Multiset.mem_cons, Multiset.mem_sum, Finset.mem_univ, true_and]
  exact Or.inr ⟨i, h⟩

theorem mem_leaves_child {p q : P} {n : N} {c : D → Tree P L N D} {i : D} (h : q ∈ (c i).leaves) :
    q ∈ (Tree.node p n c).leaves := by
  simp only [leaves_node, Multiset.mem_sum, Finset.mem_univ, true_and]
  exact ⟨i, h⟩

theorem sum_split [DecidableEq D] (f : D → Multiset P) (i : D) :
    ∑ j, f j = f i + ∑ j ∈ Finset.univ.erase i, f j :=
  (Finset.add_sum_erase _ _ (Finset.mem_univ i)).symm

/-- Two children own nothing in common. -/
theorem disjoint_of_nodup_sum {f : D → Multiset P} (h : (∑ i, f i).Nodup) {i j : D} (hij : i ≠ j) {p : P}
    (hi : p ∈ f i) : p ∉ f j := by
  classical
  intro hj
  rw [sum_split f i, Multiset.nodup_add] at h
  refine Multiset.disjoint_left.mp h.2.2 hi ?_
  rw [Multiset.mem_sum]
  exact ⟨j, by simp [hij.symm], hj⟩

theorem nodup_child_of_sum {f : D → Multiset P} (h : (∑ i, f i).Nodup) (i : D) : (f i).Nodup := by
  classical
  rw [sum_split f i, Multiset.nodup_add] at h
  exact h.1

theorem nodes_nodup_child {p : P} {n : N} {c : D → Tree P L N D} (h : (Tree.node p n c).nodes.Nodup) (i : D) :
    (c i).nodes.Nodup := by
  rw [nodes_node, Multiset.nodup_cons] at h
  exact nodup_child_of_sum h.2 i

theorem not_mem_nodes_child {p : P} {n : N} {c : D → Tree P L N D} (h : (Tree.node p n c).nodes.Nodup) (i : D) :
    p ∉ (c i).nodes := by
  rw [nodes_node, Multiset.nodup_cons] at h
  intro hp
  exact h.1 (Multiset.mem_sum.mpr ⟨i, Finset.mem_univ i, hp⟩)

end Owned

section Height

variable [Fintype D]

/-- The number of nodes on the longest way down. -/
def height : Tree P L N D → ℕ
  | .nil => 0
  | .leaf _ _ => 0
  | .node _ _ c => (Finset.univ.sup fun i => (c i).height) + 1

theorem height_child_lt (p : P) (n : N) (c : D → Tree P L N D) (i : D) :
    (c i).height < (Tree.node p n c).height := by
  have := Finset.le_sup (f := fun i => (c i).height) (Finset.mem_univ i)
  simp only [height]
  omega

end Height

end Tree

/-! ## Reading a tree -/

theorem Rep.unique {h : P → Cell P L N D} {q : P} {t t' : Tree P L N D} (ht : Rep h q t) (ht' : Rep h q t') :
    t = t' := by
  induction t generalizing q t' with
  | nil =>
      cases t' with
      | nil => rfl
      | leaf p l => obtain ⟨rfl, h'⟩ := ht'; cases ht.symm.trans h'
      | node p n c => obtain ⟨rfl, ch, h', _⟩ := ht'; cases ht.symm.trans h'
  | leaf p l =>
      obtain ⟨rfl, ht⟩ := ht
      cases t' with
      | nil => cases ht.symm.trans ht'
      | leaf p' l' => obtain ⟨rfl, h'⟩ := ht'; cases ht.symm.trans h'; rfl
      | node p' n' c' => obtain ⟨rfl, ch, h', _⟩ := ht'; cases ht.symm.trans h'
  | node p n c ih =>
      obtain ⟨rfl, ch, ht, hc⟩ := ht
      cases t' with
      | nil => cases ht.symm.trans ht'
      | leaf p' l' => obtain ⟨rfl, h'⟩ := ht'; cases ht.symm.trans h'
      | node p' n' c' =>
          obtain ⟨rfl, ch', h', hc'⟩ := ht'
          cases ht.symm.trans h'
          congr
          funext i
          exact ih i (hc i) (hc' i)

/-- A memory that agrees on everything the tree owns represents the same tree. -/
theorem Rep.frame [Fintype D] {h h' : P → Cell P L N D} {q : P} {t : Tree P L N D} (ht : Rep h q t)
    (hnil : ∀ p, h p = .nil → h' p = .nil) (hn : ∀ p ∈ t.nodes, h' p = h p)
    (hl : ∀ p ∈ t.leaves, h' p = h p) : Rep h' q t := by
  induction t generalizing q with
  | nil => exact hnil q ht
  | leaf p l => exact ⟨ht.1, (hl p (by simp)).trans ht.2⟩
  | node p n c ih =>
      obtain ⟨rfl, ch, hp, hc⟩ := ht
      refine ⟨rfl, ch, (hn q (by simp)).trans hp, fun i => ih i (hc i) ?_ ?_⟩
      · exact fun p hp => hn p (Tree.mem_nodes_child hp)
      · exact fun p hp => hl p (Tree.mem_leaves_child hp)

/-- The pointers of a tree's nodes lead to nodes. -/
theorem Rep.node_of_mem [Fintype D] {h : P → Cell P L N D} {q p : P} {t : Tree P L N D} (ht : Rep h q t)
    (hp : p ∈ t.nodes) : ∃ n ch, h p = .node n ch := by
  induction t generalizing q with
  | nil => simp at hp
  | leaf p' l => simp at hp
  | node p' n c ih =>
      obtain ⟨rfl, ch, hq, hc⟩ := ht
      simp only [Tree.nodes_node, Multiset.mem_cons, Multiset.mem_sum, Finset.mem_univ, true_and] at hp
      rcases hp with rfl | ⟨i, hi⟩
      · exact ⟨n, ch, hq⟩
      · exact ih i (hc i) hi

/-- What the pointer of one of the tree's leaves leads to is in the tree. -/
theorem Rep.has_of_mem [Fintype D] {h : P → Cell P L N D} {q p : P} {t : Tree P L N D} (ht : Rep h q t)
    (hp : p ∈ t.leaves) : ∃ l, h p = .leaf l ∧ t.Has l := by
  induction t generalizing q with
  | nil => simp at hp
  | leaf p' l =>
      rw [Tree.leaves_leaf, Multiset.mem_singleton] at hp
      exact ⟨l, hp ▸ ht.2, rfl⟩
  | node p' n c ih =>
      obtain ⟨-, ch, -, hc⟩ := ht
      simp only [Tree.leaves_node, Multiset.mem_sum, Finset.mem_univ, true_and] at hp
      obtain ⟨i, hi⟩ := hp
      obtain ⟨l, hl, hhas⟩ := ih i (hc i) hi
      exact ⟨l, hl, i, hhas⟩

theorem Rep.leaf_of_mem [Fintype D] {h : P → Cell P L N D} {q p : P} {t : Tree P L N D} (ht : Rep h q t)
    (hp : p ∈ t.leaves) : ∃ l, h p = .leaf l := by
  obtain ⟨l, hl, -⟩ := ht.has_of_mem hp
  exact ⟨l, hl⟩

/-! ## What can be reached -/

/-- A pointer that is found by following children. -/
inductive Reaches (h : P → Cell P L N D) : P → P → Prop
  | refl (p : P) : Reaches h p p
  | child {p q : P} {n : N} {ch : D → P} {i : D} (hp : h p = .node n ch) (hr : Reaches h (ch i) q) :
      Reaches h p q

/-- A subtree. -/
inductive Tree.Sub : Tree P L N D → Tree P L N D → Prop
  | refl (t : Tree P L N D) : Sub t t
  | child {u : Tree P L N D} {p : P} {n : N} {c : D → Tree P L N D} {i : D} (h : Sub u (c i)) :
      Sub u (.node p n c)

theorem Tree.Sub.trans {u t s : Tree P L N D} (h : Tree.Sub u t) (h' : Tree.Sub t s) : Tree.Sub u s := by
  induction h' with
  | refl => exact h
  | child _ ih => exact .child ih

theorem Tree.Sub.has {u t : Tree P L N D} (h : Tree.Sub u t) {l : L} (hl : u.Has l) : t.Has l := by
  induction h with
  | refl => exact hl
  | child _ ih => exact ⟨_, ih⟩

theorem Tree.Sub.mem_nodes [Fintype D] {u t : Tree P L N D} (h : Tree.Sub u t) {p : P} (hp : p ∈ u.nodes) :
    p ∈ t.nodes := by
  induction h with
  | refl => exact hp
  | child _ ih => exact Tree.mem_nodes_child ih

theorem Tree.Sub.mem_leaves [Fintype D] {u t : Tree P L N D} (h : Tree.Sub u t) {p : P} (hp : p ∈ u.leaves) :
    p ∈ t.leaves := by
  induction h with
  | refl => exact hp
  | child _ ih => exact Tree.mem_leaves_child ih

/-- A pointer belongs to the tree it leads to. -/
theorem Rep.mem [Fintype D] {h : P → Cell P L N D} {q : P} {t : Tree P L N D} (ht : Rep h q t) (hne : t ≠ .nil) :
    q ∈ t.nodes + t.leaves := by
  cases t with
  | nil => exact absurd rfl hne
  | leaf p l => simp [ht.1]
  | node p n c => simp [ht.1]

/-- A node of the tree is the root of a subtree. -/
theorem Rep.exists_sub [Fintype D] {h : P → Cell P L N D} {q p : P} {t : Tree P L N D} (ht : Rep h q t)
    (hp : p ∈ t.nodes) : ∃ u, Tree.Sub u t ∧ Rep h p u := by
  induction t generalizing q with
  | nil => simp at hp
  | leaf p' l => simp at hp
  | node p' n c ih =>
      have hc := ht
      obtain ⟨rfl, ch, -, hc⟩ := hc
      simp only [Tree.nodes_node, Multiset.mem_cons, Multiset.mem_sum, Finset.mem_univ, true_and] at hp
      rcases hp with rfl | ⟨i, hi⟩
      · exact ⟨_, .refl _, ht⟩
      · obtain ⟨u, hu, hr⟩ := ih i (hc i) hi
        exact ⟨u, .child hu, hr⟩

/-- What is reached from a tree's pointer is a subtree. -/
theorem Rep.reaches {h : P → Cell P L N D} {p q : P} {t : Tree P L N D} (ht : Rep h p t)
    (hr : Reaches h p q) : ∃ u, Tree.Sub u t ∧ Rep h q u := by
  induction hr generalizing t with
  | refl p => exact ⟨t, .refl t, ht⟩
  | @child p q n ch i hp _ ih =>
      cases t with
      | nil => cases hp.symm.trans ht
      | leaf p' l => obtain ⟨rfl, h'⟩ := ht; cases hp.symm.trans h'
      | node p' n' c =>
          obtain ⟨rfl, ch', h', hc⟩ := ht
          cases hp.symm.trans h'
          obtain ⟨u, hu, hrep⟩ := ih (hc i)
          exact ⟨u, .child hu, hrep⟩

/-- A leaf of the tree can be reached. -/
theorem Rep.reaches_leaf {h : P → Cell P L N D} {p : P} {t : Tree P L N D} (ht : Rep h p t) {l : L} (hl : t.Has l) :
    ∃ q, Reaches h p q ∧ h q = .leaf l := by
  induction t generalizing p with
  | nil => exact hl.elim
  | leaf q l' =>
      obtain ⟨rfl, hq⟩ := ht
      obtain rfl : l' = l := hl
      exact ⟨p, .refl p, hq⟩
  | node q n c ih =>
      obtain ⟨rfl, ch, hp, hc⟩ := ht
      obtain ⟨i, hl⟩ := hl
      obtain ⟨q, hq, hcell⟩ := ih i (hc i) hl
      exact ⟨q, .child hp hq, hcell⟩

/-- So can whatever the tree owns. -/
theorem Rep.reaches_of_mem [Fintype D] {h : P → Cell P L N D} {p q : P} {t : Tree P L N D} (ht : Rep h p t)
    (hq : q ∈ t.nodes + t.leaves) : Reaches h p q := by
  induction t generalizing p with
  | nil => simp at hq
  | leaf p' l =>
      obtain ⟨rfl, -⟩ := ht
      obtain rfl : q = p := by simpa using hq
      exact .refl q
  | node p' n c ih =>
      obtain ⟨rfl, ch, hp, hc⟩ := ht
      have hor : q = p ∨ ∃ i, q ∈ (c i).nodes + (c i).leaves := by
        simp only [Tree.nodes_node, Tree.leaves_node, Multiset.mem_add, Multiset.mem_cons, Multiset.mem_sum,
          Finset.mem_univ, true_and] at hq ⊢
        aesop
      rcases hor with rfl | ⟨i, hi⟩
      · exact .refl q
      · exact .child hp (ih i (hc i) hi)

/-! ## Slots and stores -/

/-- A memory with a tree in it: where the tree starts and what the pointers lead to. -/
structure Heap (P L N D : Type) where
  root : P
  cell : P → Cell P L N D

/-- A word that holds the pointer to a subtree. -/
inductive Slot (P D : Type)
  | root
  | child (p : P) (i : D)
  deriving DecidableEq

namespace Heap

def Holds (h : Heap P L N D) : Slot P D → P → Prop
  | .root, q => h.root = q
  | .child p i, q => ∃ n ch, h.cell p = .node n ch ∧ ch i = q

theorem Holds.unique {h : Heap P L N D} {s : Slot P D} {q q' : P} (hq : h.Holds s q) (hq' : h.Holds s q') : q = q' := by
  cases s with
  | root => exact hq.symm.trans hq'
  | child p i =>
      obtain ⟨n, ch, hn, rfl⟩ := hq
      obtain ⟨n', ch', hn', rfl⟩ := hq'
      cases hn.symm.trans hn'
      rfl

variable [DecidableEq P] [DecidableEq D]

/-- The memory after a store to a slot. A child slot of something that is no node does not exist. -/
def set (h : Heap P L N D) : Slot P D → P → Heap P L N D
  | .root, q => { h with root := q }
  | .child p i, q =>
    { h with
      cell := Function.update h.cell p
        (match h.cell p with
          | .node n ch => .node n (Function.update ch i q)
          | c => c) }

theorem set_child_cell {h : Heap P L N D} {p : P} {n : N} {ch : D → P} (hp : h.cell p = .node n ch) (i : D)
    (q : P) : (h.set (.child p i) q).cell p = .node n (Function.update ch i q) := by
  simp only [set, Function.update_self, hp]

theorem set_child_cell_ne (h : Heap P L N D) {p p' : P} (hne : p' ≠ p) (i : D) (q : P) :
    (h.set (.child p i) q).cell p' = h.cell p' := by
  simp only [set, Function.update_of_ne hne]

theorem set_cell_of_not_node (h : Heap P L N D) (s : Slot P D) (q : P) {p : P}
    (hp : ∀ n ch, h.cell p ≠ .node n ch) : (h.set s q).cell p = h.cell p := by
  cases s with
  | root => rfl
  | child p' i =>
      by_cases he : p = p'
      · subst he
        simp only [set, Function.update_self]
      · exact set_child_cell_ne h he i q

theorem holds_set_self {h : Heap P L N D} {s : Slot P D} {q : P} (hs : h.Holds s q) (q' : P) :
    (h.set s q').Holds s q' := by
  cases s with
  | root => rfl
  | child p i =>
      obtain ⟨n, ch, hp, -⟩ := hs
      exact ⟨n, _, set_child_cell hp i q', by simp⟩

end Heap

/-! ## A subtree and its slot -/

namespace Tree

variable (sel : N → (D → Tree P L N D) → Option D)

/-- The subtree where a walk ends that goes on, from a node, to the child `sel` chooses. -/
def focus : Tree P L N D → Tree P L N D
  | .nil => .nil
  | .leaf p l => .leaf p l
  | .node p n c =>
    match sel n c with
    | some i => focus (c i)
    | none => .node p n c

/-- The slot the walk ends at when it starts at slot `s`. -/
def slotOf : Slot P D → Tree P L N D → Slot P D
  | s, .nil => s
  | s, .leaf _ _ => s
  | s, .node p n c =>
    match sel n c with
    | some i => slotOf (.child p i) (c i)
    | none => s

/-- The tree with another subtree where the walk ends. -/
def plug [DecidableEq D] (u : Tree P L N D) : Tree P L N D → Tree P L N D
  | .nil => u
  | .leaf _ _ => u
  | .node p n c =>
    match sel n c with
    | some i => .node p n (Function.update c i (plug u (c i)))
    | none => u

variable {sel}

theorem focus_some {p : P} {n : N} {c : D → Tree P L N D} {i : D} (h : sel n c = some i) :
    focus sel (.node p n c) = focus sel (c i) := by
  simp only [focus, h]

theorem focus_none {p : P} {n : N} {c : D → Tree P L N D} (h : sel n c = none) :
    focus sel (.node p n c) = .node p n c := by
  simp only [focus, h]

theorem slotOf_some {s : Slot P D} {p : P} {n : N} {c : D → Tree P L N D} {i : D} (h : sel n c = some i) :
    slotOf sel s (.node p n c) = slotOf sel (.child p i) (c i) := by
  simp only [slotOf, h]

theorem slotOf_none {s : Slot P D} {p : P} {n : N} {c : D → Tree P L N D} (h : sel n c = none) :
    slotOf sel s (.node p n c) = s := by
  simp only [slotOf, h]

theorem plug_some [DecidableEq D] {u : Tree P L N D} {p : P} {n : N} {c : D → Tree P L N D} {i : D}
    (h : sel n c = some i) :
    plug sel u (.node p n c) = .node p n (Function.update c i (plug sel u (c i))) := by
  simp only [plug, h]

theorem plug_none [DecidableEq D] {u : Tree P L N D} {p : P} {n : N} {c : D → Tree P L N D}
    (h : sel n c = none) : plug sel u (.node p n c) = u := by
  simp only [plug, h]

variable (sel) in
theorem plug_focus [DecidableEq D] (t : Tree P L N D) : plug sel (focus sel t) t = t := by
  induction t with
  | nil => rfl
  | leaf p l => rfl
  | node p n c ih =>
      cases hs : sel n c with
      | none => rw [focus_none hs, plug_none hs]
      | some i => rw [focus_some hs, plug_some hs, ih i, Function.update_eq_self]

/-- A walk that ends in a node ends there by choice. -/
theorem focus_eq_node {t : Tree P L N D} {p : P} {n : N} {c : D → Tree P L N D}
    (h : focus sel t = .node p n c) : sel n c = none := by
  induction t with
  | nil => cases h
  | leaf p' l => cases h
  | node p' n' c' ih =>
      cases hs : sel n' c' with
      | none =>
          rw [focus_none hs] at h
          cases h
          exact hs
      | some i =>
          rw [focus_some hs] at h
          exact ih i h

theorem mem_nodes_focus [Fintype D] {t : Tree P L N D} {p : P} (h : p ∈ (focus sel t).nodes) : p ∈ t.nodes := by
  induction t with
  | nil => exact h
  | leaf p' l => exact h
  | node p' n c ih =>
      cases hs : sel n c with
      | none => rwa [focus_none hs] at h
      | some i =>
          rw [focus_some hs] at h
          exact mem_nodes_child (ih i h)

/-- The slot is above the subtree it holds. -/
theorem slotOf_not_mem_focus [Fintype D] {s : Slot P D} {t : Tree P L N D} (hnd : t.nodes.Nodup)
    (hout : ∀ p i, s = .child p i → p ∉ t.nodes) {p : P} {i : D} (h : slotOf sel s t = .child p i) :
    p ∉ (focus sel t).nodes := by
  induction t generalizing s with
  | nil => simp [focus]
  | leaf p l => simp [focus]
  | node p' n c ih =>
      cases hsel : sel n c with
      | none =>
          rw [slotOf_none hsel] at h
          rw [focus_none hsel]
          exact hout p i h
      | some j =>
          rw [slotOf_some hsel] at h
          rw [focus_some hsel]
          refine ih j (nodes_nodup_child hnd j) ?_ h
          rintro q k ⟨⟩
          exact not_mem_nodes_child hnd j

variable (sel) in
theorem slotOf_cases [Fintype D] (s : Slot P D) (t : Tree P L N D) :
    slotOf sel s t = s ∨ ∃ p ∈ t.nodes, ∃ i, slotOf sel s t = .child p i := by
  induction t generalizing s with
  | nil => exact Or.inl rfl
  | leaf p l => exact Or.inl rfl
  | node p n c ih =>
      cases hsel : sel n c with
      | none => exact Or.inl (slotOf_none hsel)
      | some i =>
          rw [slotOf_some hsel]
          right
          rcases ih i (.child p i) with h | ⟨p', hp', j, h⟩
          · exact ⟨p, by simp, i, h⟩
          · exact ⟨p', mem_nodes_child hp', j, h⟩

end Tree

/-! ## What a store hands over -/

namespace Tree

variable [Fintype D] [DecidableEq D] {sel : N → (D → Tree P L N D) → Option D} (u : Tree P L N D)

theorem sum_update (f : Tree P L N D → Multiset P) (c : D → Tree P L N D) (i : D) (x : Tree P L N D) :
    ∑ j, f (Function.update c i x j) = f x + ∑ j ∈ Finset.univ.erase i, f (c j) := by
  rw [sum_split _ i, Function.update_self]
  refine congrArg _ (Finset.sum_congr rfl fun j hj => ?_)
  rw [Function.update_of_ne (Finset.ne_of_mem_erase hj)]

variable (sel) in
/-- The new subtree's nodes come in for those of the old one. -/
theorem nodes_plug (t : Tree P L N D) :
    (plug sel u t).nodes + (focus sel t).nodes = t.nodes + u.nodes := by
  induction t with
  | nil => simp [plug, focus]
  | leaf p l => simp [plug, focus]
  | node p n c ih =>
      cases hsel : sel n c with
      | none =>
          rw [plug_none hsel, focus_none hsel]
          exact add_comm _ _
      | some i =>
          rw [plug_some hsel, focus_some hsel, nodes_node, nodes_node, sum_update nodes,
            sum_split (fun j => (c j).nodes) i, Multiset.cons_add, Multiset.cons_add]
          congr 1
          rw [add_right_comm, ih i, add_right_comm]

variable (sel) in
theorem leaves_plug (t : Tree P L N D) :
    (plug sel u t).leaves + (focus sel t).leaves = t.leaves + u.leaves := by
  induction t with
  | nil => simp [plug, focus]
  | leaf p l => simp [plug, focus, add_comm]
  | node p n c ih =>
      cases hsel : sel n c with
      | none =>
          rw [plug_none hsel, focus_none hsel]
          exact add_comm _ _
      | some i =>
          rw [plug_some hsel, focus_some hsel, leaves_node, leaves_node, sum_update leaves,
            sum_split (fun j => (c j).leaves) i, add_right_comm, ih i, add_right_comm]

variable (sel) in
omit [Fintype D] [DecidableEq D] in
theorem sub_focus (t : Tree P L N D) : Sub (focus sel t) t := by
  induction t with
  | nil => exact .refl _
  | leaf q l => exact .refl _
  | node q n c ih =>
      cases hsel : sel n c with
      | none =>
          rw [focus_none hsel]
          exact .refl _
      | some i =>
          rw [focus_some hsel]
          exact .child (ih i)

variable (sel) in
omit [Fintype D] in
/-- The new subtree is in the new tree. -/
theorem sub_plug (t : Tree P L N D) : Sub u (plug sel u t) := by
  induction t with
  | nil => exact .refl u
  | leaf q l => exact .refl u
  | node q n c ih =>
      cases hsel : sel n c with
      | none =>
          rw [plug_none hsel]
          exact .refl u
      | some i =>
          rw [plug_some hsel]
          refine .child (i := i) ?_
          rw [Function.update_self]
          exact ih i

/-- So is the node that holds the slot. -/
theorem slotOf_mem_plug {s : Slot P D} {t : Tree P L N D} {p : P} {i : D} (h : slotOf sel s t = .child p i)
    (hs : s ≠ .child p i) : p ∈ (plug sel u t).nodes := by
  induction t generalizing s with
  | nil => exact absurd h hs
  | leaf q l => exact absurd h hs
  | node q n c ih =>
      cases hsel : sel n c with
      | none =>
          rw [slotOf_none hsel] at h
          exact absurd h hs
      | some j =>
          rw [slotOf_some hsel] at h
          rw [plug_some hsel]
          by_cases hq : Slot.child q j = .child p i
          · cases hq
            simp
          · refine mem_nodes_child (i := j) ?_
            rw [Function.update_self]
            exact ih j h hq

end Tree

/-! ## A node with two children -/

namespace Tree

variable [DecidableEq D]

/-- A node with two subtrees, and nothing in its other slots. -/
def fork (p : P) (n : N) (i : D) (t : Tree P L N D) (j : D) (u : Tree P L N D) : Tree P L N D :=
  .node p n (Function.update (Function.update (fun _ => .nil) i t) j u)

variable {p : P} {n : N} {i j : D} {t u : Tree P L N D}

theorem fork_has (hij : j ≠ i) (l : L) : (fork p n i t j u).Has l ↔ t.Has l ∨ u.Has l := by
  simp only [fork, has_node]
  constructor
  · rintro ⟨d, hd⟩
    by_cases h : d = j
    · subst h
      rw [Function.update_self] at hd
      exact Or.inr hd
    · rw [Function.update_of_ne h] at hd
      by_cases h' : d = i
      · subst h'
        rw [Function.update_self] at hd
        exact Or.inl hd
      · rw [Function.update_of_ne h'] at hd
        exact hd.elim
  · rintro (h | h)
    · exact ⟨i, by rwa [Function.update_of_ne hij.symm, Function.update_self]⟩
    · exact ⟨j, by rwa [Function.update_self]⟩

variable [Fintype D]

/-- What there is below a node with a single child. -/
theorem sum_only {f : Tree P L N D → Multiset P} (hf : f .nil = 0) {c : D → Tree P L N D} {o : D}
    (honly : ∀ i ≠ o, c i = .nil) : ∑ i, f (c i) = f (c o) := by
  rw [sum_split _ o, Finset.sum_eq_zero, add_zero]
  intro i hi
  rw [honly i (Finset.ne_of_mem_erase hi), hf]

theorem sum_fork {f : Tree P L N D → Multiset P} (hf : f .nil = 0) (hij : j ≠ i) :
    ∑ d, f (Function.update (Function.update (fun _ => (.nil : Tree P L N D)) i t) j u d) = f t + f u := by
  have hnil : ∑ d, f (Function.update (fun _ => (.nil : Tree P L N D)) i t d) = f t := by
    rw [sum_only hf fun d hd => Function.update_of_ne hd _ _, Function.update_self]
  have h := sum_update f (Function.update (fun _ => (.nil : Tree P L N D)) i t) j u
  have h' := sum_split (fun d => f (Function.update (fun _ => (.nil : Tree P L N D)) i t d)) j
  rw [Function.update_of_ne hij, hf, zero_add, hnil] at h'
  rw [h, ← h', add_comm]

theorem fork_nodes (hij : j ≠ i) : (fork p n i t j u).nodes = p ::ₘ (t.nodes + u.nodes) := by
  rw [fork, nodes_node, sum_fork nodes_nil hij]

theorem fork_leaves (hij : j ≠ i) : (fork p n i t j u).leaves = t.leaves + u.leaves := by
  rw [fork, leaves_node, sum_fork leaves_nil hij]

end Tree

/-- What the slot holds where a walk ends. -/
theorem Rep.focus (sel : N → (D → Tree P L N D) → Option D) {h : Heap P L N D} {s : Slot P D} {q : P}
    {t : Tree P L N D} (ht : Rep h.cell q t) (hs : h.Holds s q) :
    ∃ q', h.Holds (Tree.slotOf sel s t) q' ∧ Rep h.cell q' (Tree.focus sel t) := by
  induction t generalizing s q with
  | nil => exact ⟨q, hs, ht⟩
  | leaf p l => exact ⟨q, hs, ht⟩
  | node p n c ih =>
      cases hsel : sel n c with
      | none =>
          rw [Tree.slotOf_none hsel, Tree.focus_none hsel]
          exact ⟨q, hs, ht⟩
      | some i =>
          rw [Tree.slotOf_some hsel, Tree.focus_some hsel]
          obtain ⟨rfl, ch, hq, hc⟩ := ht
          have hslot : h.Holds (.child q i) (ch i) := ⟨n, ch, hq, rfl⟩
          exact ih i (hc i) hslot

/-- The same for a subtree that was put there. -/
theorem Rep.of_plug [DecidableEq D] (sel : N → (D → Tree P L N D) → Option D) {h : Heap P L N D} {s : Slot P D} {q : P}
    {t u : Tree P L N D} (ht : Rep h.cell q (Tree.plug sel u t)) (hs : h.Holds s q) :
    ∃ q', h.Holds (Tree.slotOf sel s t) q' ∧ Rep h.cell q' u := by
  induction t generalizing s q with
  | nil => exact ⟨q, hs, ht⟩
  | leaf p l => exact ⟨q, hs, ht⟩
  | node p n c ih =>
      cases hsel : sel n c with
      | none =>
          rw [Tree.plug_none hsel] at ht
          rw [Tree.slotOf_none hsel]
          exact ⟨q, hs, ht⟩
      | some i =>
          rw [Tree.plug_some hsel] at ht
          rw [Tree.slotOf_some hsel]
          obtain ⟨rfl, ch, hq, hc⟩ := ht
          have hslot : h.Holds (.child q i) (ch i) := ⟨n, ch, hq, rfl⟩
          have hci := hc i
          rw [Function.update_self] at hci
          exact ih i hci hslot

/-- A store to a slot leaves every tree alone that does not have the slot. -/
theorem Rep.set [Fintype D] [DecidableEq P] [DecidableEq D] {h : Heap P L N D} {s : Slot P D} {p q : P}
    {t : Tree P L N D} (ht : Rep h.cell p t) (hs : ∀ p' i, s = .child p' i → p' ∉ t.nodes) :
    Rep (h.set s q).cell p t := by
  refine ht.frame ?_ ?_ ?_
  · intro p' hp'
    rw [Heap.set_cell_of_not_node _ _ _ (by simp [hp']), hp']
  · intro p' hp'
    cases s with
    | root => rfl
    | child p₀ i =>
        refine Heap.set_child_cell_ne _ ?_ _ _
        rintro rfl
        exact hs _ _ rfl hp'
  · intro p' hp'
    obtain ⟨l, hl⟩ := ht.leaf_of_mem hp'
    exact Heap.set_cell_of_not_node _ _ _ (by simp [hl])

/-- A store to the slot where a walk ends replaces the subtree there, and nothing else. -/
theorem Rep.plug [Fintype D] [DecidableEq P] [DecidableEq D] {sel : N → (D → Tree P L N D) → Option D}
    {h : Heap P L N D} {s : Slot P D} {q q' : P} {t u : Tree P L N D} (ht : Rep h.cell q t) (hs : h.Holds s q)
    (hnd : t.nodes.Nodup) (hout : ∀ p i, s = .child p i → p ∉ t.nodes)
    (hu : Rep (h.set (Tree.slotOf sel s t) q').cell q' u) :
    ∃ q'', (h.set (Tree.slotOf sel s t) q').Holds s q'' ∧
      Rep (h.set (Tree.slotOf sel s t) q').cell q'' (Tree.plug sel u t) := by
  induction t generalizing s q with
  | nil => exact ⟨q', Heap.holds_set_self hs q', hu⟩
  | leaf p l => exact ⟨q', Heap.holds_set_self hs q', hu⟩
  | node p n c ih =>
      cases hsel : sel n c with
      | none =>
          rw [Tree.slotOf_none hsel] at hu ⊢
          rw [Tree.plug_none hsel]
          exact ⟨q', Heap.holds_set_self hs q', hu⟩
      | some i =>
          rw [Tree.slotOf_some hsel] at hu ⊢
          rw [Tree.plug_some hsel]
          obtain ⟨rfl, ch, hq, hc⟩ := ht
          have hne : ∀ p j, Slot.child q i = .child p j → p ∉ (c i).nodes := by
            rintro p j ⟨⟩
            exact Tree.not_mem_nodes_child hnd i
          have hslot : h.Holds (.child q i) (ch i) := ⟨n, ch, hq, rfl⟩
          obtain ⟨q'', hh, hrep⟩ := ih i (hc i) hslot (Tree.nodes_nodup_child hnd i) hne hu
          have hch : (h.set (Tree.slotOf sel (.child q i) (c i)) q').cell q =
              .node n (Function.update ch i q'') := by
            rcases Tree.slotOf_cases sel (.child q i) (c i) with he | ⟨p', hp', j, he⟩
            · rw [he] at hh ⊢
              obtain ⟨n', ch', h', rfl⟩ := hh
              rw [Heap.set_child_cell hq] at h' ⊢
              cases h'
              simp
            · rw [he] at hh ⊢
              have hqp : q ≠ p' := by
                rintro rfl
                exact Tree.not_mem_nodes_child hnd i hp'
              obtain ⟨n', ch', h', rfl⟩ := hh
              rw [Heap.set_child_cell_ne _ hqp] at h' ⊢
              rw [hq] at h'
              cases h'
              rw [hq, Function.update_eq_self]
          have hroot : (h.set (Tree.slotOf sel (.child q i) (c i)) q').Holds s q := by
            rcases Tree.slotOf_cases sel (.child q i) (c i) with he | ⟨p', hp', j, he⟩ <;> rw [he]
            · cases s with
              | root => exact hs
              | child p₀ i₀ =>
                  obtain ⟨n', ch', h', he'⟩ := hs
                  have : p₀ ≠ q := by rintro rfl; exact hout _ _ rfl (by simp)
                  exact ⟨n', ch', (Heap.set_child_cell_ne _ this _ _).trans h', he'⟩
            · cases s with
              | root => exact hs
              | child p₀ i₀ =>
                  obtain ⟨n', ch', h', he'⟩ := hs
                  have : p₀ ≠ p' := by
                    rintro rfl
                    exact hout _ _ rfl (Tree.mem_nodes_child hp')
                  exact ⟨n', ch', (Heap.set_child_cell_ne _ this _ _).trans h', he'⟩
          refine ⟨q, hroot, rfl, _, hch, fun j => ?_⟩
          by_cases hj : j = i
          · subst hj
            simpa using hrep
          · simp only [Function.update_of_ne hj]
            have hsum : (∑ k, (c k).nodes).Nodup := by
              rw [Tree.nodes_node, Multiset.nodup_cons] at hnd
              exact hnd.2
            refine (hc j).set ?_
            intro p k he hp
            rcases Tree.slotOf_cases sel (.child q i) (c i) with he' | ⟨p', hp', k', he'⟩
            · rw [he] at he'
              cases he'
              exact Tree.not_mem_nodes_child hnd j hp
            · rw [he] at he'
              cases he'
              exact Tree.disjoint_of_nodup_sum hsum (Ne.symm hj) hp' hp

end Ptok.Lib
