import Ptok.Lib.Ghost
import Ptok.Critbit.Lemmas.Bits

/-!
# The representation invariant of critbit

Every block has a leaf half and an inner half, and they go separate ways: the leaf half from the tree to the list of
removed leaves, the inner half into the tree, if at all, and out of it for good. So leaf halves are counted, of inner
halves only as much is said as that none is in the tree twice. Readers may follow whatever was in the tree at some time.
-/

namespace Ptok.Critbit

open Lib

def Mem.hdr (m : Mem) (a : Addr) : Hdr := ⟨(m.node a).path, (m.node a).bit⟩

def Mem.leafAt (m : Mem) (a : Addr) : Leaf := ⟨(m.node a).path, (m.node a).child 0⟩

/-- The list of removed leaves that starts at an address. -/
def LeafList (m : Mem) : Addr → List Addr → Prop
  | p, [] => p = 0
  | p, a :: as => p = a ∧ p ≠ 0 ∧ LeafList m ((m.node a).child 0) as

structure Ghost where
  tree : T
  /-- the list of removed leaves -/
  dead : List Addr
  /-- leaf halves that are out of the tree and not yet in the list -/
  cut : Multiset Addr
  /-- leaf halves that were not linked so far -/
  made : Multiset Addr
  /-- inner halves that were not linked so far -/
  fresh : Multiset Addr

/-- The halves of `n` blocks. -/
def leafHalves (n : ℕ) : Multiset Addr := (Multiset.range n).map blockAddr

def IsInner (n : ℕ) (a : Addr) : Prop := ∃ i < n, a = blockAddr i + 1

/-- Was in the tree at some time. -/
structure Ghost.Linked (g : Ghost) (n : ℕ) (a : Addr) : Prop where
  alloc : a ∈ leafHalves n ∨ IsInner n a
  made : a ∉ g.made
  fresh : a ∉ g.fresh

/-- Where the halves of `n` blocks are. -/
structure Owned (n : ℕ) (g : Ghost) : Prop where
  leaves : g.tree.leaves + g.dead + g.cut + g.made = leafHalves n
  nodes : (g.tree.nodes + g.fresh).Nodup
  inner : ∀ a ∈ g.tree.nodes + g.fresh, IsInner n a

structure Inv (m : Mem) (g : Ghost) : Prop extends Owned m.malloced g where
  rep : Rep m.cell m.root g.tree
  wf : bits.WF g.tree 0
  list : LeafList m m.deletedNode g.dead
  leafBit : ∀ k ∈ leafHalves m.malloced, (m.node k).bit = 0
  /-- from an inner node that was ever linked it goes on to such nodes, and upwards in the key -/
  closed : ∀ a, g.Linked m.malloced a → (m.node a).bit ≠ 0 → bits.ok (m.hdr a) ∧
    ∀ i, g.Linked m.malloced ((m.node a).child i) ∧ ((m.node ((m.node a).child i)).bit ≠ 0 →
      bits.pos (m.hdr a) < bits.pos (m.hdr ((m.node a).child i)))

/-! ## Halves -/

theorem mem_leafHalves {n : ℕ} {a : Addr} : a ∈ leafHalves n ↔ ∃ i < n, a = blockAddr i := by
  simp only [leafHalves, Multiset.mem_map, Multiset.mem_range]
  exact exists_congr fun i => and_congr_right fun _ => eq_comm

theorem blockAddr_injective : Function.Injective blockAddr := by
  intro i j h
  have h : 2 * i + 1 = 2 * j + 1 := h
  omega

theorem leafHalves_nodup (n : ℕ) : (leafHalves n).Nodup := (Multiset.nodup_range n).map blockAddr_injective

theorem leafHalves_succ (n : ℕ) : leafHalves (n + 1) = blockAddr n ::ₘ leafHalves n := by
  rw [leafHalves, Multiset.range_succ, Multiset.map_cons, leafHalves]

theorem not_inner_of_leaf {n n' : ℕ} {a : Addr} (h : a ∈ leafHalves n) : ¬ IsInner n' a := by
  obtain ⟨i, -, rfl⟩ := mem_leafHalves.mp h
  rintro ⟨j, -, h⟩
  have h : 2 * i + 1 = 2 * j + 1 + 1 := h
  omega

theorem ne_zero_of_leaf {n : ℕ} {a : Addr} (h : a ∈ leafHalves n) : a ≠ 0 := by
  obtain ⟨i, -, rfl⟩ := mem_leafHalves.mp h
  simp [blockAddr]

theorem IsInner.ne_zero {n : ℕ} {a : Addr} (h : IsInner n a) : a ≠ 0 := by
  obtain ⟨i, -, rfl⟩ := h
  simp

theorem Ghost.Linked.ne_zero {g : Ghost} {n : ℕ} {a : Addr} (h : g.Linked n a) : a ≠ 0 :=
  h.alloc.elim ne_zero_of_leaf IsInner.ne_zero

namespace Owned

variable {n : ℕ} {g : Ghost} {a : Addr}

theorem nodup (h : Owned n g) : (g.tree.leaves + g.dead + g.cut + g.made).Nodup := h.leaves ▸ leafHalves_nodup n

theorem made_leaf (h : Owned n g) (ha : a ∈ g.made) : a ∈ leafHalves n := by
  rw [← h.leaves]
  simp [ha]

theorem cut_leaf (h : Owned n g) (ha : a ∈ g.cut) : a ∈ leafHalves n := by
  rw [← h.leaves]
  simp [ha]

theorem fresh_inner (h : Owned n g) (ha : a ∈ g.fresh) : IsInner n a := h.inner a (by simp [ha])

theorem tree_nodup (h : Owned n g) : g.tree.nodes.Nodup := (Multiset.nodup_add.mp h.nodes).1

theorem tree_node (h : Owned n g) (ha : a ∈ g.tree.nodes) : g.Linked n a ∧ a ∉ g.cut := by
  have hi := h.inner a (by simp [ha])
  have hdis := (Multiset.nodup_add.mp h.nodes).2.2
  refine ⟨⟨Or.inr hi, fun hm => ?_, Multiset.disjoint_left.mp hdis ha⟩, fun hc => ?_⟩
  · exact not_inner_of_leaf (h.made_leaf hm) hi
  · exact not_inner_of_leaf (h.cut_leaf hc) hi

/-- A leaf half that is not the writer's. -/
theorem placed (h : Owned n g) (ha : a ∈ g.tree.leaves + g.dead) : g.Linked n a ∧ a ∉ g.cut := by
  have hl : a ∈ leafHalves n := by
    rw [← h.leaves]
    exact Multiset.mem_add.mpr (Or.inl (Multiset.mem_add.mpr (Or.inl ha)))
  obtain ⟨hnd, -, hm⟩ := Multiset.nodup_add.mp h.nodup
  have hc := (Multiset.nodup_add.mp hnd).2.2
  refine ⟨⟨Or.inl hl, ?_, fun hf => not_inner_of_leaf hl (h.fresh_inner hf)⟩, Multiset.disjoint_left.mp hc ha⟩
  exact Multiset.disjoint_left.mp hm (Multiset.mem_add.mpr (Or.inl ha))

theorem cut_linked (h : Owned n g) (ha : a ∈ g.cut) : g.Linked n a := by
  have hl := h.cut_leaf ha
  have hm := (Multiset.nodup_add.mp h.nodup).2.2
  refine ⟨Or.inl hl, ?_, fun hf => not_inner_of_leaf hl (h.fresh_inner hf)⟩
  exact Multiset.disjoint_left.mp hm (Multiset.mem_add.mpr (Or.inr ha))

theorem tree_linked (h : Owned n g) (ha : a ∈ g.tree.nodes + g.tree.leaves) : g.Linked n a := by
  rcases Multiset.mem_add.mp ha with ha | ha
  · exact (h.tree_node ha).1
  · exact (h.placed (Multiset.mem_add.mpr (Or.inl ha))).1

end Owned

/-! ## Trees in the memory -/

section

variable {m m' : Mem} {p q : Addr}

theorem cell_congr {a : Addr} (h : m'.node a = m.node a) : m'.cell a = m.cell a := by
  simp only [Mem.cell, h]

theorem cell_leaf {a : Addr} (h : a ≠ 0) (hb : (m.node a).bit = 0) : m.cell a = .leaf (m.leafAt a) := by
  simp only [Mem.cell, if_neg h, if_pos hb]
  rfl

theorem cell_node {a : Addr} (h : a ≠ 0) (hb : (m.node a).bit ≠ 0) : m.cell a = .node (m.hdr a) (m.node a).child := by
  simp only [Mem.cell, if_neg h, if_neg hb]
  rfl

theorem cell_eq_nil : m.cell p = .nil ↔ p = 0 := by
  unfold Mem.cell
  split
  · simp [*]
  · split <;> simp [*]

theorem rep_nil : Rep m.cell p .nil ↔ p = 0 := cell_eq_nil

theorem rep_leaf {l : Leaf} : Rep m.cell p (.leaf q l) ↔ q = p ∧ p ≠ 0 ∧ (m.node p).bit = 0 ∧ l = m.leafAt p := by
  constructor
  · rintro ⟨rfl, h⟩
    by_cases hp : p = 0
    · cases (cell_eq_nil.mpr hp).symm.trans h
    by_cases hb : (m.node p).bit = 0
    · cases (cell_leaf hp hb).symm.trans h
      exact ⟨rfl, hp, hb, rfl⟩
    · cases (cell_node hp hb).symm.trans h
  · rintro ⟨rfl, hp, hb, rfl⟩
    exact ⟨rfl, cell_leaf hp hb⟩

theorem rep_node {n : Hdr} {c : Fin 2 → T} : Rep m.cell p (.node q n c) ↔
    q = p ∧ p ≠ 0 ∧ (m.node p).bit ≠ 0 ∧ n = m.hdr p ∧ ∀ i, Rep m.cell ((m.node p).child i) (c i) := by
  constructor
  · rintro ⟨rfl, ch, h, hc⟩
    by_cases hp : p = 0
    · cases (cell_eq_nil.mpr hp).symm.trans h
    by_cases hb : (m.node p).bit = 0
    · cases (cell_leaf hp hb).symm.trans h
    · cases (cell_node hp hb).symm.trans h
      exact ⟨rfl, hp, hb, rfl, hc⟩
  · rintro ⟨rfl, hp, hb, rfl, hc⟩
    exact ⟨rfl, _, cell_node hp hb, hc⟩

theorem rep_zero_iff {t : T} (h : Rep m.cell p t) : p = 0 ↔ t = .nil := by
  constructor
  · rintro rfl
    exact h.unique (rep_nil.mpr rfl)
  · rintro rfl
    exact rep_nil.mp h

theorem LeafList.congr : ∀ {as : List Addr} {p : Addr}, LeafList m p as → (∀ a ∈ as, m'.node a = m.node a) →
    LeafList m' p as
  | [], _, h, _ => h
  | a :: as, _, h, he => by
      obtain ⟨rfl, h0, h⟩ := h
      refine ⟨rfl, h0, ?_⟩
      rw [he _ (by simp)]
      exact LeafList.congr h fun b hb => he b (by simp [hb])

end

/-! ## Stores outside of the tree -/

namespace Inv

variable {m m' : Mem} {g : Ghost} {a : Addr}

/-- A node whose `bit` is set is an inner half. -/
theorem inner_of_bit (h : Inv m g) (ha : g.Linked m.malloced a) (hb : (m.node a).bit ≠ 0) : IsInner m.malloced a := by
  rcases ha.alloc with hl | hi
  · exact absurd (h.leafBit a hl) hb
  · exact hi

theorem not_cut (h : Inv m g) (hi : IsInner m.malloced a) : a ∉ g.cut := fun hc =>
  not_inner_of_leaf (h.cut_leaf hc) hi

/-- A store into a leaf half that is cut, or into halves that were not linked so far. -/
theorem congr (h : Inv m g) (hroot : m'.root = m.root) (hdel : m'.deletedNode = m.deletedNode)
    (hmal : m'.malloced = m.malloced) (hnode : ∀ a, g.Linked m.malloced a → a ∉ g.cut → m'.node a = m.node a)
    (hbit : ∀ k ∈ leafHalves m.malloced, (m'.node k).bit = (m.node k).bit) : Inv m' g where
  toOwned := hmal ▸ h.toOwned
  rep := by
    rw [hroot]
    refine h.rep.frame (fun p hp => ?_) (fun p hp => ?_) fun p hp => ?_
    · rwa [cell_eq_nil] at hp ⊢
    · obtain ⟨hl, hc⟩ := h.tree_node hp
      exact cell_congr (hnode p hl hc)
    · obtain ⟨hl, hc⟩ := h.placed (Multiset.mem_add.mpr (Or.inl hp))
      exact cell_congr (hnode p hl hc)
  wf := h.wf
  list := by
    rw [hdel]
    refine h.list.congr fun a ha => ?_
    obtain ⟨hl, hc⟩ := h.placed (Multiset.mem_add.mpr (Or.inr ha))
    exact hnode a hl hc
  leafBit := by
    intro k hk
    rw [hmal] at hk
    rw [hbit k hk, h.leafBit k hk]
  closed := by
    have hbit' : ∀ b, g.Linked m.malloced b → (m'.node b).bit = (m.node b).bit := by
      intro b hb
      rcases hb.alloc with hl | hi
      · exact hbit b hl
      · rw [hnode b hb (h.not_cut hi)]
    have hinner : ∀ b, g.Linked m.malloced b → (m'.node b).bit ≠ 0 → m'.node b = m.node b := by
      intro b hb hne
      rw [hbit' b hb] at hne
      exact hnode b hb (h.not_cut (h.inner_of_bit hb hne))
    intro a ha hb
    rw [hmal] at ha ⊢
    have he := hinner a ha hb
    rw [he] at hb
    obtain ⟨hok, hc⟩ := h.closed a ha hb
    simp only [Mem.hdr, he] at hok hc ⊢
    refine ⟨hok, fun i => ⟨(hc i).1, fun hbi => ?_⟩⟩
    have hei := hinner _ (hc i).1 hbi
    rw [hei] at hbi ⊢
    exact (hc i).2 hbi

end Inv

end Ptok.Critbit
