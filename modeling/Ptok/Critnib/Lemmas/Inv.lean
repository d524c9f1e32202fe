import Ptok.Critnib.Lemmas.Nibbles

/-!
# The representation invariant of critnib

`Ghost` says where every node and leaf is: in the tree, in a pool, parked in the ring of pending deletions, or in
the hands of the writer at work. `Inv` holds between any two stores of a writer, `Quiet` between calls. Each store
of the source has its own lemma here.
-/

namespace Ptok.Critnib

open Lib

/-- The pool of nodes that starts at a pointer. -/
def NodeChain (m : Mem) : Ptr → List Addr → Prop
  | p, [] => p = .null
  | p, a :: as => p = .node a ∧ NodeChain m ((m.node a).child 0) as

/-- The pool of leaves that starts at an address. -/
def LeafChain (m : Mem) : Addr → List Addr → Prop
  | k, [] => k = 0
  | k, b :: bs => k = b ∧ k ≠ 0 ∧ LeafChain m (m.leaf k).value bs

/-- What a slot of the ring owns. -/
def ptrOwn : Ptr → Multiset Ptr
  | .null => 0
  | p => {p}

def leafOwn (k : Addr) : Multiset Ptr := if k = 0 then 0 else {.leaf k}

structure Ghost where
  tree : T
  /-- the pools -/
  ns : List Addr
  ls : List Addr
  /-- the ring -/
  pn : Fin 16 → Ptr
  pl : Fin 16 → Addr
  /-- in the hands of the writer -/
  fn : Multiset Ptr
  fl : Multiset Ptr

/-- Everything malloc returned. -/
def nodesOf (m : Mem) : Multiset Ptr := (Multiset.range m.nodesMalloced).map .node

def leavesOf (m : Mem) : Multiset Ptr := (Multiset.range m.leavesMalloced).map fun i => .leaf (i + 1)

def Ghost.nodes (g : Ghost) : Multiset Ptr :=
  g.tree.nodes + (g.ns.map Ptr.node : List Ptr) + ∑ d, ptrOwn (g.pn d) + g.fn

def Ghost.leaves (g : Ghost) : Multiset Ptr :=
  g.tree.leaves + (g.ls.map Ptr.leaf : List Ptr) + ∑ d, leafOwn (g.pl d) + g.fl

structure Inv (m : Mem) (g : Ghost) : Prop where
  rep : Rep m.cell m.root g.tree
  fits : nibs.Fits g.tree 0
  nodePool : NodeChain m m.deletedNode g.ns
  leafPool : LeafChain m m.deletedLeaf g.ls
  nodes : g.nodes = nodesOf m
  leaves : g.leaves = leavesOf m

/-- No writer is at work. -/
structure Quiet (m : Mem) (g : Ghost) : Prop extends Inv m g where
  wf : nibs.WF g.tree 0
  pn : g.pn = m.pendingDelNodes
  pl : g.pl = m.pendingDelLeaves
  fn : g.fn = 0
  fl : g.fl = 0

/-! ## Ownership is exclusive -/

theorem nodesOf_nodup (m : Mem) : (nodesOf m).Nodup :=
  (Multiset.nodup_range _).map fun _ _ h => Ptr.node.inj h

theorem leavesOf_nodup (m : Mem) : (leavesOf m).Nodup :=
  (Multiset.nodup_range _).map fun _ _ h => by simpa using Ptr.leaf.inj h

theorem mem_nodesOf {m : Mem} {p : Ptr} : p ∈ nodesOf m ↔ ∃ a < m.nodesMalloced, p = .node a := by
  simp only [nodesOf, Multiset.mem_map, Multiset.mem_range]
  exact exists_congr fun a => and_congr_right fun _ => eq_comm

theorem mem_leavesOf {m : Mem} {p : Ptr} :
    p ∈ leavesOf m ↔ ∃ k, 0 < k ∧ k ≤ m.leavesMalloced ∧ p = .leaf k := by
  simp only [leavesOf, Multiset.mem_map, Multiset.mem_range]
  constructor
  · rintro ⟨i, hi, rfl⟩
    exact ⟨i + 1, by omega, by omega, rfl⟩
  · rintro ⟨k, hk, hk', rfl⟩
    exact ⟨k - 1, by omega, congrArg Ptr.leaf (Nat.sub_add_cancel hk)⟩

namespace Inv

variable {m m' : Mem} {g : Ghost}

theorem nodup_nodes (h : Inv m g) : g.nodes.Nodup := h.nodes ▸ nodesOf_nodup m

theorem nodup_leaves (h : Inv m g) : g.leaves.Nodup := h.leaves ▸ leavesOf_nodup m

theorem tree_nodup (h : Inv m g) : g.tree.nodes.Nodup := by
  have := h.nodup_nodes
  simp only [Ghost.nodes, Multiset.nodup_add] at this
  exact this.1.1.1

/-- What the writer holds is nowhere else. -/
theorem free_node (h : Inv m g) {a : Addr} (ha : Ptr.node a ∈ g.fn) :
    Ptr.node a ∉ g.tree.nodes ∧ a ∉ g.ns ∧ ∀ d, g.pn d ≠ .node a := by
  have hd := (Multiset.nodup_add.mp h.nodup_nodes).2.2
  rw [Multiset.disjoint_right] at hd
  have h' := hd ha
  simp only [Multiset.mem_add, not_or, Multiset.mem_coe, List.mem_map, Ptr.node.injEq, exists_eq_right,
    Multiset.mem_sum, Finset.mem_univ, true_and, not_exists] at h'
  refine ⟨h'.1.1, h'.1.2, fun d hd => h'.2 d ?_⟩
  rw [hd]
  exact Multiset.mem_singleton_self _

theorem free_leaf (h : Inv m g) {k : Addr} (hk : Ptr.leaf k ∈ g.fl) :
    Ptr.leaf k ∉ g.tree.leaves ∧ k ∉ g.ls ∧ k ≠ 0 := by
  have hd := (Multiset.nodup_add.mp h.nodup_leaves).2.2
  rw [Multiset.disjoint_right] at hd
  have h' := hd hk
  simp only [Multiset.mem_add, not_or, Multiset.mem_coe, List.mem_map, Ptr.leaf.injEq, exists_eq_right] at h'
  have hm : Ptr.leaf k ∈ leavesOf m := h.leaves ▸ Multiset.mem_add.mpr (Or.inr hk)
  obtain ⟨k', hk', -, he⟩ := mem_leavesOf.mp hm
  cases he
  exact ⟨h'.1.1, h'.1.2, Nat.pos_iff_ne_zero.mp hk'⟩

theorem tree_node_isNode (h : Inv m g) {p : Ptr} (hp : p ∈ g.tree.nodes) : ∃ a, p = .node a := by
  obtain ⟨n, ch, hc⟩ := h.rep.node_of_mem hp
  cases p with
  | null => cases hc
  | node a => exact ⟨a, rfl⟩
  | leaf k => cases hc

theorem tree_leaf_isLeaf (h : Inv m g) {p : Ptr} (hp : p ∈ g.tree.leaves) : ∃ k, p = .leaf k := by
  obtain ⟨l, hc⟩ := h.rep.leaf_of_mem hp
  cases p with
  | null => cases hc
  | node a => cases hc
  | leaf k => exact ⟨k, rfl⟩

end Inv

/-! ## Memory that a store does not touch -/

theorem NodeChain.congr {m m' : Mem} : ∀ {as : List Addr} {p : Ptr}, NodeChain m p as →
    (∀ a ∈ as, m'.node a = m.node a) → NodeChain m' p as
  | [], _, h, _ => h
  | a :: as, _, h, he => by
      refine ⟨h.1, ?_⟩
      rw [he a (by simp)]
      exact NodeChain.congr h.2 fun b hb => he b (by simp [hb])

theorem LeafChain.congr {m m' : Mem} : ∀ {bs : List Addr} {k : Addr}, LeafChain m k bs →
    (∀ k ∈ bs, m'.leaf k = m.leaf k) → LeafChain m' k bs
  | [], _, h, _ => h
  | b :: bs, _, h, he => by
      obtain ⟨rfl, h0, h⟩ := h
      refine ⟨rfl, h0, ?_⟩
      rw [he _ (by simp)]
      exact LeafChain.congr h fun b hb => he b (by simp [hb])

/-- A store that leaves the tree, the pools and malloc's counts alone. -/
theorem Inv.congr {m m' : Mem} {g : Ghost} (h : Inv m g) (hroot : m'.root = m.root)
    (hdn : m'.deletedNode = m.deletedNode) (hdl : m'.deletedLeaf = m.deletedLeaf)
    (hnm : m'.nodesMalloced = m.nodesMalloced) (hlm : m'.leavesMalloced = m.leavesMalloced)
    (hn : ∀ a, Ptr.node a ∈ g.tree.nodes ∨ a ∈ g.ns → m'.node a = m.node a)
    (hl : ∀ k, Ptr.leaf k ∈ g.tree.leaves ∨ k ∈ g.ls → m'.leaf k = m.leaf k) : Inv m' g where
  rep := by
    rw [hroot]
    refine h.rep.frame ?_ ?_ ?_
    · intro p hp
      cases p with
      | null => rfl
      | node a => cases hp
      | leaf k => cases hp
    · intro p hp
      obtain ⟨a, rfl⟩ := h.tree_node_isNode hp
      simp only [Mem.cell, hn a (Or.inl hp)]
    · intro p hp
      obtain ⟨k, rfl⟩ := h.tree_leaf_isLeaf hp
      simp only [Mem.cell, hl k (Or.inl hp)]
  fits := h.fits
  nodePool := hdn ▸ h.nodePool.congr fun a ha => hn a (Or.inr ha)
  leafPool := hdl ▸ h.leafPool.congr fun k hk => hl k (Or.inr hk)
  nodes := by rw [h.nodes, nodesOf, nodesOf, hnm]
  leaves := by rw [h.leaves, leavesOf, leavesOf, hlm]

/-! ## The stores, one by one -/

namespace Inv

variable {m : Mem} {g : Ghost}

/-- Fields that only writers look at. -/
theorem removeCount (h : Inv m g) (w : Word) : Inv (m.store (.removeCount w)) g :=
  h.congr rfl rfl rfl rfl rfl (fun _ _ => rfl) fun _ _ => rfl

theorem pendingDelNode (h : Inv m g) (d : Fin 16) (n : Ptr) : Inv (m.store (.pendingDelNode d n)) g :=
  h.congr rfl rfl rfl rfl rfl (fun _ _ => rfl) fun _ _ => rfl

theorem pendingDelLeaf (h : Inv m g) (d : Fin 16) (k : Addr) : Inv (m.store (.pendingDelLeaf d k)) g :=
  h.congr rfl rfl rfl rfl rfl (fun _ _ => rfl) fun _ _ => rfl

theorem mallocNode_fail (h : Inv m g) : Inv (m.store (.mallocNode false)) g :=
  h.congr rfl rfl rfl rfl rfl (fun _ _ => rfl) fun _ _ => rfl

theorem mallocLeaf_fail (h : Inv m g) : Inv (m.store (.mallocLeaf false)) g :=
  h.congr rfl rfl rfl rfl rfl (fun _ _ => rfl) fun _ _ => rfl

/-- A store into a node the writer holds. -/
theorem setNode (h : Inv m g) {a : Addr} (ha : Ptr.node a ∈ g.fn) (f : Node → Node) :
    Inv (m.setNode (.node a) f) g := by
  obtain ⟨ht, hp, -⟩ := h.free_node ha
  refine h.congr rfl rfl rfl rfl rfl (fun b hb => ?_) fun _ _ => rfl
  refine Function.update_of_ne ?_ _ _
  rintro rfl
  exact hb.elim ht hp

/-- A store into a leaf the writer holds. -/
theorem setLeaf (h : Inv m g) {k : Addr} (hk : Ptr.leaf k ∈ g.fl) (f : Leaf → Leaf) :
    Inv (m.setLeaf k f) g := by
  obtain ⟨ht, hp, -⟩ := h.free_leaf hk
  refine h.congr rfl rfl rfl rfl rfl (fun _ _ => rfl) fun b hb => ?_
  refine Function.update_of_ne ?_ _ _
  rintro rfl
  exact hb.elim ht hp

/-- A change of ownership without a store. -/
theorem regroup (h : Inv m g) {g' : Ghost} (ht : g'.tree = g.tree) (hns : g'.ns = g.ns) (hls : g'.ls = g.ls)
    (hn : ∑ d, ptrOwn (g'.pn d) + g'.fn = ∑ d, ptrOwn (g.pn d) + g.fn)
    (hl : ∑ d, leafOwn (g'.pl d) + g'.fl = ∑ d, leafOwn (g.pl d) + g.fl) : Inv m g' where
  rep := ht ▸ h.rep
  fits := ht ▸ h.fits
  nodePool := hns ▸ h.nodePool
  leafPool := hls ▸ h.leafPool
  nodes := by
    rw [← h.nodes, Ghost.nodes, Ghost.nodes, ht, hns, add_assoc, hn, ← add_assoc]
  leaves := by
    rw [← h.leaves, Ghost.leaves, Ghost.leaves, ht, hls, add_assoc, hl, ← add_assoc]

theorem mallocNode (h : Inv m g) :
    Inv (m.store (.mallocNode true)) { g with fn := .node m.nodesMalloced ::ₘ g.fn } where
  rep := h.rep
  fits := h.fits
  nodePool := h.nodePool.congr fun _ _ => rfl
  leafPool := h.leafPool.congr fun _ _ => rfl
  nodes := by
    have := h.nodes
    simp only [Ghost.nodes, nodesOf, Mem.store, Multiset.range_succ, Multiset.map_cons] at this ⊢
    rw [← this, Multiset.add_cons]
  leaves := h.leaves

theorem mallocLeaf (h : Inv m g) :
    Inv (m.store (.mallocLeaf true)) { g with fl := .leaf (m.leavesMalloced + 1) ::ₘ g.fl } where
  rep := h.rep
  fits := h.fits
  nodePool := h.nodePool.congr fun _ _ => rfl
  leafPool := h.leafPool.congr fun _ _ => rfl
  nodes := h.nodes
  leaves := by
    have := h.leaves
    simp only [Ghost.leaves, leavesOf, Mem.store, Multiset.range_succ, Multiset.map_cons] at this ⊢
    rw [← this, Multiset.add_cons]

/-- The head of the pool of nodes is taken out. -/
theorem popNode (h : Inv m g) {a : Addr} {as : List Addr} (hns : g.ns = a :: as) :
    Inv (m.store (.deletedNode ((m.node a).child 0))) { g with ns := as, fn := .node a ::ₘ g.fn } where
  rep := h.rep
  fits := h.fits
  nodePool := by
    have := h.nodePool
    rw [hns] at this
    exact this.2.congr fun _ _ => rfl
  leafPool := h.leafPool.congr fun _ _ => rfl
  nodes := by
    have := h.nodes
    rw [Ghost.nodes, hns] at this
    simp only [List.map_cons, ← Multiset.cons_coe] at this
    refine Eq.trans ?_ this
    simp only [Ghost.nodes, ← Multiset.singleton_add]
    abel
  leaves := h.leaves

theorem popLeaf (h : Inv m g) {k : Addr} {ks : List Addr} (hls : g.ls = k :: ks) :
    Inv (m.store (.deletedLeaf (m.leaf k).value)) { g with ls := ks, fl := .leaf k ::ₘ g.fl } where
  rep := h.rep
  fits := h.fits
  nodePool := h.nodePool.congr fun _ _ => rfl
  leafPool := by
    have := h.leafPool
    rw [hls] at this
    obtain ⟨rfl, -, h'⟩ := this
    exact h'.congr fun _ _ => rfl
  nodes := h.nodes
  leaves := by
    have := h.leaves
    rw [Ghost.leaves, hls] at this
    simp only [List.map_cons, ← Multiset.cons_coe] at this
    refine Eq.trans ?_ this
    simp only [Ghost.leaves, ← Multiset.singleton_add]
    abel

/-- A node the writer holds, already linked to the head of the pool, becomes the head. -/
theorem pushNode (h : Inv m g) {a : Addr} {fn : Multiset Ptr} (hfn : g.fn = .node a ::ₘ fn)
    (hlink : (m.node a).child 0 = m.deletedNode) :
    Inv (m.store (.deletedNode (.node a))) { g with ns := a :: g.ns, fn := fn } where
  rep := h.rep
  fits := h.fits
  nodePool := by
    refine ⟨rfl, ?_⟩
    show NodeChain _ ((m.node a).child 0) g.ns
    rw [hlink]
    exact h.nodePool.congr fun _ _ => rfl
  leafPool := h.leafPool.congr fun _ _ => rfl
  nodes := by
    have := h.nodes
    rw [Ghost.nodes, hfn] at this
    refine Eq.trans ?_ this
    simp only [Ghost.nodes, List.map_cons, ← Multiset.cons_coe, ← Multiset.singleton_add]
    abel
  leaves := h.leaves

theorem pushLeaf (h : Inv m g) {k : Addr} {fl : Multiset Ptr} (hfl : g.fl = .leaf k ::ₘ fl)
    (hlink : (m.leaf k).value = m.deletedLeaf) :
    Inv (m.store (.deletedLeaf k)) { g with ls := k :: g.ls, fl := fl } where
  rep := h.rep
  fits := h.fits
  nodePool := h.nodePool.congr fun _ _ => rfl
  leafPool := by
    refine ⟨rfl, (h.free_leaf (hfl ▸ Multiset.mem_cons_self _ _)).2.2, ?_⟩
    show LeafChain _ (m.leaf k).value g.ls
    rw [hlink]
    exact h.leafPool.congr fun _ _ => rfl
  nodes := h.nodes
  leaves := by
    have := h.leaves
    rw [Ghost.leaves, hfl] at this
    refine Eq.trans ?_ this
    simp only [Ghost.leaves, List.map_cons, ← Multiset.cons_coe, ← Multiset.singleton_add]
    abel

end Inv

end Ptok.Critnib
