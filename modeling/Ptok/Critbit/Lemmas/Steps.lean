import Ptok.Critbit.Lemmas.Inv

/-!
# What a writer's store can do

`Step` lists the stores of `critbit_insert` and `critbit_remove` with what they mean for the halves of the blocks.
Four of them touch what readers can reach from the root: the links of the first leaf and of an inner node, the
unlinking of the last leaf and the splice. The store that chains a removed leaf touches what readers may still hold.
-/

namespace Ptok.Critbit

open Lib

/-! ## Stores to a slot of the tree -/

def Mem.heap (m : Mem) : Heap Addr Leaf Hdr (Fin 2) := ⟨m.root, m.cell⟩

theorem slot_frame (m : Mem) (s : Slot Addr (Fin 2)) (p : Addr) :
    ∃ rt nd, m.store (.slot s p) = { m with root := rt, node := nd } := by
  rcases s with _ | ⟨n, i⟩ <;> exact ⟨_, _, rfl⟩

theorem slot_malloced (m : Mem) (s : Slot Addr (Fin 2)) (p : Addr) : (m.store (.slot s p)).malloced = m.malloced := by
  obtain ⟨rt, nd, h⟩ := slot_frame m s p
  rw [h]

theorem slot_deletedNode (m : Mem) (s : Slot Addr (Fin 2)) (p : Addr) :
    (m.store (.slot s p)).deletedNode = m.deletedNode := by
  obtain ⟨rt, nd, h⟩ := slot_frame m s p
  rw [h]

/-- It leaves every node alone but the one that holds the slot. -/
theorem slot_node (m : Mem) {s : Slot Addr (Fin 2)} {p a : Addr} (h : ∀ i, s ≠ .child a i) :
    (m.store (.slot s p)).node a = m.node a := by
  rcases s with _ | ⟨n, i⟩
  · rfl
  · refine Function.update_of_ne ?_ _ _
    rintro rfl
    exact h i rfl

/-- And what the node says besides its children. -/
theorem slot_hdr (m : Mem) (s : Slot Addr (Fin 2)) (p a : Addr) : (m.store (.slot s p)).hdr a = m.hdr a := by
  rcases s with _ | ⟨n, i⟩
  · rfl
  · by_cases ha : a = n
    · subst ha
      simp [Mem.hdr, Mem.store, Mem.setNode]
    · simp [Mem.hdr, Mem.store, Mem.setNode, Function.update_of_ne ha]

theorem slot_bit (m : Mem) (s : Slot Addr (Fin 2)) (p a : Addr) :
    ((m.store (.slot s p)).node a).bit = (m.node a).bit := congrArg Hdr.bit (slot_hdr m s p a)

theorem heap_slot {m : Mem} {s : Slot Addr (Fin 2)} (hs : ∀ n i, s = .child n i → n ≠ 0 ∧ (m.node n).bit ≠ 0)
    (p : Addr) : (m.store (.slot s p)).heap = m.heap.set s p := by
  rcases s with _ | ⟨n, i⟩
  · rfl
  · obtain ⟨h0, hb⟩ := hs n i rfl
    have hb' : ((m.store (.slot (.child n i) p)).node n).bit ≠ 0 := by rwa [slot_bit]
    simp only [Mem.heap, Heap.set]
    congr 1
    funext a
    by_cases ha : a = n
    · subst ha
      rw [cell_node h0 hb', Function.update_self, cell_node h0 hb, slot_hdr]
      simp [Mem.store, Mem.setNode]
    · rw [Function.update_of_ne ha]
      refine cell_congr (slot_node m fun j hj => ha ?_)
      cases hj
      rfl

namespace Inv

variable {m : Mem} {g : Ghost}

/-- The slot where a walk ends is the root or in an inner node of the tree. -/
theorem slot_out (h : Inv m g) {sel : Hdr → (Fin 2 → T) → Option (Fin 2)} {n : Addr} {i : Fin 2}
    (hs : Tree.slotOf sel .root g.tree = .child n i) :
    n ∈ g.tree.nodes ∧ n ∉ (Tree.focus sel g.tree).nodes := by
  refine ⟨?_, Tree.slotOf_not_mem_focus h.tree_nodup (by simp) hs⟩
  rcases Tree.slotOf_cases sel .root g.tree with he | ⟨n', hn, j, he⟩
  · cases hs.symm.trans he
  · cases hs.symm.trans he
    exact hn

theorem bit_of_mem (h : Inv m g) {n : Addr} (hn : n ∈ g.tree.nodes) : n ≠ 0 ∧ (m.node n).bit ≠ 0 := by
  obtain ⟨u, -, hr⟩ := h.rep.exists_sub hn
  obtain ⟨n', ch, hc⟩ := h.rep.node_of_mem hn
  have h0 : n ≠ 0 := by
    rintro rfl
    cases hc.symm.trans (cell_eq_nil.mpr rfl)
  refine ⟨h0, fun hb => ?_⟩
  cases hc.symm.trans (cell_leaf h0 hb)

theorem heap_slot (h : Inv m g) (sel : Hdr → (Fin 2 → T) → Option (Fin 2)) (q : Addr) :
    (m.store (.slot (Tree.slotOf sel .root g.tree) q)).heap = m.heap.set (Tree.slotOf sel .root g.tree) q :=
  Critbit.heap_slot (fun _ _ hs => h.bit_of_mem (h.slot_out hs).1) q

theorem cell_slot (h : Inv m g) (sel : Hdr → (Fin 2 → T) → Option (Fin 2)) (q : Addr) :
    (m.store (.slot (Tree.slotOf sel .root g.tree) q)).cell = (m.heap.set (Tree.slotOf sel .root g.tree) q).cell :=
  congrArg Heap.cell (h.heap_slot sel q)

end Inv

/-- Both children of a node are there. -/
theorem child_ne_nil {a : Addr} {hdr : Hdr} {c : Fin 2 → T} (h : Coding.Branching (.node a hdr c : T)) (i : Fin 2) :
    c i ≠ .nil := by
  obtain ⟨j, k, hjk, hj, hk⟩ := h.1
  have hcase : ∀ i j k : Fin 2, j ≠ k → i = j ∨ i = k := by decide
  rcases hcase i j k hjk with rfl | rfl
  · exact hj
  · exact hk

/-- What a reader finds at a node of a tree in memory. -/
theorem closed_of_rep {m : Mem} {t : T} {p a : Addr} {b : ℕ} (hrep : Rep m.cell p t) (hwf : bits.WF t b)
    (ha : a ∈ t.nodes) :
    bits.ok (m.hdr a) ∧ ∀ i, (m.node a).child i ∈ t.nodes + t.leaves ∧ ((m.node ((m.node a).child i)).bit ≠ 0 →
      bits.pos (m.hdr a) < bits.pos (m.hdr ((m.node a).child i))) := by
  obtain ⟨u, hu, hr⟩ := hrep.exists_sub ha
  obtain ⟨b', -, hfit⟩ := hwf.fits.sub hu
  have hbr := hwf.branching.sub hu
  obtain ⟨n', ch, hcell⟩ := hrep.node_of_mem ha
  cases u with
  | nil => cases hcell.symm.trans hr
  | leaf q l => obtain ⟨rfl, hr⟩ := hr; cases hcell.symm.trans hr
  | node q n c =>
      obtain ⟨rfl, -, -, rfl, hc⟩ := rep_node.mp hr
      refine ⟨hfit.1, fun i => ?_⟩
      have hne := child_ne_nil hbr i
      constructor
      · rcases Multiset.mem_add.mp ((hc i).mem hne) with hm | hm
        · exact Multiset.mem_add.mpr (Or.inl (hu.mem_nodes (Tree.mem_nodes_child hm)))
        · exact Multiset.mem_add.mpr (Or.inr (hu.mem_leaves (Tree.mem_leaves_child hm)))
      · intro hb
        have hci := hc i
        have hfi := hfit.2.2.2.2 i
        generalize c i = u at hci hfi hne
        cases u with
        | nil => exact absurd rfl hne
        | leaf q l => exact absurd (rep_leaf.mp hci).2.2.1 hb
        | node q n c' =>
            obtain ⟨rfl, -, -, rfl, -⟩ := rep_node.mp hci
            exact hfi.2.1

/-- A store to the slot where a walk ends. The rest is what the new subtree has to satisfy. -/
theorem Inv.slot {m : Mem} {g : Ghost} (h : Inv m g) (sel : Hdr → (Fin 2 → T) → Option (Fin 2)) (q : Addr) (u : T)
    (cut made fresh : Multiset Addr) (hu : Rep (m.store (.slot (Tree.slotOf sel .root g.tree) q)).cell q u)
    (hwf : bits.WF (Tree.plug sel u g.tree) 0)
    (hl : u.leaves + cut + made = (Tree.focus sel g.tree).leaves + g.cut + g.made)
    (hn : u.nodes + fresh ≤ (Tree.focus sel g.tree).nodes + g.fresh) (hmade : made ≤ g.made) (hfresh : fresh ≤ g.fresh)
    (hnew : ∀ a ∈ g.fresh, a ∈ fresh ∨ a ∈ u.nodes) :
    Inv (m.store (.slot (Tree.slotOf sel .root g.tree) q))
      { g with tree := Tree.plug sel u g.tree, cut := cut, made := made, fresh := fresh } := by
  have hle : (Tree.plug sel u g.tree).nodes + fresh ≤ g.tree.nodes + g.fresh := by
    have hp := Tree.nodes_plug sel u g.tree
    refine le_of_add_le_add_right (a := (Tree.focus sel g.tree).nodes) ?_
    calc (Tree.plug sel u g.tree).nodes + fresh + (Tree.focus sel g.tree).nodes
        = g.tree.nodes + (u.nodes + fresh) := by rw [add_right_comm, hp, add_assoc]
      _ ≤ g.tree.nodes + ((Tree.focus sel g.tree).nodes + g.fresh) := add_le_add_right hn _
      _ = _ := by abel
  have hown : Owned m.malloced { g with tree := Tree.plug sel u g.tree, cut := cut, made := made, fresh := fresh } := by
    refine ⟨?_, Multiset.nodup_of_le hle h.nodes, fun a ha => h.inner a (Multiset.mem_of_le hle ha)⟩
    rw [← h.leaves]
    have hp := Tree.leaves_plug sel u g.tree
    refine add_right_cancel (b := (Tree.focus sel g.tree).leaves) ?_
    calc (Tree.plug sel u g.tree).leaves + g.dead + cut + made + (Tree.focus sel g.tree).leaves
        = (Tree.plug sel u g.tree).leaves + (Tree.focus sel g.tree).leaves + g.dead + cut + made := by abel
      _ = g.tree.leaves + g.dead + (u.leaves + cut + made) := by rw [hp]; abel
      _ = _ := by rw [hl]; abel
  have hmem : ∀ {n i}, Tree.slotOf sel .root g.tree = .child n i → n ∈ (Tree.plug sel u g.tree).nodes := fun hs =>
    Tree.slotOf_mem_plug u hs (by simp)
  have hrep : Rep (m.store (.slot (Tree.slotOf sel .root g.tree) q)).cell
      (m.store (.slot (Tree.slotOf sel .root g.tree) q)).root (Tree.plug sel u g.tree) := by
    rw [h.cell_slot] at hu ⊢
    obtain ⟨q'', hroot, hrep⟩ := Rep.plug (s := .root) (h := m.heap) h.rep rfl h.tree_nodup (by simp) hu
    rw [← h.heap_slot] at hroot
    cases hroot
    exact hrep
  have hmal := slot_malloced m (Tree.slotOf sel .root g.tree) q
  refine ⟨by rwa [hmal], hrep, hwf, ?_, ?_, ?_⟩
  · rw [slot_deletedNode]
    refine h.list.congr fun a ha => slot_node m fun i hi => ?_
    have hl : a ∈ leafHalves m.malloced := by
      rw [← h.leaves]
      simp [ha]
    exact not_inner_of_leaf hl (h.inner a (Multiset.mem_add.mpr (Or.inl (h.slot_out hi).1)))
  · intro k hk
    rw [slot_bit]
    rw [hmal] at hk
    exact h.leafBit k hk
  · intro a ha hb
    rw [hmal] at ha ⊢
    by_cases hin : a ∈ (Tree.plug sel u g.tree).nodes
    · obtain ⟨hok, hc⟩ := closed_of_rep hrep hwf hin
      exact ⟨hok, fun i => ⟨hown.tree_linked (hc i).1, (hc i).2⟩⟩
    · -- what is not in the tree is as it was
      rw [slot_bit] at hb
      have hinner : IsInner m.malloced a := by
        rcases ha.alloc with hl | hi
        · exact absurd (h.leafBit a hl) hb
        · exact hi
      have hbefore : g.Linked m.malloced a := by
        refine ⟨ha.alloc, fun hm => not_inner_of_leaf (h.made_leaf hm) hinner, fun hf => ?_⟩
        rcases hnew a hf with hf | hf
        · exact ha.fresh hf
        · exact hin ((Tree.sub_plug sel u g.tree).mem_nodes hf)
      obtain ⟨hok, hc⟩ := h.closed a hbefore hb
      have hsame : (m.store (.slot (Tree.slotOf sel .root g.tree) q)).node a = m.node a :=
        slot_node m fun i hi => hin (hmem hi)
      simp only [slot_hdr, hsame, slot_bit]
      refine ⟨hok, fun i => ⟨⟨(hc i).1.alloc, fun hm => ?_, fun hf => ?_⟩, (hc i).2⟩⟩
      · exact (hc i).1.made (Multiset.mem_of_le hmade hm)
      · exact (hc i).1.fresh (Multiset.mem_of_le hfresh hf)

/-! ## The steps -/

/-- The subtree an insert puts in place of `old`: the new leaf and `old` below the inner half `a`. -/
def splitTree (a : Addr) (path key : Word) (k : Addr) (l : Leaf) (old : T) : T :=
  Tree.fork a (splitHdr path key) (bits.dig key (bits.pos (splitHdr path key))) (.leaf k l)
    (bits.dig path (bits.pos (splitHdr path key))) old

/-- A store into a half that was not linked so far. -/
inductive Held (g : Ghost) : Event → Prop
  | value {k : Addr} (h : k ∈ g.made) (v : ℕ) : Held g (.value k v)
  | key {k : Addr} (h : k ∈ g.made) (w : Word) : Held g (.path k w)
  | child {a : Addr} (h : a ∈ g.fresh) (i : Fin 2) (p : Addr) : Held g (.slot (.child a i) p)
  | path {a : Addr} (h : a ∈ g.fresh) (w : Word) : Held g (.path a w)
  | bit {a : Addr} (h : a ∈ g.fresh) (w : Word) : Held g (.bit a w)

/-- One store of a writer in memory `m`, with what it does to the halves; `Q` says what leaves are linked. -/
inductive Step (Q : Leaf → Prop) (m : Mem) : Ghost → Event → Ghost → Prop
  | fail (g : Ghost) : Step Q m g (.zalloc false) g
  | zalloc (g : Ghost) : Step Q m g (.zalloc true)
      { g with made := blockAddr m.malloced ::ₘ g.made, fresh := (blockAddr m.malloced + 1) ::ₘ g.fresh }
  | held {g : Ghost} {e : Event} (h : Held g e) : Step Q m g e g
  /-- the first leaf -/
  | linkRoot {g : Ghost} {k : Addr} {made : Multiset Addr} (hq : Q (m.leafAt k)) (hnil : g.tree = .nil)
      (hmade : g.made = k ::ₘ made) :
      Step Q m g (.slot .root k) { g with tree := .leaf k (m.leafAt k), made := made }
  /-- an inner half is linked, with the leaf and the subtree that was there -/
  | linkSplit {g : Ghost} {key path : Word} {k a : Addr} {made fresh : Multiset Addr} (hq : Q (m.leafAt k))
      (hne : Tree.focus (insertSel key) g.tree ≠ .nil) (hkey : (m.node k).path = key)
      (hpath : bits.pathOf key (Tree.focus (insertSel key) g.tree) = path) (hat : path ≠ key)
      (hmade : g.made = k ::ₘ made) (hfresh : g.fresh = a ::ₘ fresh)
      (hrep : Rep m.cell a (splitTree a path key k (m.leafAt k) (Tree.focus (insertSel key) g.tree))) :
      Step Q m g (.slot (Tree.slotOf (insertSel key) .root g.tree) a)
        { g with
          tree := Tree.plug (insertSel key)
            (splitTree a path key k (m.leafAt k) (Tree.focus (insertSel key) g.tree)) g.tree
          made := made
          fresh := fresh }
  /-- the last leaf -/
  | unlinkRoot {g : Ghost} {k : Addr} {l : Leaf} (hleaf : g.tree = .leaf k l) :
      Step Q m g (.slot .root 0) { g with tree := .nil, cut := k ::ₘ g.cut }
  /-- the sibling of a leaf takes the place of the node above both -/
  | splice {g : Ghost} {key : Word} {a k : Addr} {hdr : Hdr} {c : Fin 2 → T} {l : Leaf}
      (hfoc : Tree.focus (Coding.toParent bits key) g.tree = .node a hdr c)
      (hleaf : c (bits.dig key (bits.pos hdr)) = .leaf k l) (hkey : l.key = key) :
      Step Q m g (.slot (Tree.slotOf (Coding.toParent bits key) .root g.tree)
          ((m.node a).child (1 - bits.dig key (bits.pos hdr))))
        { g with
          tree := Tree.plug (Coding.toParent bits key) (c (1 - bits.dig key (bits.pos hdr))) g.tree
          cut := k ::ₘ g.cut }
  /-- a removed leaf is chained to the list -/
  | chain {g : Ghost} {k : Addr} (hcut : k ∈ g.cut) : Step Q m g (.slot (.child k 0) m.deletedNode) g
  | push {g : Ghost} {k : Addr} {cut : Multiset Addr} (hcut : g.cut = k ::ₘ cut)
      (hlink : (m.node k).child 0 = m.deletedNode) :
      Step Q m g (.deletedNode k) { g with dead := k :: g.dead, cut := cut }

/-! ## The invariant holds between any two stores -/

section

variable {a k : Addr} {path key : Word} {l : Leaf} {old : T} (hat : path ≠ key)
include hat

theorem splitTree_nodes : (splitTree a path key k l old).nodes = a ::ₘ old.nodes := by
  rw [splitTree, Tree.fork_nodes (splitHdr_first hat).2, Tree.nodes_leaf, zero_add]

theorem splitTree_leaves : (splitTree a path key k l old).leaves = k ::ₘ old.leaves := by
  rw [splitTree, Tree.fork_leaves (splitHdr_first hat).2, Tree.leaves_leaf, Multiset.singleton_add]

theorem splitTree_has (l' : Leaf) : (splitTree a path key k l old).Has l' ↔ l' = l ∨ old.Has l' := by
  rw [splitTree, Tree.fork_has (splitHdr_first hat).2, Tree.has_leaf, eq_comm]

/-- It is a trie wherever the old subtree was one. -/
theorem splitTree_wf {b : ℕ} (hold : bits.WF old b) (hne : old ≠ .nil)
    (hb : ∀ l, old.Has l → bits.Agree b key (bits.key l)) (hpath : bits.pathOf key old = path)
    (hpos : bits.pos (splitHdr path key) < bits.posOf old) (hkey : l.key = key) :
    bits.WF (splitTree a path key k l old) b := by
  subst hpath
  have hok := splitHdr_ok hat
  obtain ⟨hag, hd⟩ := splitHdr_first hat
  exact hold.split hne hb hok (bits_ok_iff.mp hok).1 (splitHdr_path hat) hag hd hpos hkey _ _

end

theorem agree_zero (k k' : Word) : bits.Agree 0 k k' := fun q hq => absurd hq (Nat.not_lt_zero q)

/-- The subtree where the walk of an insert ends differs from the key before its own position. -/
theorem splitHdr_pos_lt {t : T} {key path : Word} {b : ℕ} (ht : bits.Fits t b)
    (hne : Tree.focus (insertSel key) t ≠ .nil) (hpath : bits.pathOf key (Tree.focus (insertSel key) t) = path)
    (hat : path ≠ key) : bits.pos (splitHdr path key) < bits.posOf (Tree.focus (insertSel key) t) := by
  obtain ⟨b', -, hfit⟩ := ht.focus (insertSel key)
  generalize hu : Tree.focus (insertSel key) t = u at hne hpath hfit
  cases u with
  | nil => exact absurd rfl hne
  | leaf q l => exact (bits_ok_iff.mp (splitHdr_ok hat)).1
  | node q hdr c =>
      subst hpath
      rcases insertSel_follows key hdr c hfit.1 with ⟨-, hs⟩ | ⟨hag, -⟩
      · cases (Tree.focus_eq_node hu).symm.trans hs
      · exact Coding.lt_of_not_agree (splitHdr_first hat).1 hag

theorem Owned.tree_nil {n : ℕ} {g : Ghost} (h : Owned n g) (hnil : g.tree = .nil) :
    g.dead + g.cut + g.made = leafHalves n := by
  have := h.leaves
  rw [hnil, Tree.leaves_nil, zero_add] at this
  exact this

theorem Held.inv {m : Mem} {g : Ghost} {e : Event} (hh : Held g e) (h : Inv m g) : Inv (m.store e) g := by
  have hne : ∀ {a b}, g.Linked m.malloced b → a ∈ g.made ∨ a ∈ g.fresh → b ≠ a := by
    rintro a b hb (ha | ha) rfl
    · exact hb.made ha
    · exact hb.fresh ha
  have hnode : ∀ {a} (f : Node → Node), a ∈ g.made ∨ a ∈ g.fresh →
      (∀ k ∈ leafHalves m.malloced, k = a → (f (m.node k)).bit = (m.node k).bit) → Inv (m.setNode a f) g := by
    intro a f ha hbit
    refine h.congr rfl rfl rfl (fun b hb _ => Function.update_of_ne (hne hb ha) _ _) fun k hk => ?_
    by_cases hka : k = a
    · subst hka
      simpa [Mem.setNode] using hbit k hk rfl
    · simp [Mem.setNode, Function.update_of_ne hka]
  have hinner : ∀ {a k}, a ∈ g.fresh → k ∈ leafHalves m.malloced → k ≠ a := by
    rintro a k ha hk rfl
    exact not_inner_of_leaf hk (h.fresh_inner ha)
  cases hh with
  | value hk v => exact hnode (fun x => { x with child := Function.update x.child 0 v }) (Or.inl hk) fun _ _ _ => rfl
  | key hk w => exact hnode (fun x => { x with path := w }) (Or.inl hk) fun _ _ _ => rfl
  | child ha i p =>
      exact hnode (fun x => { x with child := Function.update x.child i p }) (Or.inr ha) fun _ _ _ => rfl
  | path ha w => exact hnode (fun x => { x with path := w }) (Or.inr ha) fun _ _ _ => rfl
  | bit ha w =>
      exact hnode (fun x => { x with bit := w }) (Or.inr ha) fun k hk he => absurd he (hinner ha hk)

/-- What was there before a new block is somewhere else. -/
theorem ne_new {n : ℕ} {b : Addr} (hb : b ∈ leafHalves n ∨ IsInner n b) : b ≠ blockAddr n ∧ b ≠ blockAddr n + 1 := by
  have hself : blockAddr n ∈ leafHalves (n + 1) := mem_leafHalves.mpr ⟨_, Nat.lt_succ_self _, rfl⟩
  rcases hb with hb | hb
  · refine ⟨?_, fun he => not_inner_of_leaf hb ⟨_, Nat.lt_succ_self _, he⟩⟩
    rintro rfl
    obtain ⟨i, hi, he⟩ := mem_leafHalves.mp hb
    exact absurd (blockAddr_injective he) (Nat.ne_of_gt hi)
  · refine ⟨fun he => not_inner_of_leaf hself (he ▸ hb : IsInner _ _), ?_⟩
    rintro rfl
    obtain ⟨i, hi, he⟩ := hb
    exact absurd (blockAddr_injective (Nat.succ.inj he)) (Nat.ne_of_gt hi)

theorem zalloc_node {m : Mem} {b : Addr} (hb : b ∈ leafHalves m.malloced ∨ IsInner m.malloced b) :
    (m.store (.zalloc true)).node b = m.node b := by
  obtain ⟨h₁, h₂⟩ := ne_new hb
  simp [Mem.store, Function.update_of_ne h₁, Function.update_of_ne h₂]

theorem IsInner.succ {n : ℕ} {b : Addr} (h : IsInner n b) : IsInner (n + 1) b := by
  obtain ⟨i, hi, he⟩ := h
  exact ⟨i, by omega, he⟩

theorem Ghost.Linked.zalloc {g : Ghost} {n : ℕ} {b : Addr} (hb : g.Linked n b) :
    Ghost.Linked { g with made := blockAddr n ::ₘ g.made, fresh := (blockAddr n + 1) ::ₘ g.fresh } (n + 1) b := by
  obtain ⟨h₁, h₂⟩ := ne_new hb.alloc
  refine ⟨hb.alloc.imp (fun hl => ?_) IsInner.succ, fun hm => ?_, fun hf => ?_⟩
  · rw [leafHalves_succ]
    exact Multiset.mem_cons_of_mem hl
  · exact (Multiset.mem_cons.mp hm).elim h₁ hb.made
  · exact (Multiset.mem_cons.mp hf).elim h₂ hb.fresh

/-- A new block. -/
theorem Inv.zalloc {m : Mem} {g : Ghost} (h : Inv m g) : Inv (m.store (.zalloc true))
    { g with made := blockAddr m.malloced ::ₘ g.made, fresh := (blockAddr m.malloced + 1) ::ₘ g.fresh } := by
  have hnode := fun b => zalloc_node (m := m) (b := b)
  refine ⟨⟨?_, ?_, ?_⟩, ?_, h.wf, ?_, ?_, ?_⟩
  · show _ = leafHalves (m.malloced + 1)
    rw [leafHalves_succ, ← h.leaves, Multiset.add_cons]
  · rw [Multiset.add_cons, Multiset.nodup_cons]
    exact ⟨fun hm => (ne_new (Or.inr (h.inner _ hm))).2 rfl, h.nodes⟩
  · intro a ha
    rw [Multiset.add_cons, Multiset.mem_cons] at ha
    rcases ha with rfl | ha
    · exact ⟨_, Nat.lt_succ_self _, rfl⟩
    · exact (h.inner a ha).succ
  · refine h.rep.frame (fun p hp => ?_) (fun p hp => ?_) fun p hp => ?_
    · rwa [cell_eq_nil] at hp ⊢
    · exact cell_congr (hnode p (h.tree_node hp).1.alloc)
    · exact cell_congr (hnode p (h.placed (Multiset.mem_add.mpr (Or.inl hp))).1.alloc)
  · exact h.list.congr fun a ha => hnode a (h.placed (Multiset.mem_add.mpr (Or.inr ha))).1.alloc
  · intro k hk
    change k ∈ leafHalves (m.malloced + 1) at hk
    rw [leafHalves_succ, Multiset.mem_cons] at hk
    rcases hk with rfl | hk
    · simp [Mem.store, Node.zero]
    · rw [hnode k (Or.inl hk), h.leafBit k hk]
  · intro a ha hb
    have hbefore : g.Linked m.malloced a := by
      refine ⟨?_, fun hm => ha.made (Multiset.mem_cons_of_mem hm), fun hf => ha.fresh (Multiset.mem_cons_of_mem hf)⟩
      rcases ha.alloc with hl | ⟨i, hi, rfl⟩
      · change a ∈ leafHalves (m.malloced + 1) at hl
        rw [leafHalves_succ, Multiset.mem_cons] at hl
        rcases hl with rfl | hl
        · exact absurd (Multiset.mem_cons_self _ _) ha.made
        · exact Or.inl hl
      · rcases Nat.lt_succ_iff_lt_or_eq.mp hi with hi | rfl
        · exact Or.inr ⟨i, hi, rfl⟩
        · exact absurd (Multiset.mem_cons_self _ _) ha.fresh
    rw [hnode a hbefore.alloc] at hb ⊢
    obtain ⟨hok, hc⟩ := h.closed a hbefore hb
    have hhdr : ∀ b, g.Linked m.malloced b → (m.store (.zalloc true)).hdr b = m.hdr b := fun b hb => by
      simp only [Mem.hdr, hnode b hb.alloc]
    rw [hhdr a hbefore]
    refine ⟨hok, fun i => ⟨(hc i).1.zalloc, fun hbi => ?_⟩⟩
    rw [hhdr _ (hc i).1]
    rw [hnode _ (hc i).1.alloc] at hbi
    exact (hc i).2 hbi

theorem sum_two (f : Fin 2 → Multiset Addr) (d : Fin 2) : ∑ i, f i = f d + f (1 - d) := by
  rw [Fin.sum_univ_two]
  fin_cases d
  · rfl
  · exact add_comm _ _

section

variable {t : T} {key : Word} {a k : Addr} {hdr : Hdr} {c : Fin 2 → T} {l : Leaf}
  (hfoc : Tree.focus (Coding.toParent bits key) t = .node a hdr c)
include hfoc

/-- The tree without the key's leaf and the node above it. -/
theorem splice_wf {i : Fin 2} (ht : bits.WF t 0) (hne : c i ≠ .nil) :
    bits.WF (Tree.plug (Coding.toParent bits key) (c i) t) 0 := by
  have hbr : Coding.Branching (Tree.focus (Coding.toParent bits key) t) := ht.branching.focus
  rw [hfoc] at hbr
  refine ⟨ht.fits.plug_sub (fun l hl => hfoc ▸ ⟨i, hl⟩) fun b hfit => ?_, ht.branching.plug (hbr.2 i) hne⟩
  rw [hfoc] at hfit
  exact (hfit.2.2.2.2 i).mono (by have := hfit.2.1; omega)

variable (hleaf : c (bits.dig key (bits.pos hdr)) = .leaf k l)
include hleaf

theorem splice_nodes : (Tree.focus (Coding.toParent bits key) t).nodes =
    a ::ₘ (c (1 - bits.dig key (bits.pos hdr))).nodes := by
  rw [hfoc, Tree.nodes_node, sum_two _ (bits.dig key (bits.pos hdr)), hleaf, Tree.nodes_leaf, zero_add]

theorem splice_leaves : (Tree.focus (Coding.toParent bits key) t).leaves =
    k ::ₘ (c (1 - bits.dig key (bits.pos hdr))).leaves := by
  rw [hfoc, Tree.leaves_node, sum_two _ (bits.dig key (bits.pos hdr)), hleaf, Tree.leaves_leaf, Multiset.singleton_add]

theorem splice_has (ht : bits.Routed t) (hkey : l.key = key) (l' : Leaf) :
    (Tree.plug (Coding.toParent bits key) (c (1 - bits.dig key (bits.pos hdr))) t).Has l' ↔ t.Has l' ∧ l'.key ≠ key := by
  refine Coding.has_splice ht hfoc hleaf hkey ?_ ?_ l'
  · have : ∀ d : Fin 2, 1 - d ≠ d := by decide
    exact this _
  · have : ∀ d i : Fin 2, i ≠ d → i ≠ 1 - d → False := by decide
    exact fun i hi hi' => (this _ i hi hi').elim

end

theorem Step.inv {Q : Leaf → Prop} {m : Mem} {g g' : Ghost} {e : Event} (hs : Step Q m g e g') (h : Inv m g) : Inv (m.store e) g' := by
  cases hs with
  | fail => exact h.congr rfl rfl rfl (fun _ _ _ => rfl) fun _ _ => rfl
  | zalloc => exact h.zalloc
  | held hh => exact hh.inv h
  | @linkRoot k made hq hnil hmade =>
      have hk : k ∈ g.made := hmade ▸ Multiset.mem_cons_self _ _
      have hl := h.made_leaf hk
      have hout := h.slot (insertSel 0) k (.leaf k (m.leafAt k)) g.cut made g.fresh
      rw [hnil] at hout
      refine hout ?_ ⟨trivial, trivial⟩ ?_ (by simp [Tree.focus]) ?_ le_rfl fun a ha => Or.inl ha
      · exact rep_leaf.mpr ⟨rfl, ne_zero_of_leaf hl, h.leafBit k hl, rfl⟩
      · rw [hmade]
        simp only [Tree.focus, Tree.leaves_leaf, Tree.leaves_nil, ← Multiset.singleton_add]
        abel
      · rw [hmade]
        exact Multiset.le_cons_self _ _
  | @linkSplit key path k a made fresh hq hne hkey hpath hat hmade hfresh hrep =>
      have hpos := splitHdr_pos_lt h.wf.fits hne hpath hat
      have hin : ∀ l, (splitTree a path key k (m.leafAt k) (Tree.focus (insertSel key) g.tree)).Has l ↔ _ :=
        splitTree_has hat
      have hbr : Coding.Branching (Tree.focus (insertSel key) g.tree) := h.wf.branching.focus
      refine h.slot _ _ _ g.cut made fresh ?_ ⟨?_, ?_⟩ ?_ ?_ ?_ ?_ ?_
      · rw [h.cell_slot]
        refine hrep.set fun p i hp => ?_
        obtain ⟨hp, hout⟩ := h.slot_out hp
        rw [splitTree_nodes hat, Multiset.mem_cons, not_or]
        refine ⟨?_, hout⟩
        rintro rfl
        exact (h.tree_node hp).1.fresh (hfresh ▸ Multiset.mem_cons_self _ _)
      · refine h.wf.fits.plug_insert (insertSel_follows key) (fun _ _ => agree_zero _ _) (fun l hl => ?_) ?_
        · rcases (hin l).mp hl with rfl | hl
          · exact Or.inl hkey
          · exact Or.inr hl
        · intro b hfit hb
          exact (splitTree_wf hat ⟨hfit, hbr⟩ hne hb hpath hpos hkey).fits
      · obtain ⟨b, -, hfit⟩ := h.wf.fits.focus (insertSel key)
        refine h.wf.branching.plug ?_ (by simp [splitTree, Tree.fork])
        exact (splitTree_wf hat ⟨hfit.mono (Nat.zero_le b), hbr⟩ hne (fun _ _ => agree_zero _ _) hpath hpos hkey).branching
      · rw [splitTree_leaves hat, hmade]
        simp only [← Multiset.singleton_add]
        abel
      · rw [splitTree_nodes hat, hfresh, Multiset.cons_add, Multiset.add_cons]
      · rw [hmade]
        exact Multiset.le_cons_self _ _
      · rw [hfresh]
        exact Multiset.le_cons_self _ _
      · intro b hb
        rw [hfresh, Multiset.mem_cons] at hb
        rw [splitTree_nodes hat]
        rcases hb with rfl | hb
        · exact Or.inr (Multiset.mem_cons_self _ _)
        · exact Or.inl hb
  | @unlinkRoot k l hleaf =>
      have hout := h.slot (insertSel 0) 0 .nil (k ::ₘ g.cut) g.made g.fresh
      rw [hleaf] at hout
      refine hout (rep_nil.mpr rfl) ⟨trivial, trivial⟩ ?_ (by simp [Tree.focus]) le_rfl le_rfl fun a ha => Or.inl ha
      simp only [Tree.focus, Tree.leaves_leaf, Tree.leaves_nil, ← Multiset.singleton_add]
      abel
  | @splice key a k hdr c l hfoc hleaf hkey =>
      obtain ⟨q, -, hq⟩ := Rep.focus (Coding.toParent bits key) (h := m.heap) (s := .root) h.rep rfl
      have hbr : Coding.Branching (Tree.focus (Coding.toParent bits key) g.tree) := h.wf.branching.focus
      rw [hfoc] at hq hbr
      obtain ⟨rfl, -, -, rfl, hc⟩ := rep_node.mp hq
      have hne := child_ne_nil hbr (1 - bits.dig key (bits.pos (m.hdr a)))
      have hnodes := splice_nodes hfoc hleaf
      have hleaves := splice_leaves hfoc hleaf
      refine h.slot _ _ _ _ g.made g.fresh ?_ (splice_wf hfoc h.wf hne) ?_ ?_ le_rfl le_rfl
        fun b hb => Or.inl hb
      · rw [h.cell_slot]
        refine (hc _).set fun p i hp hin => ?_
        have hout := (h.slot_out hp).2
        rw [hfoc] at hout
        exact hout (Tree.mem_nodes_child hin)
      · rw [hleaves]
        simp only [← Multiset.singleton_add]
        abel
      · rw [hnodes]
        exact add_le_add_left (Multiset.le_cons_self _ _) _
  | @chain k hcut =>
      have hl := h.cut_leaf hcut
      refine h.congr rfl rfl rfl (fun b _ hb => slot_node m fun i hi => ?_) fun b _ => slot_bit m _ _ b
      cases hi
      exact hb hcut
  | @push k cut hcut hlink =>
      have hk : k ∈ g.cut := hcut ▸ Multiset.mem_cons_self _ _
      refine ⟨⟨?_, h.nodes, h.inner⟩, h.rep, h.wf, ?_, h.leafBit, fun a ha hb => ?_⟩
      · have := h.leaves
        rw [hcut] at this
        refine Eq.trans ?_ this
        simp only [← Multiset.cons_coe, ← Multiset.singleton_add]
        abel
      · refine ⟨rfl, ne_zero_of_leaf (h.cut_leaf hk), ?_⟩
        show LeafList _ ((m.node k).child 0) g.dead
        rw [hlink]
        exact h.list.congr fun _ _ => rfl
      · obtain ⟨hok, hc⟩ := h.closed a ⟨ha.alloc, ha.made, ha.fresh⟩ hb
        exact ⟨hok, fun i => ⟨⟨(hc i).1.alloc, (hc i).1.made, (hc i).1.fresh⟩, (hc i).2⟩⟩

end Ptok.Critbit
