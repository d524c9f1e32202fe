import Ptok.Lib.Places
import Ptok.Critbit.Theorems

/-!
# Who owns what in critbit

A block is freed through its leaf half, wherever its inner half is.
-/

namespace Ptok.Critbit

open Lib

variable {m m' : Mem} {g : Ghost}

/-! ## Where leaf halves are -/

inductive Place
  /-- the end of a path through the tree -/
  | tree (path : List (Fin 2))
  /-- the `i`th entry of the list of removed leaves -/
  | list (i : ℕ)

def nextLeaf (m : Mem) (k : Addr) : Addr := if k = 0 then 0 else (m.node k).child 0

/-- What is at a place. -/
def Mem.found (m : Mem) : Place → Option Addr
  | .tree path => follow m.cell m.root path
  | .list i => some (entry (nextLeaf m) m.deletedNode i) |>.filter (· ≠ 0)

theorem LeafList.chain : ∀ {as : List Addr} {p : Addr}, LeafList m p as → Chain (nextLeaf m) 0 p as
  | [], _, h => h
  | a :: as, p, h => by
      obtain ⟨rfl, h0, h⟩ := h
      refine ⟨rfl, h0, ?_⟩
      rw [nextLeaf, if_neg h0]
      exact LeafList.chain h

theorem found_list {as : List Addr} (h : LeafList m m.deletedNode as) (i : ℕ) : m.found (.list i) = as[i]? := by
  have h0 := h.chain.ne_null
  rw [Mem.found, h.chain.entry_eq rfl]
  cases he : as[i]? with
  | none => rfl
  | some k =>
      have hk : k ≠ 0 := by
        rintro rfl
        exact h0 (List.mem_of_getElem? he)
      simp [Option.filter, hk]

def Place.split : Place → List (Fin 2) ⊕ ℕ
  | .tree path => .inl path
  | .list i => .inr i

theorem Place.split_bijective : Function.Bijective Place.split := by
  constructor
  · rintro (p | i) (q | j) h <;> cases h <;> rfl
  · rintro (p | i)
    · exact ⟨.tree p, rfl⟩
    · exact ⟨.list i, rfl⟩

/-- Halves in the tree and in the list. -/
theorem Quiet.covers (h : Quiet m g) : Covers m.found (g.tree.nodes + g.tree.leaves + g.dead) := by
  have hsum := (Rep.covers h.rep).sum (Covers.list g.dead)
  have heq : m.found = fun pl => Sum.elim (follow m.cell m.root) (fun i => g.dead[i]?) pl.split := by
    funext pl
    cases pl with
    | tree path => rfl
    | list i => exact found_list h.list i
  rw [heq]
  exact hsum.comap Place.split_bijective

theorem Quiet.leafHalves_eq (h : Quiet m g) : g.tree.leaves + g.dead = leafHalves m.malloced := by
  have := h.leaves
  rwa [h.cut, h.made, add_zero, add_zero] at this

theorem Quiet.halves_nodup (h : Quiet m g) : (g.tree.nodes + g.tree.leaves + g.dead).Nodup := by
  rw [add_assoc, h.leafHalves_eq, Multiset.nodup_add]
  refine ⟨h.tree_nodup, leafHalves_nodup _, Multiset.disjoint_left.mpr ?_⟩
  intro a hn hl
  exact not_inner_of_leaf hl (h.inner a (Multiset.mem_add.mpr (Or.inl hn)))

/-! ## critbit_delete -/

/-- What `delete_node` does to the memory: some leaf halves are put on the list, and nothing else is stored. -/
structure Freed (m m' : Mem) (as : List Addr) : Prop where
  root : m'.root = m.root
  malloced : m'.malloced = m.malloced
  hdr : ∀ a, m'.hdr a = m.hdr a
  node : ∀ a ∉ as, m'.node a = m.node a
  list : ∀ dead, LeafList m m.deletedNode dead → (∀ a ∈ as, a ∉ dead) → LeafList m' m'.deletedNode (as ++ dead)

theorem Freed.trans {m₁ m₂ m₃ : Mem} {as bs : List Addr} (h : Freed m₁ m₂ as) (h' : Freed m₂ m₃ bs)
    (hab : ∀ b ∈ bs, b ∉ as) : Freed m₁ m₃ (bs ++ as) where
  root := h'.root.trans h.root
  malloced := h'.malloced.trans h.malloced
  hdr a := (h'.hdr a).trans (h.hdr a)
  node a ha := by
    rw [List.mem_append, not_or] at ha
    exact (h'.node a ha.1).trans (h.node a ha.2)
  list dead hd hdis := by
    rw [List.append_assoc]
    refine h'.list _ (h.list dead hd fun a ha => hdis a (by simp [ha])) fun b hb => ?_
    rw [List.mem_append, not_or]
    exact ⟨hab b hb, hdis b (by simp [hb])⟩

/-- A tree that none of the leaf halves is in stays as it is. -/
theorem Freed.rep {as : List Addr} (h : Freed m m' as) {p : Addr} {t : T} (ht : Rep m.cell p t)
    (hn : ∀ a ∈ t.nodes + t.leaves, a ∉ as) : Rep m'.cell p t := by
  refine ht.frame (fun p hp => ?_) (fun a ha => ?_) fun a ha => ?_
  · rwa [cell_eq_nil] at hp ⊢
  · exact cell_congr (h.node a (hn a (Multiset.mem_add.mpr (Or.inl ha))))
  · exact cell_congr (h.node a (hn a (Multiset.mem_add.mpr (Or.inr ha))))

theorem freeNode_freed {k : Addr} (hk : k ≠ 0) :
    ∃ log, freeNode k m = .ok ((), log) ∧ Freed m (storeAll m log) [k] := by
  have hnode : ∀ a ≠ k, (storeAll m [.slot (.child k 0) m.deletedNode, .deletedNode k]).node a = m.node a := fun a ha =>
    Function.update_of_ne ha _ _
  refine ⟨[.slot (.child k 0) m.deletedNode, .deletedNode k], rfl, rfl, rfl, fun a => ?_, fun a ha => ?_, ?_⟩
  · exact slot_hdr m (.child k 0) m.deletedNode a
  · exact hnode a fun he => ha (he ▸ List.mem_singleton_self k)
  · intro dead hd hdis
    refine ⟨rfl, hk, ?_⟩
    have hlink : ((storeAll m [.slot (.child k 0) m.deletedNode, .deletedNode k]).node k).child 0 = m.deletedNode := by
      simp [Storable.store, Mem.store, Mem.setNode]
    rw [hlink]
    refine hd.congr fun a ha => hnode a ?_
    rintro rfl
    exact hdis a (List.mem_singleton_self a) ha

/-- The leaf halves of a tree are not among its inner nodes. -/
theorem leaf_not_node {p q : Addr} {t u : T} (ht : Rep m.cell p t) (hu : Rep m.cell q u) {a : Addr} (ha : a ∈ t.nodes) :
    a ∉ u.leaves := by
  intro hl
  obtain ⟨n, ch, hn⟩ := ht.node_of_mem ha
  obtain ⟨l, hl⟩ := hu.leaf_of_mem hl
  cases hn.symm.trans hl

theorem deleteNode_freed {t : T} {n : Addr} (h : Rep m.cell n t) (hbr : Coding.Branching t) (hne : t ≠ .nil)
    (hnd : t.leaves.Nodup) :
    ∃ log, ∃ as : List Addr, (∀ fuel, t.height < fuel → deleteNode fuel n m = .ok ((), log)) ∧
      Freed m (storeAll m log) as ∧ (as : Multiset Addr) = t.leaves := by
  induction t generalizing m n with
  | nil => exact absurd rfl hne
  | leaf q l =>
      obtain ⟨rfl, h0, hb, -⟩ := rep_leaf.mp h
      obtain ⟨log, hrun, hfreed⟩ := freeNode_freed (m := m) h0
      refine ⟨log, [q], fun fuel hf => ?_, hfreed, rfl⟩
      obtain ⟨fuel, rfl⟩ := Nat.exists_eq_succ_of_ne_zero (by omega : fuel ≠ 0)
      simp [deleteNode, nodeAt_ok h0, hb, hrun, Except.bind, Except.map]
  | node q hdr c ih =>
      obtain ⟨rfl, h0, hb, rfl, hc⟩ := rep_node.mp h
      have hlt := fun i => Tree.height_child_lt q (m.hdr q) c i
      rw [Tree.leaves_node, Fin.sum_univ_two, Multiset.nodup_add] at hnd
      obtain ⟨hnd₀, hnd₁, hdis⟩ := hnd
      have hnz : ∀ i, (m.node q).child i ≠ 0 := fun i h0 => child_ne_nil hbr i ((rep_zero_iff (hc i)).mp h0)
      obtain ⟨log, as, hrun, hfreed, has⟩ := ih 0 (hc 0) (hbr.2 0) (child_ne_nil hbr 0) hnd₀
      have hmem : ∀ {a}, a ∈ as → a ∈ (c 0).leaves := fun ha => has ▸ Multiset.mem_coe.mpr ha
      -- the rest of the tree is still there
      have hout : ∀ a ∈ (c 1).nodes + (c 1).leaves, a ∉ as := by
        intro a ha hin
        rcases Multiset.mem_add.mp ha with ha | ha
        · exact leaf_not_node (hc 1) (hc 0) ha (hmem hin)
        · exact Multiset.disjoint_left.mp hdis (hmem hin) ha
      have hq : (storeAll m log).node q = m.node q := by
        refine hfreed.node q fun hin => ?_
        obtain ⟨l, hl⟩ := (hc 0).leaf_of_mem (hmem hin)
        cases (cell_node h0 hb).symm.trans hl
      obtain ⟨log', bs, hrun', hfreed', hbs⟩ := ih 1 (hfreed.rep (hc 1) hout) (hbr.2 1) (child_ne_nil hbr 1) hnd₁
      refine ⟨log ++ log', bs ++ as, fun fuel hf => ?_, ?_, ?_⟩
      · obtain ⟨fuel, rfl⟩ := Nat.exists_eq_succ_of_ne_zero (by omega : fuel ≠ 0)
        have hrun := hrun fuel (by have := hlt 0; omega)
        have hrun' := hrun' fuel (by have := hlt 1; omega)
        have hb : ¬ (m.node q).bit = 0#64 := hb
        have hnz₀ := hnz 0
        have hnz₁ := hnz 1
        simp [deleteNode, nodeAt_ok h0, hb, hnz₀, hnz₁, hrun, hq, hrun', Except.bind, Except.map]
      · rw [storeAll_append]
        refine hfreed.trans hfreed' fun b hb => hout b (Multiset.mem_add.mpr (Or.inr ?_))
        exact hbs ▸ Multiset.mem_coe.mpr hb
      · rw [Tree.leaves_node, Fin.sum_univ_two, ← has, ← hbs, add_comm, Multiset.coe_add]

theorem freeList_eval : ∀ {as : List Addr} {p : Addr} {fuel : ℕ}, LeafList m p as → as.length < fuel →
    freeList m fuel p = .ok as
  | [], _, fuel, h, hf => by
      obtain rfl : _ = 0 := h
      obtain ⟨fuel, rfl⟩ := Nat.exists_eq_succ_of_ne_zero (by omega : fuel ≠ 0)
      rfl
  | a :: as, p, fuel, h, hf => by
      obtain ⟨rfl, h0, h⟩ := h
      obtain ⟨fuel, rfl⟩ := Nat.exists_eq_succ_of_ne_zero (by omega : fuel ≠ 0)
      rw [freeList, if_neg h0, freeList_eval h (by simpa using hf)]
      rfl

/-- Every leaf half is on the list in the end, and what is passed to `Free` is the list and the structure. -/
theorem Quiet.delete (h : Quiet m g) : ∃ log, ∃ as : List Addr,
    Returns (fun fuel => critbitDelete fuel m) (as.map .addr ++ [.critbit], log) ∧
      LeafList (storeAll m log) (storeAll m log).deletedNode as ∧ (as : Multiset Addr) = leafHalves m.malloced := by
  have heq := h.leafHalves_eq
  by_cases hroot : m.root = 0
  · have hnil := (rep_zero_iff h.rep).mp hroot
    rw [hnil, Tree.leaves_nil, zero_add] at heq
    refine ⟨[], g.dead, ⟨g.dead.length + 1, fun fuel hf => ?_⟩, h.list, heq⟩
    simp [critbitDelete, hroot, freeList_eval h.list hf, Except.bind, Except.map]
  · have hne : g.tree ≠ .nil := fun hn => hroot ((rep_zero_iff h.rep).mpr hn)
    have hnd := h.halves_nodup
    rw [add_assoc, Multiset.nodup_add, Multiset.nodup_add] at hnd
    obtain ⟨-, ⟨hnd, -, hdis⟩, -⟩ := hnd
    obtain ⟨log, as, hrun, hfreed, has⟩ := deleteNode_freed h.rep h.wf.branching hne hnd
    have hlist := hfreed.list g.dead h.list fun a ha hd => by
      refine Multiset.disjoint_left.mp hdis ?_ (Multiset.mem_coe.mpr hd)
      exact has ▸ Multiset.mem_coe.mpr ha
    refine ⟨log, as ++ g.dead, ⟨max (g.tree.height + 1) ((as ++ g.dead).length + 1), fun fuel hf => ?_⟩, hlist, ?_⟩
    · have hrun := hrun fuel (by omega)
      have hfree := freeList_eval hlist (by omega : _ < fuel)
      simp [critbitDelete, hroot, hrun, hfree, Except.bind, Except.map]
    · rw [← heq, ← has, ← Multiset.coe_add]

/-! ## The result -/

/-- `critbit_insert(c, key, value)` on a new structure. -/
def single (key : Word) (value : ℕ) : Mem :=
  storeAll (critbitNew fun _ => .zero) [.zalloc true, .path 1 key, .value 1 value, .slot .root 1]

theorem single_reached (key : Word) (value : ℕ) :
    Reached (fun _ => true) [.insert key value] (single key value) (KMap.empty.bind key value) := by
  have hr : Returns (call (fun _ => true) (.insert key value) (critbitNew fun _ => .zero)) (.errno .ok, single key value) :=
    ⟨0, fun _ _ => rfl⟩
  have habs : Op.Absent .empty (.insert key value) := rfl
  exact .call (.new _) habs hr

end Ptok.Critbit
