import Ptok.Lib.Places
import Ptok.Critnib.Theorems

/-!
# Who owns what

Between calls every node and leaf that malloc returned is in one place: in the tree, in its pool, or parked in the
ring. How many there are is bounded by what the structure once held, and `critnib_delete` frees each of them once.
-/

namespace Ptok.Critnib

open Lib

/-- A place where the structure keeps a pointer. -/
inductive Place
  | tree (path : List (Fin 16))
  | nodePool (i : ℕ)
  | leafPool (i : ℕ)
  | pendingNode (d : Fin 16)
  | pendingLeaf (d : Fin 16)

def nonNull : Ptr → Option Ptr
  | .null => none
  | p => some p

namespace Mem

def nextNode (m : Mem) : Ptr → Ptr
  | .node a => (m.node a).child 0
  | _ => .null

def nextLeaf (m : Mem) (k : Addr) : Addr := if k = 0 then 0 else (m.leaf k).value

/-- What is at a place. -/
def found (m : Mem) : Place → Option Ptr
  | .tree path => follow m.cell m.root path
  | .nodePool i => nonNull (entry m.nextNode m.deletedNode i)
  | .leafPool i => nonNull (leafPtr (entry m.nextLeaf m.deletedLeaf i))
  | .pendingNode d => nonNull (m.pendingDelNodes d)
  | .pendingLeaf d => nonNull (leafPtr (m.pendingDelLeaves d))

/-- Malloc returned it. -/
def Malloced (m : Mem) : Ptr → Prop
  | .null => False
  | .node a => a < m.nodesMalloced
  | .leaf k => 0 < k ∧ k ≤ m.leavesMalloced

instance (m : Mem) : DecidablePred m.Malloced
  | .null => instDecidableFalse
  | .node a => Nat.decLt a m.nodesMalloced
  | .leaf k => inferInstanceAs (Decidable (0 < k ∧ k ≤ m.leavesMalloced))

end Mem

theorem mem_malloced {m : Mem} {p : Ptr} : p ∈ nodesOf m + leavesOf m ↔ m.Malloced p := by
  rw [Multiset.mem_add, mem_nodesOf, mem_leavesOf]
  cases p <;> simp [Mem.Malloced]

theorem malloced_nodup (m : Mem) : (nodesOf m + leavesOf m).Nodup := by
  refine Multiset.nodup_add.mpr ⟨nodesOf_nodup m, leavesOf_nodup m, Multiset.disjoint_left.mpr fun hn hl => ?_⟩
  obtain ⟨a, -, rfl⟩ := mem_nodesOf.mp hn
  obtain ⟨k, -, -, ⟨⟩⟩ := mem_leavesOf.mp hl

/-! ## Places -/

theorem NodeChain.chain {m : Mem} {p : Ptr} {as : List Addr} (h : NodeChain m p as) :
    Chain m.nextNode .null p (as.map .node) := by
  induction as generalizing p with
  | nil => exact h
  | cons a as ih =>
      obtain ⟨rfl, h⟩ := h
      exact ⟨rfl, by simp, ih h⟩

theorem LeafChain.chain {m : Mem} {k : Addr} {ks : List Addr} (h : LeafChain m k ks) :
    Chain m.nextLeaf 0 k ks := by
  induction ks generalizing k with
  | nil => exact h
  | cons b bs ih =>
      obtain ⟨rfl, hk, h⟩ := h
      refine ⟨rfl, hk, ?_⟩
      rw [Mem.nextLeaf, if_neg hk]
      exact ih h

theorem nonNull_eq_some {p q : Ptr} : nonNull p = some q ↔ p = q ∧ p ≠ .null := by
  cases p <;> simp [nonNull]

theorem nonNull_node (as : List Addr) (i : ℕ) :
    nonNull (((as.map Ptr.node)[i]?).getD .null) = (as.map Ptr.node)[i]? := by
  rw [List.getElem?_map]
  cases as[i]? <;> rfl

theorem nonNull_leaf {ks : List Addr} (h : 0 ∉ ks) (i : ℕ) :
    nonNull (leafPtr ((ks[i]?).getD 0)) = (ks.map Ptr.leaf)[i]? := by
  rw [List.getElem?_map]
  cases hk : ks[i]? with
  | none => rfl
  | some k =>
      have : k ≠ 0 := fun h0 => h (h0 ▸ List.mem_of_getElem? hk)
      simp [leafPtr, this, nonNull]

variable {m : Mem} {g : Ghost}

theorem Inv.found_nodePool (h : Inv m g) (i : ℕ) : m.found (.nodePool i) = (g.ns.map Ptr.node)[i]? := by
  rw [Mem.found, h.nodePool.chain.entry_eq rfl, nonNull_node]

theorem Inv.found_leafPool (h : Inv m g) (i : ℕ) : m.found (.leafPool i) = (g.ls.map Ptr.leaf)[i]? := by
  rw [Mem.found, h.leafPool.chain.entry_eq rfl, nonNull_leaf h.leafPool.chain.ne_null]

theorem mem_ptrOwn {p q : Ptr} : q ∈ ptrOwn p ↔ nonNull p = some q := by
  cases p <;> simp [ptrOwn, nonNull, eq_comm]

theorem mem_leafOwn {k : Addr} {q : Ptr} : q ∈ leafOwn k ↔ nonNull (leafPtr k) = some q := by
  by_cases hk : k = 0 <;> simp [leafOwn, leafPtr, hk, nonNull, eq_comm]

/-- The places one after another. -/
def Place.split : Place → (((List (Fin 16) ⊕ ℕ) ⊕ ℕ) ⊕ Fin 16) ⊕ Fin 16
  | .tree path => .inl (.inl (.inl (.inl path)))
  | .nodePool i => .inl (.inl (.inl (.inr i)))
  | .leafPool i => .inl (.inl (.inr i))
  | .pendingNode d => .inl (.inr d)
  | .pendingLeaf d => .inr d

theorem Place.split_bijective : Function.Bijective Place.split := by
  constructor
  · intro p q h
    cases p <;> cases q <;> simp_all [Place.split]
  · rintro ((((path | i) | i) | d) | d)
    · exact ⟨.tree path, rfl⟩
    · exact ⟨.nodePool i, rfl⟩
    · exact ⟨.leafPool i, rfl⟩
    · exact ⟨.pendingNode d, rfl⟩
    · exact ⟨.pendingLeaf d, rfl⟩

/-- Everything the ghost owns, sorted by place. -/
theorem Quiet.owned (h : Quiet m g) :
    g.tree.nodes + g.tree.leaves + (g.ns.map Ptr.node : List Ptr) + (g.ls.map Ptr.leaf : List Ptr) +
      ∑ d, ptrOwn (m.pendingDelNodes d) + ∑ d, leafOwn (m.pendingDelLeaves d) = nodesOf m + leavesOf m := by
  rw [← h.nodes, ← h.leaves, Ghost.nodes, Ghost.leaves, h.fn, h.fl, h.pn, h.pl]
  abel

theorem Quiet.covers (h : Quiet m g) : Covers m.found (nodesOf m + leavesOf m) := by
  rw [← h.owned]
  have htree := Rep.covers h.rep
  have hnodes := Covers.list (g.ns.map Ptr.node)
  have hleaves := Covers.list (g.ls.map Ptr.leaf)
  have hpn : Covers (fun d => nonNull (m.pendingDelNodes d)) (∑ d, ptrOwn (m.pendingDelNodes d)) :=
    .slots fun _ _ => mem_ptrOwn
  have hpl : Covers (fun d => nonNull (leafPtr (m.pendingDelLeaves d))) (∑ d, leafOwn (m.pendingDelLeaves d)) :=
    .slots fun _ _ => mem_leafOwn
  have hall := ((((htree.sum hnodes).sum hleaves).sum hpn).sum hpl).comap Place.split_bijective
  convert hall using 1
  funext pl
  cases pl with
  | tree path => rfl
  | nodePool i => exact h.found_nodePool i
  | leafPool i => exact h.found_leafPool i
  | pendingNode d => rfl
  | pendingLeaf d => rfl

/-! ## critnib_delete -/

theorem mapM_ok {α β : Type} {f : α → Except Stuck β} {r : α → β} (h : ∀ a, f a = .ok (r a)) (l : List α) :
    l.mapM f = .ok (l.map r) := by
  induction l with
  | nil => rfl
  | cons a l ih =>
      rw [List.mapM_cons, h, ih]
      rfl

theorem coe_flatten {α : Type} (L : List (List α)) : ((L.flatten : List α) : Multiset α) = (L.map (↑)).sum := by
  induction L with
  | nil => rfl
  | cons l L ih =>
      rw [List.flatten_cons, ← Multiset.coe_add, ih]
      rfl

/-- `delete_node` frees what a tree owns. -/
theorem deleteNode_eval {t : T} {p : Ptr} (h : Rep m.cell p t) (hne : t ≠ .nil) :
    ∃ l, (∀ fuel, t.height < fuel → deleteNode m fuel p = .ok l) ∧ (l : Multiset Ptr) = t.nodes + t.leaves := by
  induction t generalizing p with
  | nil => exact absurd rfl hne
  | leaf q l =>
      obtain ⟨k, rfl, rfl, -⟩ := rep_leaf.mp h
      refine ⟨[.leaf k], fun fuel hf => ?_, rfl⟩
      obtain ⟨fuel, rfl⟩ := Nat.exists_eq_succ_of_ne_zero (by omega : fuel ≠ 0)
      rfl
  | node q hdr c ih =>
      obtain ⟨a, rfl, rfl, rfl, hc⟩ := rep_node.mp h
      have hchild : ∀ i, ∃ l, (∀ fuel, (c i).height < fuel →
          (if (m.node a).child i = .null then .ok [] else deleteNode m fuel ((m.node a).child i)) = Except.ok l) ∧
          (l : Multiset Ptr) = (c i).nodes + (c i).leaves := by
        intro i
        by_cases hn : (m.node a).child i = .null
        · have hnil := (rep_null_iff (hc i)).mp hn
          exact ⟨[], fun _ _ => if_pos hn, by rw [hnil]; rfl⟩
        · obtain ⟨l, hl, hown⟩ := ih i (hc i) (mt (rep_null_iff (hc i)).mpr hn)
          exact ⟨l, fun fuel hf => (if_neg hn).trans (hl fuel hf), hown⟩
      choose l hl hown using hchild
      have hsum : (((List.finRange 16).map l).flatten : Multiset Ptr) = ∑ i, ((c i).nodes + (c i).leaves) := by
        rw [coe_flatten, Fin.sum_univ_def, List.map_map]
        exact congrArg List.sum (List.map_congr_left fun i _ => hown i)
      refine ⟨((List.finRange 16).map l).flatten ++ [.node a], fun fuel hf => ?_, ?_⟩
      · obtain ⟨fuel, rfl⟩ := Nat.exists_eq_succ_of_ne_zero (by omega : fuel ≠ 0)
        have hlt := Tree.height_child_lt (.node a) ⟨(m.node a).path, (m.node a).shift⟩ c
        rw [deleteNode, mapM_ok fun i => hl i fuel (by have := hlt i; omega)]
        rfl
      · rw [← Multiset.coe_add, hsum, Tree.nodes_node, Tree.leaves_node, Finset.sum_add_distrib, Multiset.cons_add,
          add_comm, Multiset.coe_singleton, Multiset.singleton_add]

theorem deleteNodePool_eval {p : Ptr} {as : List Addr} (h : NodeChain m p as) {fuel : ℕ} (hf : as.length < fuel) :
    deleteNodePool m fuel p = .ok (as.map .node) := by
  induction as generalizing p fuel with
  | nil =>
      cases (show p = .null from h)
      obtain ⟨fuel, rfl⟩ := Nat.exists_eq_succ_of_ne_zero (by omega : fuel ≠ 0)
      rfl
  | cons a as ih =>
      obtain ⟨rfl, h⟩ := h
      obtain ⟨fuel, rfl⟩ := Nat.exists_eq_succ_of_ne_zero (by omega : fuel ≠ 0)
      have hrest := ih h (by simpa using hf)
      simp only [deleteNodePool, hrest]
      rfl

theorem deleteLeafPool_eval {k : Addr} {ks : List Addr} (h : LeafChain m k ks) {fuel : ℕ} (hf : ks.length < fuel) :
    deleteLeafPool m fuel k = .ok (ks.map .leaf) := by
  induction ks generalizing k fuel with
  | nil =>
      cases (show k = 0 from h)
      obtain ⟨fuel, rfl⟩ := Nat.exists_eq_succ_of_ne_zero (by omega : fuel ≠ 0)
      rfl
  | cons b bs ih =>
      obtain ⟨rfl, hk, h⟩ := h
      obtain ⟨fuel, rfl⟩ := Nat.exists_eq_succ_of_ne_zero (by omega : fuel ≠ 0)
      have hrest := ih h (by simpa using hf)
      simp only [deleteLeafPool, if_neg hk, hrest]
      rfl

/-- What is parked is freed slot by slot, empty slots too. -/
theorem count_pending {p : Ptr} (hp : p ≠ .null) :
    ((List.finRange 16).flatMap fun d => [m.pendingDelNodes d, leafPtr (m.pendingDelLeaves d)]).count p =
      Multiset.count p (∑ d, ptrOwn (m.pendingDelNodes d) + ∑ d, leafOwn (m.pendingDelLeaves d)) := by
  rw [List.count_flatMap, ← Finset.sum_add_distrib, Multiset.count_sum', Fin.sum_univ_def]
  congr 1
  refine List.map_congr_left fun d _ => ?_
  have hptr : List.count p [m.pendingDelNodes d] = Multiset.count p (ptrOwn (m.pendingDelNodes d)) := by
    cases m.pendingDelNodes d with
    | null => simp [ptrOwn, hp.symm]
    | node a => exact (Multiset.coe_count p [Ptr.node a]).symm
    | leaf k => exact (Multiset.coe_count p [Ptr.leaf k]).symm
  have hleaf : List.count p [leafPtr (m.pendingDelLeaves d)] = Multiset.count p (leafOwn (m.pendingDelLeaves d)) := by
    by_cases hk : m.pendingDelLeaves d = 0
    · simp [leafOwn, leafPtr, hk, hp.symm]
    · rw [leafOwn, leafPtr, if_neg hk, if_neg hk]
      exact (Multiset.coe_count p [Ptr.leaf _]).symm
  show List.count p ([m.pendingDelNodes d] ++ [leafPtr (m.pendingDelLeaves d)]) = _
  rw [List.count_append, hptr, hleaf, Multiset.count_add]

/-- `critnib_delete` frees everything that malloc returned, and nothing twice. -/
theorem Quiet.delete (h : Quiet m g) : ∃ l, Returns (critnibDelete m) l ∧ l.count .critnib = 1 ∧
    ∀ p ≠ .null, l.count (.ptr p) = if m.Malloced p then 1 else 0 := by
  obtain ⟨tree, htree, hown⟩ : ∃ l, (∀ fuel, g.tree.height < fuel → deleteRoot m fuel = .ok l) ∧
      (l : Multiset Ptr) = g.tree.nodes + g.tree.leaves := by
    by_cases hr : m.root = .null
    · have hnil : g.tree = .nil := rep_null (hr ▸ h.rep)
      exact ⟨[], fun _ _ => if_pos hr, by rw [hnil]; rfl⟩
    · obtain ⟨l, hl, hown⟩ := deleteNode_eval h.rep (mt (rep_null_iff h.rep).mpr hr)
      exact ⟨l, fun fuel hf => (if_neg hr).trans (hl fuel hf), hown⟩
  let pending := (List.finRange 16).flatMap fun d => [m.pendingDelNodes d, leafPtr (m.pendingDelLeaves d)]
  let ptrs := tree ++ g.ns.map .node ++ g.ls.map .leaf ++ pending
  refine ⟨ptrs.map .ptr ++ [.critnib], ?_, ?_, fun p hp => ?_⟩
  · refine ⟨g.tree.height + g.ns.length + g.ls.length + 1, fun fuel hf => ?_⟩
    rw [critnibDelete, htree fuel (by omega), deleteNodePool_eval h.nodePool (by omega : g.ns.length < fuel),
      deleteLeafPool_eval h.leafPool (by omega : g.ls.length < fuel)]
    rfl
  · rw [List.count_append, List.count_eq_zero_of_not_mem (by simp)]
    rfl
  · have hptrs : ptrs.count p = Multiset.count p (nodesOf m + leavesOf m) := by
      rw [List.count_append, count_pending hp, ← Multiset.coe_count, ← Multiset.count_add, ← Multiset.coe_add,
        ← Multiset.coe_add, hown, ← h.owned, add_assoc _ (∑ d, ptrOwn _)]
    rw [List.count_append, List.count_map_of_injective _ _ (fun _ _ => Block.ptr.inj), hptrs,
      Multiset.count_eq_of_nodup (malloced_nodup m), List.count_eq_zero_of_not_mem (by simp), add_zero]
    exact if_congr mem_malloced rfl rfl

/-! ## How much is malloced -/

theorem store_leavesMalloced (m : Mem) {e : Event} (h : e ≠ .mallocLeaf true) :
    (Storable.store m e).leavesMalloced = m.leavesMalloced := by
  show (m.store e).leavesMalloced = _
  cases e with
  | slot s p => obtain ⟨rt, nd, hframe⟩ := slot_frame m s p; rw [hframe]
  | path n w => cases n <;> rfl
  | shift n sh => cases n <;> rfl
  | mallocNode ok => cases ok <;> rfl
  | mallocLeaf ok =>
      cases ok with
      | false => rfl
      | true => exact absurd rfl h
  | _ => rfl

theorem store_nodesMalloced (m : Mem) {e : Event} (h : e ≠ .mallocNode true) :
    (Storable.store m e).nodesMalloced = m.nodesMalloced := by
  show (m.store e).nodesMalloced = _
  cases e with
  | slot s p => obtain ⟨rt, nd, hframe⟩ := slot_frame m s p; rw [hframe]
  | path n w => cases n <;> rfl
  | shift n sh => cases n <;> rfl
  | mallocLeaf ok => cases ok <;> rfl
  | mallocNode ok =>
      cases ok with
      | false => rfl
      | true => exact absurd rfl h
  | _ => rfl

theorem store_deletedNode (m : Mem) {e : Event} (h : ∀ n, e ≠ .deletedNode n) :
    (Storable.store m e).deletedNode = m.deletedNode := by
  show (m.store e).deletedNode = _
  cases e with
  | slot s p => obtain ⟨rt, nd, hframe⟩ := slot_frame m s p; rw [hframe]
  | path n w => cases n <;> rfl
  | shift n sh => cases n <;> rfl
  | mallocLeaf ok => cases ok <;> rfl
  | mallocNode ok => cases ok <;> rfl
  | deletedNode n => exact absurd rfl (h n)
  | _ => rfl

/-- No leaf is malloced, and a node only from an empty pool, which is still empty afterwards. -/
structure Grows (m m' : Mem) : Prop where
  leaves : m'.leavesMalloced = m.leavesMalloced
  pool : m.deletedNode = .null → m'.deletedNode = .null
  nodes : m'.nodesMalloced = m.nodesMalloced ∨ m'.deletedNode = .null

namespace Grows

theorem refl (m : Mem) : Grows m m := ⟨rfl, id, Or.inl rfl⟩

theorem trans ⦃m m' m'' : Mem⦄ (h : Grows m m') (h' : Grows m' m'') : Grows m m'' where
  leaves := h'.leaves.trans h.leaves
  pool hn := h'.pool (h.pool hn)
  nodes := by
    rcases h'.nodes with hn' | hn'
    · rcases h.nodes with hn | hn
      · exact Or.inl (hn'.trans hn)
      · exact Or.inr (h'.pool hn)
    · exact Or.inr hn'

theorem store {e : Event} (hl : e ≠ .mallocLeaf true) (hn : e ≠ .mallocNode true) (hd : ∀ n, e ≠ .deletedNode n)
    (m : Mem) : Grows m (Storable.store m e) where
  leaves := store_leavesMalloced m hl
  pool h := (store_deletedNode m hd).trans h
  nodes := Or.inl (store_nodesMalloced m hn)

theorem allocNode (ok : ℕ → Bool) : Wr.Relates Grows (allocNode ok) := by
  intro m n log h
  obtain ⟨n', l, l', hn', h₁, rfl⟩ := Wr.bind_ok.mp h
  cases hn'
  by_cases hd : m.deletedNode = .null
  · rw [if_pos hd] at h₁
    simp only [mallocNode, Wr.bind_apply, Wr.read_apply, Wr.emit_apply, Wr.pure_apply, Except.bind, Except.map] at h₁
    cases h₁
    have hnull := (store_deletedNode m (e := .mallocNode (ok m.mallocs)) (by simp)).trans hd
    exact ⟨store_leavesMalloced m (by simp), fun _ => hnull, Or.inr hnull⟩
  · rw [if_neg hd] at h₁
    obtain ⟨x, l₁, l₂, hx, h₂, rfl⟩ := Wr.bind_ok.mp h₁
    obtain ⟨-, rfl⟩ := Wr.query_ok.mp hx
    cases h₂
    exact ⟨store_leavesMalloced m (by simp), fun hn => absurd hn hd, Or.inl (store_nodesMalloced m (by simp))⟩

theorem freeLeaf (k : Addr) : Wr.Relates Grows (freeLeaf k) := by
  unfold Critnib.freeLeaf
  split
  · exact .pure refl _
  · refine .bind trans (.read refl _) fun head => .bind trans (.emit ?_) fun _ => .emit ?_
    · exact store (by simp) (by simp) (by simp)
    · exact store (by simp) (by simp) (by simp)

theorem linkSplit (key path : Word) (sh : ℕ) (a kn n : Ptr) (parent : Slot Ptr (Fin 16)) :
    Wr.Relates Grows (linkSplit key path sh a kn n parent) := by
  have hslot : ∀ s p, Wr.Relates Grows (Wr.emit (.slot s p)) := fun s p => .emit (store (by simp) (by simp) (by simp))
  refine .bind trans (.forM refl trans (fun i => hslot _ _) _) fun _ => ?_
  refine .bind trans (hslot _ _) fun _ => .bind trans (hslot _ _) fun _ => ?_
  refine .bind trans (.emit ?_) fun _ => .bind trans (.emit ?_) fun _ => hslot _ _
  · exact store (by simp) (by simp) (by simp)
  · exact store (by simp) (by simp) (by simp)

theorem insertSplit (ok : ℕ → Bool) (key : Word) (k : Addr) (n : Ptr) (parent : Slot Ptr (Fin 16)) :
    Wr.Relates Grows (insertSplit ok key k n parent) := by
  refine .bind trans (.query refl _) fun path => ?_
  by_cases hat : path ^^^ key = 0#64
  · simp only [if_pos hat]
    split
    · exact .bind trans (freeLeaf k) fun _ => .pure refl _
    · exact .stuck _
  · simp only [if_neg hat]
    refine .bind trans (allocNode ok) fun a => ?_
    split
    · exact .bind trans (freeLeaf k) fun _ => .pure refl _
    · exact .bind trans (linkSplit _ _ _ _ _ _ _) fun _ => .pure refl _

/-- `critnib_insert` once it has its leaf. -/
theorem insertLeaf (ok : ℕ → Bool) (fuel : ℕ) (key : Word) (k : Addr) :
    Wr.Relates Grows (insertLeaf ok fuel key k) := by
  have hslot : ∀ s p, Wr.Relates Grows (Wr.emit (.slot s p)) := fun s p => .emit (store (by simp) (by simp) (by simp))
  refine .bind trans (.read refl _) fun root => ?_
  split
  · exact .bind trans (hslot _ _) fun _ => .pure refl _
  · refine .bind trans (.query refl _) fun ⟨prev, parent, n⟩ => ?_
    dsimp only
    split
    · exact .bind trans (.query refl _) fun x => .bind trans (hslot _ _) fun _ => .pure refl _
    · exact insertSplit ok key k n parent

end Grows

/-- `alloc_leaf` mallocs only from an empty pool. -/
theorem allocLeaf_leaves {ok : ℕ → Bool} {k : Addr} {log : List Event} (h : allocLeaf ok m = .ok (k, log)) :
    ((storeAll m log).leavesMalloced = m.leavesMalloced ∨
      (m.deletedLeaf = 0 ∧ (storeAll m log).leavesMalloced = m.leavesMalloced + 1)) ∧
      (storeAll m log).nodesMalloced = m.nodesMalloced ∧ (storeAll m log).deletedNode = m.deletedNode := by
  obtain ⟨k', l, l', hk', h₁, rfl⟩ := Wr.bind_ok.mp h
  cases hk'
  by_cases hd : m.deletedLeaf = 0
  · rw [if_pos hd] at h₁
    simp only [mallocLeaf, Wr.bind_apply, Wr.read_apply, Wr.emit_apply, Wr.pure_apply, Except.bind, Except.map] at h₁
    cases h₁
    refine ⟨?_, store_nodesMalloced m (by simp), store_deletedNode m (by simp)⟩
    cases hb : ok m.mallocs with
    | false => exact Or.inl (store_leavesMalloced m (by simp [hb]))
    | true =>
        right
        simp only [storeAll_nil, hb]
        exact ⟨hd, rfl⟩
  · rw [if_neg hd] at h₁
    cases h₁
    exact ⟨Or.inl rfl, rfl, rfl⟩

theorem critnibInsert_grows {ok : ℕ → Bool} {fuel : ℕ} {key : Word} {value : ℕ} {e : Errno} {log : List Event}
    (h : critnibInsert ok fuel key value m = .ok (e, log)) :
    ((storeAll m log).leavesMalloced = m.leavesMalloced ∨
      (m.deletedLeaf = 0 ∧ (storeAll m log).leavesMalloced = m.leavesMalloced + 1)) ∧
      ((storeAll m log).nodesMalloced = m.nodesMalloced ∨ (storeAll m log).deletedNode = .null) := by
  obtain ⟨k, l, l', hk, h₁, rfl⟩ := Wr.bind_ok.mp h
  obtain ⟨hl, hn, -⟩ := allocLeaf_leaves hk
  have hrest : Grows (storeAll m l) (storeAll (storeAll m l) l') := by
    have hcode : Wr.Relates Grows (if k = 0 then pure .ENOMEM else do
        Wr.emit (.key k key)
        Wr.emit (.value k value)
        insertLeaf ok fuel key k) := by
      split
      · exact .pure .refl _
      · refine .bind Grows.trans (.emit ?_) fun _ => .bind Grows.trans (.emit ?_) fun _ => .insertLeaf ok fuel key k
        · exact .store (by simp) (by simp) (by simp)
        · exact .store (by simp) (by simp) (by simp)
    exact hcode _ _ _ h₁
  rw [storeAll_append]
  exact ⟨by rwa [hrest.leaves], hrest.nodes.imp_left fun h => h.trans hn⟩

/-- Nothing is malloced. -/
def NoMalloc (m m' : Mem) : Prop := m'.leavesMalloced = m.leavesMalloced ∧ m'.nodesMalloced = m.nodesMalloced

namespace NoMalloc

theorem refl (m : Mem) : NoMalloc m m := ⟨rfl, rfl⟩

theorem trans ⦃m m' m'' : Mem⦄ (h : NoMalloc m m') (h' : NoMalloc m' m'') : NoMalloc m m'' :=
  ⟨h'.1.trans h.1, h'.2.trans h.2⟩

theorem emit {e : Event} (hl : e ≠ .mallocLeaf true) (hn : e ≠ .mallocNode true) : Wr.Relates NoMalloc (Wr.emit e) :=
  .emit fun m => ⟨store_leavesMalloced m hl, store_nodesMalloced m hn⟩

theorem recycle : Wr.Relates NoMalloc recycle := by
  have hnode : ∀ p, Wr.Relates NoMalloc (freeNode p) := by
    intro p
    cases p with
    | null => exact .pure refl _
    | leaf k => exact .stuck _
    | node a =>
        exact .bind trans (.read refl _) fun _ => .bind trans (emit (by simp) (by simp)) fun _ =>
          emit (by simp) (by simp)
  have hleaf : ∀ k, Wr.Relates NoMalloc (freeLeaf k) := by
    intro k
    unfold freeLeaf
    split
    · exact .pure refl _
    · exact .bind trans (.read refl _) fun _ => .bind trans (emit (by simp) (by simp)) fun _ =>
        emit (by simp) (by simp)
  refine .bind trans (.read refl _) fun r => .bind trans (emit (by simp) (by simp)) fun _ => ?_
  refine .bind trans (.read refl _) fun p => .bind trans (hnode p) fun _ => ?_
  refine .bind trans (.read refl _) fun k => .bind trans (hleaf k) fun _ => ?_
  exact .bind trans (emit (by simp) (by simp)) fun _ => .bind trans (emit (by simp) (by simp)) fun _ => .pure refl _

theorem removeRoot (d : Fin 16) (key : Word) (k : Addr) : Wr.Relates NoMalloc (removeRoot d key k) := by
  refine .bind trans (.read refl _) fun k_ => ?_
  split
  · exact .bind trans (emit (by simp) (by simp)) fun _ => .bind trans (.read refl _) fun _ =>
      .bind trans (emit (by simp) (by simp)) fun _ => .pure refl _
  · exact .pure refl _

theorem shrink (d : Fin 16) (s : Slot Ptr (Fin 16)) (n : Ptr) (k : Addr) : Wr.Relates NoMalloc (shrink d s n k) := by
  refine .bind trans (.query refl _) fun x => ?_
  split
  · exact .bind trans (.read refl _) fun _ => .bind trans (emit (by simp) (by simp)) fun _ => .pure refl _
  · exact .stuck _
  · exact .bind trans (emit (by simp) (by simp)) fun _ => .bind trans (.read refl _) fun _ =>
      .bind trans (emit (by simp) (by simp)) fun _ => .bind trans (emit (by simp) (by simp)) fun _ => .pure refl _

theorem removeLeaf (d : Fin 16) (key : Word) (s : Slot Ptr (Fin 16)) (n : Ptr) (k : Addr) :
    Wr.Relates NoMalloc (removeLeaf d key s n k) :=
  .bind trans (.query refl _) fun _ => .bind trans (emit (by simp) (by simp)) fun _ => shrink d s n k

theorem critnibRemove (fuel : ℕ) (key : Word) : Wr.Relates NoMalloc (critnibRemove fuel key) := by
  refine .bind trans (.read refl _) fun n => ?_
  split
  · exact .pure refl _
  · refine .bind trans recycle fun d => ?_
    split
    · exact removeRoot d key _
    · refine .bind trans (.query refl _) fun r => ?_
      split
      · exact .pure refl _
      · refine .bind trans (.read refl _) fun k_ => ?_
        split
        · exact .pure refl _
        · exact removeLeaf d key _ _ _

end NoMalloc

/-- A call mallocs at most one leaf, from an empty pool, and a node only if the pool of nodes is empty afterwards. -/
theorem call_grows {ok : ℕ → Bool} {m m' : Mem} {op : Op} {r : Ret} (hr : Returns (call ok op m) (r, m')) :
    (m'.leavesMalloced = m.leavesMalloced ∨ (m.deletedLeaf = 0 ∧ m'.leavesMalloced = m.leavesMalloced + 1)) ∧
      (m'.nodesMalloced = m.nodesMalloced ∨ m'.deletedNode = .null) := by
  cases op with
  | insert key value =>
      rw [call_insert] at hr
      obtain ⟨fuel, r', hx, he⟩ := hr.of_map
      cases he
      obtain ⟨log, hlog, hm⟩ := Wr.exec_ok.mp hx
      rw [hm]
      exact critnibInsert_grows hlog
  | remove key =>
      rw [call_remove] at hr
      obtain ⟨fuel, r', hx, he⟩ := hr.of_map
      cases he
      obtain ⟨log, hlog, hm⟩ := Wr.exec_ok.mp hx
      rw [hm]
      obtain ⟨hl, hn⟩ := NoMalloc.critnibRemove fuel key m _ _ hlog
      exact ⟨Or.inl hl, Or.inl hn⟩
  | get key =>
      obtain ⟨rfl, -⟩ := get_mem hr
      exact ⟨Or.inl rfl, Or.inl rfl⟩
  | findLe key =>
      obtain ⟨rfl, -⟩ := findLe_mem hr
      exact ⟨Or.inl rfl, Or.inl rfl⟩

/-! ## Bounds -/

/-- The number of keys bound in a map. -/
noncomputable def boundKeys (f : KMap) : ℕ := {k | f k ≠ none}.ncard

theorem Calls.snoc {ok : ℕ → Bool} {m m' m'' : Mem} {ops : List Op} {op : Op} {r : Ret} (h : Calls ok m ops m')
    (hr : Returns (call ok op m') (r, m'')) : Calls ok m (ops ++ [op]) m'' := by
  induction h with
  | nil m => exact .cons hr (.nil _)
  | cons hr' _ ih => exact .cons hr' (ih hr)

/-- Everything that malloc returned is in one place, the pools end, and `critnib_delete` frees each thing once. -/
structure Owned (m : Mem) : Prop where
  places : ∀ p, m.Malloced p → ∃! pl, m.found pl = some p
  only : ∀ pl p, m.found pl = some p → m.Malloced p
  nodePool : ∃ n, ∀ i ≥ n, m.found (.nodePool i) = none
  leafPool : ∃ n, ∀ i ≥ n, m.found (.leafPool i) = none
  delete : ∃ l, Returns (critnibDelete m) l ∧ l.count .critnib = 1 ∧
    ∀ p ≠ .null, l.count (.ptr p) = if m.Malloced p then 1 else 0

end Ptok.Critnib
