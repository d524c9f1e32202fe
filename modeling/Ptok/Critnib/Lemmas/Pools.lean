import Ptok.Critnib.Lemmas.Steps

/-!
# The pools and the ring

What `alloc_leaf`, `alloc_node`, `free_leaf` and `free_node` store, and the recycling at the start of
`critnib_remove`.
-/

namespace Ptok.Critnib

open Lib

variable {m : Mem} {g : Ghost}

theorem NodeChain.null {as : List Addr} (h : NodeChain m .null as) : as = [] := by
  cases as with
  | nil => rfl
  | cons a as => cases h.1

theorem LeafChain.zero {ks : List Addr} (h : LeafChain m 0 ks) : ks = [] := by
  cases ks with
  | nil => rfl
  | cons k ks => exact absurd h.1 (by rintro rfl; exact h.2.1 rfl)

/-- `alloc_leaf` fails, or it hands out a leaf and changes nothing but the pool or malloc's count. -/
theorem allocLeaf_spec (h : Inv m g) (ok : ℕ → Bool) :
    (Does (allocLeaf ok) m g 0 [.mallocLeaf false] g ∧ ∃ i, ok i = false) ∨
      ∃ k e ls dl n, Does (allocLeaf ok) m g k [e] { g with ls := ls, fl := .leaf k ::ₘ g.fl } ∧ k ≠ 0 ∧
        storeAll m [e] = { m with deletedLeaf := dl, leavesMalloced := n } := by
  by_cases hd : m.deletedLeaf = 0
  · cases hb : ok m.mallocs with
    | false =>
        left
        refine ⟨⟨?_, .single (.mallocLeafFail g)⟩, _, hb⟩
        simp [allocLeaf, hd, mallocLeaf, hb, Except.bind, Except.map]
    | true =>
        right
        refine ⟨m.leavesMalloced + 1, .mallocLeaf true, g.ls, m.deletedLeaf, m.leavesMalloced + 1,
          ⟨?_, .single (.mallocLeaf g)⟩, Nat.succ_ne_zero _, rfl⟩
        simp [allocLeaf, hd, mallocLeaf, hb, Except.bind, Except.map]
  · right
    have hc := h.leafPool
    cases hls : g.ls with
    | nil => rw [hls] at hc; exact absurd hc hd
    | cons k ks =>
        rw [hls] at hc
        obtain ⟨rfl, hk, -⟩ := hc
        refine ⟨m.deletedLeaf, .deletedLeaf (m.leaf m.deletedLeaf).value, ks, (m.leaf m.deletedLeaf).value,
          m.leavesMalloced, ⟨?_, .single (.popLeaf hls)⟩, hk, rfl⟩
        simp [allocLeaf, hd, Except.bind, Except.map]

theorem allocNode_spec (h : Inv m g) (ok : ℕ → Bool) :
    (Does (allocNode ok) m g .null [.mallocNode false] g ∧ ∃ i, ok i = false) ∨
      ∃ a e ns dn n, Does (allocNode ok) m g (.node a) [e] { g with ns := ns, fn := .node a ::ₘ g.fn } ∧
        storeAll m [e] = { m with deletedNode := dn, nodesMalloced := n } ∧
        ∀ b ≠ a, b < n → b < m.nodesMalloced := by
  cases hns : g.ns with
  | nil =>
      have hd : m.deletedNode = .null := by
        have := h.nodePool
        rwa [hns] at this
      cases hb : ok m.mallocs with
      | false =>
          left
          refine ⟨⟨?_, .single (.mallocNodeFail g)⟩, _, hb⟩
          simp [allocNode, hd, mallocNode, hb, Except.bind, Except.map]
      | true =>
          right
          refine ⟨m.nodesMalloced, .mallocNode true, g.ns, m.deletedNode, m.nodesMalloced + 1,
            ⟨?_, .single (.mallocNode g)⟩, rfl,
            fun b hb hlt => lt_of_le_of_ne (Nat.le_of_lt_succ hlt) hb⟩
          simp [allocNode, hd, mallocNode, hb, Except.bind, Except.map]
  | cons a as =>
      right
      have hc := h.nodePool
      rw [hns] at hc
      obtain ⟨hd, -⟩ := hc
      refine ⟨a, .deletedNode ((m.node a).child 0), as, (m.node a).child 0, m.nodesMalloced,
        ⟨?_, .single (.popNode hns)⟩, rfl, fun b _ hlt => hlt⟩
      simp [allocNode, hd, Mem.nodeAt, Except.bind, Except.map]

/-- Only nodes of the tree `t` are written, and what is malloced is in it. -/
structure Frame (m m' : Mem) (t : T) : Prop where
  node : ∀ b, .node b ∉ t.nodes → m'.node b = m.node b
  malloced : ∀ b, .node b ∉ t.nodes → b < m'.nodesMalloced → b < m.nodesMalloced

theorem Frame.of_eq {m m' : Mem} {t : T} (hn : m'.node = m.node) (hc : m'.nodesMalloced = m.nodesMalloced) :
    Frame m m' t :=
  ⟨fun b _ => by rw [hn], fun b _ h => hc ▸ h⟩

/-- The stores of `free_leaf`. -/
def freeLeafLog (head k : Addr) : List Event := if k = 0 then [] else [.value k head, .deletedLeaf k]

/-- The stores of `free_node`. -/
def freeNodeLog (head : Ptr) : Ptr → List Event
  | .node a => [.slot (.child (.node a) 0) head, .deletedNode (.node a)]
  | _ => []

theorem freeLeaf_spec {k : Addr} {fl : Multiset Ptr} (hk : k ≠ 0) (hfl : g.fl = .leaf k ::ₘ fl) :
    Does (freeLeaf k) m g () (freeLeafLog m.deletedLeaf k) { g with ls := k :: g.ls, fl := fl } := by
  have hheld : Step m g (.value k m.deletedLeaf) g :=
    .held (.value (hfl ▸ Multiset.mem_cons_self _ _) _)
  rw [freeLeafLog, if_neg hk, freeLeaf, if_neg hk]
  exact .read (.emit hheld ⟨rfl, .single (.pushLeaf hfl (by simp [Mem.store, Mem.setLeaf]))⟩)

theorem freeNode_spec {a : Addr} {fn : Multiset Ptr} (hfn : g.fn = .node a ::ₘ fn) :
    Does (freeNode (.node a)) m g () (freeNodeLog m.deletedNode (.node a)) { g with ns := a :: g.ns, fn := fn } := by
  have hheld : Step m g (.slot (.child (.node a) 0) m.deletedNode) g :=
    .held (.slot (hfn ▸ Multiset.mem_cons_self _ _) _ _)
  exact .read (.emit hheld ⟨rfl, .single (.pushNode hfn (by simp [Mem.store, Mem.setNode]))⟩)

/-- A slot of the ring holds nothing or a node. -/
theorem Inv.pn_cases (h : Inv m g) (d : Fin 16) : g.pn d = .null ∨ ∃ a, g.pn d = .node a := by
  cases hd : g.pn d with
  | null => exact Or.inl rfl
  | node a => exact Or.inr ⟨a, rfl⟩
  | leaf k =>
      have hmem : Ptr.leaf k ∈ g.nodes := by
        simp only [Ghost.nodes, Multiset.mem_add, Multiset.mem_sum, Finset.mem_univ, true_and]
        refine Or.inl (Or.inr ⟨d, ?_⟩)
        rw [hd]
        exact Multiset.mem_singleton_self _
      rw [h.nodes] at hmem
      obtain ⟨a, -, ⟨⟩⟩ := mem_nodesOf.mp hmem

/-- The stores of the recycling: the number, the pools, the ring. -/
def recycleLog (m : Mem) : List Event :=
  .removeCount (m.removeCount + 1) ::
    (freeNodeLog m.deletedNode (m.pendingDelNodes m.del) ++
      (freeLeafLog m.deletedLeaf (m.pendingDelLeaves m.del) ++
        [.pendingDelNode m.del .null, .pendingDelLeaf m.del 0]))

theorem freeNodeLog_frame (m : Mem) (head p : Ptr) :
    ∃ dn nd, storeAll m (freeNodeLog head p) = { m with deletedNode := dn, node := nd } := by
  cases p with
  | null => exact ⟨_, _, rfl⟩
  | node a => exact ⟨_, _, rfl⟩
  | leaf k => exact ⟨_, _, rfl⟩

theorem freeLeafLog_frame (m : Mem) (head k : Addr) :
    ∃ dl lf, storeAll m (freeLeafLog head k) = { m with deletedLeaf := dl, leaf := lf } := by
  unfold freeLeafLog
  split
  · exact ⟨_, _, rfl⟩
  · exact ⟨_, _, rfl⟩

theorem recycleLog_frame (m : Mem) :
    ∃ dn nd dl lf, storeAll m (recycleLog m) =
      { m with
        deletedNode := dn
        node := nd
        deletedLeaf := dl
        leaf := lf
        removeCount := m.removeCount + 1
        pendingDelNodes := Function.update m.pendingDelNodes m.del .null
        pendingDelLeaves := Function.update m.pendingDelLeaves m.del 0 } := by
  obtain ⟨dn, nd, hn⟩ := freeNodeLog_frame (m.store (.removeCount (m.removeCount + 1))) m.deletedNode
    (m.pendingDelNodes m.del)
  obtain ⟨dl, lf, hl⟩ := freeLeafLog_frame
    { m.store (.removeCount (m.removeCount + 1)) with deletedNode := dn, node := nd } m.deletedLeaf
    (m.pendingDelLeaves m.del)
  refine ⟨dn, nd, dl, lf, ?_⟩
  simp only [recycleLog, storeAll_cons, storeAll_append, storeAll_nil]
  erw [hn, hl]
  rfl

/-- After the recycling the structure is as between two calls, and the slot of the ring is free. -/
theorem recycle_spec (h : Quiet m g) :
    ∃ g', Does recycle m g m.del (recycleLog m) g' ∧ Quiet (storeAll m (recycleLog m)) g' ∧ g'.tree = g.tree := by
  obtain ⟨dn, nd, dl, lf, hframe⟩ := recycleLog_frame m
  have hdraw := Step.draw (m := m) g
  let m₁ := m.store (.removeCount (m.removeCount + 1))
  -- the parked node and the parked leaf go to the pools
  obtain ⟨ns, hnode⟩ : ∃ ns, Does (freeNode (m.pendingDelNodes m.del)) m₁
      { g with
        pn := Function.update g.pn m.del .null
        pl := Function.update g.pl m.del 0
        fn := ptrOwn (g.pn m.del) + g.fn
        fl := leafOwn (g.pl m.del) + g.fl } () (freeNodeLog m.deletedNode (m.pendingDelNodes m.del))
      { g with
        ns := ns
        pn := Function.update g.pn m.del .null
        pl := Function.update g.pl m.del 0
        fn := 0
        fl := leafOwn (g.pl m.del) + g.fl } := by
    rw [← h.pn, h.fn]
    rcases h.pn_cases m.del with hp | ⟨a, hp⟩
    · rw [hp]
      exact ⟨g.ns, rfl, .nil _ _⟩
    · rw [hp]
      exact ⟨a :: g.ns, @freeNode_spec m₁ _ a 0 rfl⟩
  let m₂ := storeAll m₁ (freeNodeLog m.deletedNode (m.pendingDelNodes m.del))
  have hm₂ : m₂.deletedLeaf = m.deletedLeaf := by
    obtain ⟨dn', nd', hn⟩ := freeNodeLog_frame m₁ m.deletedNode (m.pendingDelNodes m.del)
    show (storeAll m₁ _ : Mem).deletedLeaf = _
    rw [hn]
    rfl
  obtain ⟨ls, hleaf⟩ : ∃ ls, Does (freeLeaf (m.pendingDelLeaves m.del)) m₂
      { g with
        ns := ns
        pn := Function.update g.pn m.del .null
        pl := Function.update g.pl m.del 0
        fn := 0
        fl := leafOwn (g.pl m.del) + g.fl } () (freeLeafLog m.deletedLeaf (m.pendingDelLeaves m.del))
      { g with
        ns := ns
        ls := ls
        pn := Function.update g.pn m.del .null
        pl := Function.update g.pl m.del 0
        fn := 0
        fl := 0 } := by
    rw [← h.pl, h.fl]
    by_cases hk : g.pl m.del = 0
    · rw [hk]
      exact ⟨g.ls, by simp [freeLeaf, freeLeafLog], .nil _ _⟩
    · refine ⟨g.pl m.del :: g.ls, ?_⟩
      rw [← hm₂]
      refine freeLeaf_spec (m := m₂) hk ?_
      simp [leafOwn, hk]
  let g' : Ghost := { g with
    ns := ns
    ls := ls
    pn := Function.update g.pn m.del .null
    pl := Function.update g.pl m.del 0
    fn := 0
    fl := 0 }
  have hpend : m₁.pendingDelNodes m.del = m.pendingDelNodes m.del := rfl
  have hpend' : m₂.pendingDelLeaves m.del = m.pendingDelLeaves m.del := by
    obtain ⟨dn', nd', hn⟩ := freeNodeLog_frame m₁ m.deletedNode (m.pendingDelNodes m.del)
    show (storeAll m₁ _ : Mem).pendingDelLeaves m.del = _
    rw [hn]
    rfl
  have hdoes : Does recycle m g m.del (recycleLog m) g' := by
    refine .read (.emit hdraw (.read (.bind hnode (.read ?_))))
    show Does (freeLeaf (m₂.pendingDelLeaves m.del) >>= _) m₂ _ _ _ _
    rw [hpend']
    exact .bind hleaf (.emit (.ringNode _ _ _) (.emit (.ringLeaf _ _ _) (.pure _ _ _)))
  refine ⟨g', hdoes, ⟨hdoes.path.inv h.toInv, h.wf, ?_, ?_, rfl, rfl⟩, rfl⟩
  · rw [hframe, h.pn.symm]
  · rw [hframe, h.pl.symm]

end Ptok.Critnib
