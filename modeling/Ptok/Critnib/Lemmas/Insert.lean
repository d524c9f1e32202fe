import Ptok.Critnib.Lemmas.Pools

/-!
# critnib_insert

The five outcomes: no leaf, the key is bound, no node, a leaf in an empty slot, a leaf beside a subtree that the
key leaves.
-/

namespace Ptok.Critnib

open Lib

variable {m : Mem} {g : Ghost}

/-! ## The node of a split -/

/-- The stores into the new node before it is linked. -/
def splitLog (key path : Word) (sh : ℕ) (a : Addr) (kn n : Ptr) : List Event :=
  (List.finRange 16).map (fun i => Event.slot (.child (.node a) i) .null) ++
    [.slot (.child (.node a) (sliceIndex key sh)) kn, .slot (.child (.node a) (sliceIndex path sh)) n,
      .shift (.node a) sh, .path (.node a) (key &&& pathMask sh)]

theorem linkSplit_apply (key path : Word) (sh : ℕ) (a : Addr) (kn n : Ptr) (parent : Slot Ptr (Fin 16)) (m : Mem) :
    linkSplit key path sh (.node a) kn n parent m =
      .ok ((), splitLog key path sh a kn n ++ [.slot parent (.node a)]) := by
  simp only [linkSplit, Wr.bind_apply, Wr.forM_emit_apply, Wr.emit_apply, Except.bind, Except.map, splitLog,
    List.append_assoc, List.cons_append, List.nil_append]

theorem splitLog_held {key path : Word} {sh : ℕ} {a : Addr} {kn n : Ptr} (h : .node a ∈ g.fn) :
    ∀ e ∈ splitLog key path sh a kn n, Held g e := by
  intro e he
  simp only [splitLog, List.mem_append, List.mem_map, List.mem_cons, List.not_mem_nil, or_false] at he
  rcases he with ⟨i, -, rfl⟩ | rfl | rfl | rfl | rfl
  · exact .slot h _ _
  · exact .slot h _ _
  · exact .slot h _ _
  · exact .shift h _
  · exact .path h _

theorem setNode_setNode (m : Mem) (a : Addr) (f f' : Node → Node) :
    (m.setNode (.node a) f).setNode (.node a) f' = m.setNode (.node a) (f' ∘ f) := by
  simp [Mem.setNode]

theorem store_child (m : Mem) (n : Ptr) (i : Fin 16) (p : Ptr) :
    Storable.store m (.slot (.child n i) p) =
      m.setNode n fun x => { x with child := Function.update x.child i p } := rfl

theorem store_shift (m : Mem) (n : Ptr) (sh : ℕ) :
    Storable.store m (.shift n sh) = m.setNode n fun x => { x with shift := sh } := rfl

theorem store_path (m : Mem) (n : Ptr) (w : Word) :
    Storable.store m (.path n w) = m.setNode n fun x => { x with path := w } := rfl

theorem cell_setNode_ne (m : Mem) {a : Addr} (f : Node → Node) {p : Ptr} (hp : p ≠ .node a) :
    (m.setNode (.node a) f).cell p = m.cell p := by
  cases p with
  | null => rfl
  | leaf k => rfl
  | node b =>
      have hb : b ≠ a := fun h => hp (by rw [h])
      simp [Mem.cell, Mem.setNode, Function.update_of_ne hb]

theorem storeAll_clear (a : Addr) (is : List (Fin 16)) (m : Mem) :
    storeAll m (is.map fun i => Event.slot (.child (.node a) i) .null) =
      m.setNode (.node a) fun x => { x with child := fun i => if i ∈ is then .null else x.child i } := by
  induction is generalizing m with
  | nil => simp [Mem.setNode]
  | cons i is ih =>
      rw [List.map_cons, storeAll_cons, ih, store_child, setNode_setNode]
      congr 1
      funext x
      simp only [Function.comp, Node.mk.injEq, and_true]
      funext j
      by_cases hj : j = i
      · subst hj
        simp
      · simp [hj]

/-- Together they fill the node. -/
theorem storeAll_splitLog (key path : Word) (sh : ℕ) (a : Addr) (kn n : Ptr) (m : Mem) :
    storeAll m (splitLog key path sh a kn n) = m.setNode (.node a) fun _ =>
      { child := Function.update (Function.update (fun _ => .null) (sliceIndex key sh) kn) (sliceIndex path sh) n
        path := key &&& pathMask sh
        shift := sh } := by
  rw [splitLog, storeAll_append, storeAll_clear]
  simp only [storeAll_cons, storeAll_nil, store_child, store_shift, store_path, setNode_setNode]
  congr 1
  funext x
  simp

/-- Below the node are the leaf and the subtree that was there. -/
theorem splitLog_rep {key path : Word} {a k : Addr} {n : Ptr} {old : T} (hat : path ^^^ key ≠ 0#64)
    (hold : Rep m.cell n old) (ha : .node a ∉ old.nodes) :
    Rep (storeAll m (splitLog key path (splitShift (path ^^^ key)) a (.leaf k) n)).cell (.node a)
      (splitTree a path key k (m.leaf k) old) := by
  rw [storeAll_splitLog]
  refine rep_node.mpr ⟨a, rfl, rfl, ?_, fun i => ?_⟩
  · simp [Mem.setNode, splitHdr]
  · rw [dig_pos (splitHdr_ok hat), dig_pos (splitHdr_ok hat)]
    show Rep _ ((Function.update m.node a _ a).child i) _
    rw [Function.update_self]
    by_cases hi : i = sliceIndex path (splitHdr path key).shift
    · subst hi
      simp only [splitHdr, Function.update_self]
      refine hold.frame ?_ ?_ ?_
      · intro p hp
        rw [cell_setNode_ne _ _ (by rintro rfl; cases hp), hp]
      · intro p hp
        exact cell_setNode_ne _ _ (by rintro rfl; exact ha hp)
      · intro p hp
        obtain ⟨l, hl⟩ := hold.leaf_of_mem hp
        exact cell_setNode_ne _ _ (by rintro rfl; cases hl)
    · have hi₀ : i ≠ sliceIndex path (splitShift (path ^^^ key)) := hi
      simp only [Function.update_of_ne hi, Function.update_of_ne hi₀]
      by_cases hi' : i = sliceIndex key (splitHdr path key).shift
      · subst hi'
        simp only [splitHdr, Function.update_self]
        exact rep_leaf.mpr ⟨k, rfl, rfl, rfl⟩
      · have hi₀' : i ≠ sliceIndex key (splitShift (path ^^^ key)) := hi'
        simp only [Function.update_of_ne hi', Function.update_of_ne hi₀']
        rfl

/-! ## Outcomes -/

/-- What an insert does to the map, depending on what became of its allocations. -/
inductive Inserted (ok : ℕ → Bool) (m m' : Mem) (f f' : KMap) (key : Word) (value : ℕ) : Errno → Prop
  | noLeaf (hok : ∃ i, ok i = false) (hl : m'.leafFails = m.leafFails + 1) (hn : m'.nodeFails = m.nodeFails)
      (hf : f' = f) : Inserted ok m m' f f' key value .ENOMEM
  | bound (hl : m'.leafFails = m.leafFails) (hn : m'.nodeFails = m.nodeFails) (hb : f key ≠ none)
      (hf : f' = f) : Inserted ok m m' f f' key value .EEXIST
  | noNode (hok : ∃ i, ok i = false) (hl : m'.leafFails = m.leafFails) (hn : m'.nodeFails = m.nodeFails + 1)
      (hb : f key = none) (hf : f' = f) : Inserted ok m m' f f' key value .ENOMEM
  | new (hl : m'.leafFails = m.leafFails) (hn : m'.nodeFails = m.nodeFails) (hb : f key = none)
      (hf : f' = f.bind key value) : Inserted ok m m' f f' key value .ok

/-- The insert holds the leaf `k` and nothing else. -/
structure Holds (m : Mem) (g : Ghost) (k : Addr) : Prop extends Inv m g where
  branching : Coding.Branching g.tree
  pn : g.pn = m.pendingDelNodes
  pl : g.pl = m.pendingDelLeaves
  fn : g.fn = 0
  fl : g.fl = {.leaf k}

theorem Holds.wf {k : Addr} (h : Holds m g k) : nibs.WF g.tree 0 := ⟨h.fits, h.branching⟩

/-- The key's place in the tree: what the walk of the insert ends at says whether the key is bound. -/
theorem map_of_focus {t : T} (ht : nibs.Fits t 0) (key : Word) :
    t.map key = T.map (Tree.focus (insertSel key) t) key := by
  simp only [T.map, Coding.get_eq_focus_follows (insertSel_follows key) ht]

theorem agree_zero (k k' : Word) : nibs.Agree 0 k k' := fun q hq => absurd hq (Nat.not_lt_zero q)

/-- The leaf goes into the empty slot. -/
theorem linkLeaf_spec {k : Addr} {key : Word} (h : Holds m g k) (hkey : (m.leaf k).key = key)
    (hfoc : Tree.focus (insertSel key) g.tree = .nil) :
    ∃ g', Step m g (.slot (Tree.slotOf (insertSel key) .root g.tree) (.leaf k)) g' ∧
      Quiet (m.store (.slot (Tree.slotOf (insertSel key) .root g.tree) (.leaf k))) g' ∧
      Frame m (m.store (.slot (Tree.slotOf (insertSel key) .root g.tree) (.leaf k))) g'.tree ∧
      g.tree.map key = none ∧ g'.tree.map = g.tree.map.bind key (m.leaf k).value := by
  subst hkey
  have hfl : g.fl = .leaf k ::ₘ 0 := h.fl
  have hs := Step.linkLeaf (m := m) hfoc rfl hfl
  have hinv := hs.inv h.toInv
  obtain ⟨rt, nd, hframe⟩ := slot_frame m (Tree.slotOf (insertSel (m.leaf k).key) .root g.tree) (.leaf k)
  refine ⟨_, hs, ⟨hinv, ⟨hinv.fits, h.branching.plug trivial (by simp)⟩, ?_, ?_, h.fn, rfl⟩, ⟨?_, ?_⟩, ?_, ?_⟩
  · rw [hframe, h.pn.symm]
  · rw [hframe, h.pl.symm]
  · intro b hb
    refine slot_node m fun i hi => hb ?_
    exact Tree.slotOf_mem_plug _ hi (by simp)
  · intro b _ hlt
    rwa [hframe] at hlt
  · rw [map_of_focus h.fits, hfoc]
    rfl
  · refine T.map_bind h.fits.routed hinv.fits.routed (Coding.has_plug_of fun l => ?_)
    rw [hfoc]
    simp [eq_comm]

/-- The leaf goes beside the subtree that the key leaves. -/
theorem linkSplit_spec {k a : Addr} {key path : Word} {n : Ptr} (h : Inv m g) (hbr : Coding.Branching g.tree)
    (hpn : g.pn = m.pendingDelNodes) (hpl : g.pl = m.pendingDelLeaves) (hfn : g.fn = {.node a})
    (hfl : g.fl = {.leaf k}) (hkey : (m.leaf k).key = key)
    (hn : Rep m.cell n (Tree.focus (insertSel key) g.tree))
    (hne : Tree.focus (insertSel key) g.tree ≠ .nil)
    (hpath : nibs.pathOf key (Tree.focus (insertSel key) g.tree) = path) (hat : path ^^^ key ≠ 0#64)
    (hpos : nibs.pos (splitHdr path key) < nibs.posOf (Tree.focus (insertSel key) g.tree)) :
    ∃ log g', Does (linkSplit key path (splitShift (path ^^^ key)) (.node a) (.leaf k) n
        (Tree.slotOf (insertSel key) .root g.tree)) m g () log g' ∧
      Quiet (storeAll m log) g' ∧ g'.tree.map = g.tree.map.bind key (m.leaf k).value ∧ .node a ∈ g'.tree.nodes ∧
      (∀ b, .node b ∉ g'.tree.nodes → (storeAll m log).node b = m.node b) ∧
      ∃ rt nd, storeAll m log = { m with root := rt, node := nd } := by
  subst hkey
  have hheld : Path m g (splitLog (m.leaf k).key path (splitShift (path ^^^ (m.leaf k).key)) a (.leaf k) n) g :=
    .held m (splitLog_held (hfn ▸ Multiset.mem_singleton_self _))
  let m₁ := storeAll m (splitLog (m.leaf k).key path (splitShift (path ^^^ (m.leaf k).key)) a (.leaf k) n)
  have hm₁ : m₁.leaf = m.leaf := by
    show (storeAll m _ : Mem).leaf = _
    rw [storeAll_splitLog]
    rfl
  have hnode : Ptr.node a ∉ g.tree.nodes := (h.free_node (hfn ▸ Multiset.mem_singleton_self _)).1
  have hrep := splitLog_rep (k := k) hat hn fun hin => hnode (Tree.mem_nodes_focus hin)
  rw [← hm₁] at hrep
  have hfn₀ : g.fn = .node a ::ₘ 0 := hfn
  have hfl₀ : g.fl = .leaf k ::ₘ 0 := hfl
  have hs := Step.linkSplit (m := m₁) hbr hne hpath hat hpos (by rw [hm₁]) hfl₀ hfn₀ hrep
  have hinv := hs.inv (hheld.inv h)
  obtain ⟨rt, nd, hframe⟩ := slot_frame m₁ (Tree.slotOf (insertSel (m.leaf k).key) .root g.tree) (.node a)
  have hall : ∃ rt nd, m₁.store (.slot (Tree.slotOf (insertSel (m.leaf k).key) .root g.tree) (.node a)) =
      { m with root := rt, node := nd } := by
    refine ⟨rt, nd, ?_⟩
    rw [hframe]
    show ({ (storeAll m _ : Mem) with root := rt, node := nd } : Mem) = _
    rw [storeAll_splitLog]
    rfl
  refine ⟨_, _, ⟨linkSplit_apply _ _ _ _ _ _ _ m, hheld.append (.single hs)⟩, ?_⟩
  rw [storeAll_append]
  obtain ⟨rt, nd, hall⟩ := hall
  have ha : Ptr.node a ∈ (Tree.plug (insertSel (m.leaf k).key) (splitTree a path (m.leaf k).key k (m₁.leaf k)
      (Tree.focus (insertSel (m.leaf k).key) g.tree)) g.tree).nodes := by
    refine (Tree.sub_plug _ _ _).mem_nodes ?_
    rw [splitTree_nodes a hat]
    exact Multiset.mem_cons_self _ _
  refine ⟨⟨hinv, ⟨hinv.fits, hbr.plug ?_ ?_⟩, ?_, ?_, rfl, rfl⟩, ?_, ha, ?_, rt, nd, hall⟩
  · obtain ⟨b, -, hfit⟩ := h.fits.focus (insertSel (m.leaf k).key)
    have := (splitTree_wf (a := a) (k := k) (l := m₁.leaf k) (b := 0) ⟨hfit.mono (Nat.zero_le b), hbr.focus⟩ hne
      (fun _ _ => agree_zero _ _) hpath hat hpos (by rw [hm₁])).branching
    exact this
  · simp [splitTree]
  · show _ = (m₁.store _).pendingDelNodes
    rw [hall, hpn.symm]
  · show _ = (m₁.store _).pendingDelLeaves
    rw [hall, hpl.symm]
  · refine T.map_bind h.fits.routed hinv.fits.routed (Coding.has_plug_of fun l => ?_)
    rw [hm₁]
    exact splitTree_has hat l
  · intro b hb
    have hba : b ≠ a := by
      rintro rfl
      exact hb ha
    refine (slot_node m₁ (p := .node a) fun i hi => hb (Tree.slotOf_mem_plug _ hi (by simp))).trans ?_
    show (storeAll m _ : Mem).node b = _
    rw [storeAll_splitLog]
    exact Function.update_of_ne hba _ _

/-- What `critnib_insert` compares the key with. -/
theorem pathOf_eq {n : Ptr} {t : T} (key : Word) (h : Rep m.cell n t) (hne : t ≠ .nil) :
    pathOf m n = .ok (nibs.pathOf key t) := by
  cases t with
  | nil => exact absurd rfl hne
  | leaf p l =>
      obtain ⟨k, rfl, -, rfl⟩ := rep_leaf.mp h
      rfl
  | node p hdr c =>
      obtain ⟨a, rfl, -, rfl, -⟩ := rep_node.mp h
      rfl

/-- A subtree that the insert's walk ends at, and is not the key's leaf, differs from the key before its own
position. -/
theorem splitHdr_pos_lt {t u : T} {key path : Word} (ht : nibs.Fits t 0)
    (hu : Tree.focus (insertSel key) t = u) (hne : u ≠ .nil) (hpath : nibs.pathOf key u = path)
    (hat : path ^^^ key ≠ 0#64) : nibs.pos (splitHdr path key) < nibs.posOf u := by
  obtain ⟨b, -, hfit⟩ := ht.focus (insertSel key)
  rw [hu] at hfit
  cases u with
  | nil => exact absurd rfl hne
  | leaf p l => exact nibs_pos_lt (splitHdr_ok hat)
  | node p hdr c =>
      subst hpath
      rcases insertSel_follows key hdr c hfit.1 with ⟨-, hs⟩ | ⟨hag, -⟩
      · rw [Tree.focus_eq_node hu] at hs
        cases hs
      · exact Coding.lt_of_not_agree (splitHdr_agree hat) hag

/-- `critnib_insert` from the computation of `path` on. -/
theorem insertSplit_spec {k : Addr} {key : Word} {n : Ptr} (h : Holds m g k) (ok : ℕ → Bool)
    (hkey : (m.leaf k).key = key) (hn : Rep m.cell n (Tree.focus (insertSel key) g.tree))
    (hne : Tree.focus (insertSel key) g.tree ≠ .nil) :
    ∃ e log g', Does (insertSplit ok key k n (Tree.slotOf (insertSel key) .root g.tree)) m g e log g' ∧
      Quiet (storeAll m log) g' ∧ (storeAll m log).removeCount = m.removeCount ∧
      Frame m (storeAll m log) g'.tree ∧
      Inserted ok m (storeAll m log) g.tree.map g'.tree.map key (m.leaf k).value e := by
  have hk : k ≠ 0 := (h.free_leaf (h.fl ▸ Multiset.mem_singleton_self _)).2.2
  -- the leaf goes back to the pool
  have hback : ∀ m₁, Inv m₁ g → m₁.pendingDelNodes = m.pendingDelNodes → m₁.pendingDelLeaves = m.pendingDelLeaves →
      ∃ log g', Does (freeLeaf k) m₁ g () log g' ∧ Quiet (storeAll m₁ log) g' ∧ g'.tree = g.tree ∧
        ∃ dl lf, storeAll m₁ log = { m₁ with deletedLeaf := dl, leaf := lf } := by
    intro m₁ h₁ hpn hpl
    have hfl : g.fl = .leaf k ::ₘ 0 := h.fl
    have hdo := freeLeaf_spec (m := m₁) hk hfl
    obtain ⟨dl, lf, hframe⟩ := freeLeafLog_frame m₁ m₁.deletedLeaf k
    refine ⟨_, _, hdo, ⟨hdo.path.inv h₁, h.wf, ?_, ?_, h.fn, rfl⟩, rfl, dl, lf, hframe⟩
    · rw [hframe, h.pn, ← hpn]
    · rw [hframe, h.pl, ← hpl]
  obtain ⟨path, hpath⟩ : ∃ path, nibs.pathOf key (Tree.focus (insertSel key) g.tree) = path := ⟨_, rfl⟩
  have hq := pathOf_eq key hn hne
  rw [hpath] at hq
  have hmap := map_of_focus h.fits key
  obtain ⟨b, -, hfit⟩ := h.fits.focus (insertSel key)
  by_cases hat : path ^^^ key = 0#64
  · -- the key itself, which only a leaf can hold
    have heq : path = key := BitVec.xor_eq_zero_iff.mp hat
    subst heq
    generalize hu : Tree.focus (insertSel path) g.tree = u at hn hne hpath hmap hfit
    cases u with
    | nil => exact absurd rfl hne
    | node p hdr c =>
        have hpath : hdr.path = path := hpath
        rcases insertSel_follows path hdr c hfit.1 with ⟨-, hs⟩ | ⟨hag, -⟩
        · rw [Tree.focus_eq_node hu] at hs
          cases hs
        · exact absurd (fun q _ => by rw [nibs_path, hpath]) hag
    | leaf p l =>
        obtain ⟨k', rfl, -, rfl⟩ := rep_leaf.mp hn
        obtain ⟨log, g', hdo, hquiet, htree, dl, lf, hframe⟩ := hback m h.toInv rfl rfl
        refine ⟨.EEXIST, log, g', ?_, hquiet, by rw [hframe], .of_eq (by rw [hframe]) (by rw [hframe]), ?_⟩
        · refine .query hq ?_
          rw [if_pos hat, ← List.append_nil log]
          exact .bind hdo (.pure _ _ _)
        · refine .bound (by rw [hframe]) (by rw [hframe]) ?_ (by rw [htree])
          rw [hmap]
          have hpath : (m.leaf k').key = path := hpath
          simp [T.map, Coding.get, hpath]
  · -- another key
    have hpos := splitHdr_pos_lt h.fits rfl hne hpath hat
    have hunbound : g.tree.map key = none := by
      rw [hmap]
      generalize hu : Tree.focus (insertSel key) g.tree = u at hn hne hpath hfit hpos
      cases u with
      | nil => rfl
      | leaf p l =>
          have hpath : l.key = path := hpath
          have : l.key ≠ key := fun he => hat (by rw [← hpath, he, BitVec.xor_self])
          simp [T.map, Coding.get, this]
      | node p hdr c =>
          rcases insertSel_follows key hdr c hfit.1 with ⟨-, hs⟩ | ⟨hag, -⟩
          · rw [Tree.focus_eq_node hu] at hs
            cases hs
          · simp [T.map, hfit.get_none hag]
    rcases allocNode_spec h.toInv ok with ⟨hnone, hok⟩ | ⟨a, e, ns, dn, nm, hdo, hframe, hnew⟩
    · obtain ⟨log, g', hdo, hquiet, htree, dl, lf, hframe⟩ := hback (m.store (.mallocNode false))
        (hnone.path.inv h.toInv) rfl rfl
      refine ⟨.ENOMEM, .mallocNode false :: log, g', ?_, hquiet, ?_, .of_eq ?_ ?_, ?_⟩
      · refine .query hq ?_
        rw [if_neg hat, ← List.append_nil log]
        exact .bind hnone (.bind hdo (.pure _ _ _))
      · show (storeAll (m.store (.mallocNode false)) log).removeCount = _
        rw [hframe]
        rfl
      · show (storeAll (m.store (.mallocNode false)) log).node = _
        rw [hframe]
        rfl
      · show (storeAll (m.store (.mallocNode false)) log).nodesMalloced = _
        rw [hframe]
        rfl
      · have hlog : storeAll m (.mallocNode false :: log) = _ := hframe
        exact .noNode hok (by rw [hlog]; rfl) (by rw [hlog]; rfl) hunbound (by rw [htree])
    · have hcell : (storeAll m [e]).cell = m.cell := by rw [hframe]; rfl
      have hleaf : (storeAll m [e]).leaf = m.leaf := by rw [hframe]
      have hfn : .node a ::ₘ g.fn = {Ptr.node a} := by rw [h.fn]; rfl
      obtain ⟨log, g', hlink, hquiet, hmap', ha, hnode, rt, nd, hframe'⟩ := linkSplit_spec (hdo.path.inv h.toInv)
        h.branching (by rw [hframe]; exact h.pn) (by rw [hframe]; exact h.pl) hfn h.fl (by rw [hleaf, hkey])
        (by rwa [hcell]) hne hpath hat hpos
      have hall : storeAll m ([e] ++ log) =
          { m with deletedNode := dn, nodesMalloced := nm, root := rt, node := nd } := by
        rw [storeAll_append, hframe', hframe]
      refine ⟨.ok, [e] ++ log, g', ?_, by rwa [storeAll_append], by rw [hall], ⟨fun b hb => ?_, fun b hb hlt => ?_⟩, ?_⟩
      · refine .query hq ?_
        rw [if_neg hat, ← List.append_nil log]
        exact .bind hdo (.bind hlink (.pure _ _ _))
      · rw [storeAll_append, hnode b hb, hframe]
      · rw [hall] at hlt
        exact hnew b (fun he => hb (he ▸ ha)) hlt
      · refine .new (by rw [hall]) (by rw [hall]) hunbound ?_
        rw [hmap', hleaf]

theorem insertLeaf_spec {k : Addr} {key : Word} (h : Holds m g k) (ok : ℕ → Bool) (hkey : (m.leaf k).key = key) :
    ∃ e log g', (∀ fuel, g.tree.height < fuel → Does (insertLeaf ok fuel key k) m g e log g') ∧ Quiet (storeAll m log) g' ∧
      (storeAll m log).removeCount = m.removeCount ∧ Frame m (storeAll m log) g'.tree ∧
      Inserted ok m (storeAll m log) g.tree.map g'.tree.map key (m.leaf k).value e := by
  obtain ⟨prev, n, hd, hn, hprev⟩ := insertDive_eq key m.root .root h.rep
  -- the two stores that link the leaf into an empty slot are one store
  have hlink : n = .null → ∃ g', Step m g (.slot (Tree.slotOf (insertSel key) .root g.tree) (.leaf k)) g' ∧
      Quiet (storeAll m [.slot (Tree.slotOf (insertSel key) .root g.tree) (.leaf k)]) g' ∧
      (storeAll m [.slot (Tree.slotOf (insertSel key) .root g.tree) (.leaf k)]).removeCount = m.removeCount ∧
      Frame m (storeAll m [.slot (Tree.slotOf (insertSel key) .root g.tree) (.leaf k)]) g'.tree ∧
      Inserted ok m (storeAll m [.slot (Tree.slotOf (insertSel key) .root g.tree) (.leaf k)]) g.tree.map
        g'.tree.map key (m.leaf k).value .ok := by
    rintro rfl
    obtain ⟨g', hs, hquiet, hfr, hnone, hmap⟩ := linkLeaf_spec h hkey (rep_null hn)
    obtain ⟨rt, nd, hframe⟩ := slot_frame m (Tree.slotOf (insertSel key) .root g.tree) (.leaf k)
    have hall : storeAll m [.slot (Tree.slotOf (insertSel key) .root g.tree) (.leaf k)] = _ := hframe
    exact ⟨g', hs, hquiet, by rw [hall], hfr, .new (by rw [hall]) (by rw [hall]) hnone hmap⟩
  by_cases hroot : m.root = .null
  · have hnil : g.tree = .nil := rep_null (hroot ▸ h.rep)
    have hslot : Tree.slotOf (insertSel key) .root g.tree = .root := by
      rw [hnil]
      rfl
    have hnull : n = .null := by
      rw [hnil] at hn
      exact rep_nil.mp hn
    obtain ⟨g', hs, hquiet, hcount, hfr, hins⟩ := hlink hnull
    rw [hslot] at hs hquiet hcount hfr hins
    refine ⟨.ok, _, g', fun fuel _ => ?_, hquiet, hcount, hfr, hins⟩
    refine .read ?_
    rw [if_pos hroot]
    exact .emit hs (.pure _ _ _)
  by_cases hnull : n = .null
  · obtain ⟨g', hs, hquiet, hcount, hfr, hins⟩ := hlink hnull
    refine ⟨.ok, _, g', fun fuel hf => ?_, hquiet, hcount, hfr, hins⟩
    refine .read ?_
    rw [if_neg hroot]
    refine .query (hd fuel hf) ?_
    dsimp only
    rw [if_pos hnull]
    rcases hprev with ⟨-, -, htree⟩ | ⟨a, rfl, hslot⟩
    · rw [htree, hnull] at hn
      exact absurd (rep_nil.mp (rep_null hn ▸ h.rep)) hroot
    · refine .query rfl ?_
      rw [← hslot]
      exact .emit hs (.pure _ _ _)
  · have hne : Tree.focus (insertSel key) g.tree ≠ .nil := fun he => hnull (rep_nil.mp (he ▸ hn))
    obtain ⟨e, log, g', hdo, hquiet, hcount, hfr, hins⟩ := insertSplit_spec h ok hkey hn hne
    refine ⟨e, log, g', fun fuel hf => ?_, hquiet, hcount, hfr, hins⟩
    refine .read ?_
    rw [if_neg hroot]
    refine .query (hd fuel hf) ?_
    dsimp only
    rwa [if_neg hnull]

/-- `critnib_insert`: its stores keep the invariant one by one, and its outcome is one of `Inserted`. -/
theorem critnibInsert_spec (h : Quiet m g) (ok : ℕ → Bool) (key : Word) (value : ℕ) :
    ∃ e log g', (∀ fuel, g.tree.height < fuel → Does (critnibInsert ok fuel key value) m g e log g') ∧
      Quiet (storeAll m log) g' ∧
      (storeAll m log).removeCount = m.removeCount ∧ Frame m (storeAll m log) g'.tree ∧
      Inserted ok m (storeAll m log) g.tree.map g'.tree.map key value e := by
  rcases allocLeaf_spec h.toInv ok with ⟨hnone, hok⟩ | ⟨k, e, ls, dl, n, hdo, hk, hframe⟩
  · refine ⟨.ENOMEM, _, g, fun _ _ => .bind hnone (.pure _ _ _), ⟨?_, h.wf, h.pn, h.pl, h.fn, h.fl⟩, rfl,
      .of_eq rfl rfl, ?_⟩
    · exact hnone.path.inv h.toInv
    · exact .noLeaf hok rfl rfl rfl
  let g₁ : Ghost := { g with ls := ls, fl := .leaf k ::ₘ g.fl }
  have hmem : Ptr.leaf k ∈ g₁.fl := Multiset.mem_cons_self _ _
  -- the leaf with its key and value
  have hfill : Path (storeAll m [e]) g₁ [.key k key, .value k value] g₁ := by
    refine .held _ fun e he => ?_
    simp only [List.mem_cons, List.not_mem_nil, or_false] at he
    rcases he with rfl | rfl
    · exact .key hmem _
    · exact .value hmem _
  have hm₂ : storeAll (storeAll m [e]) [.key k key, .value k value] =
      { m with
        deletedLeaf := dl
        leavesMalloced := n
        leaf := Function.update m.leaf k ⟨key, value⟩ } := by
    rw [hframe]
    simp [Storable.store, Mem.store, Mem.setLeaf]
  generalize hm : storeAll (storeAll m [e]) [.key k key, .value k value] = m₂ at hm₂ hfill
  have hinv : Inv m₂ g₁ := hm ▸ hfill.inv (hdo.path.inv h.toInv)
  have hhold : Holds m₂ g₁ k := ⟨hinv, h.wf.branching, by rw [hm₂]; exact h.pn, by rw [hm₂]; exact h.pl, h.fn,
    by show _ ::ₘ g.fl = _; rw [h.fl]; rfl⟩
  have hkey : (m₂.leaf k).key = key := by rw [hm₂]; simp
  have hval : (m₂.leaf k).value = value := by rw [hm₂]; simp
  obtain ⟨r, log, g', hdo', hquiet, hcount, hfr, hins⟩ := insertLeaf_spec hhold ok hkey
  have hlog : storeAll m ([e] ++ [.key k key, .value k value] ++ log) = storeAll m₂ log := by
    rw [storeAll_append, storeAll_append, hm]
  refine ⟨r, [e] ++ [.key k key, .value k value] ++ log, g', fun fuel hf => ?_, hlog ▸ hquiet, ?_, ?_, ?_⟩
  · rw [List.append_assoc]
    refine .bind hdo ?_
    rw [if_neg hk]
    cases hfill with
    | cons hs₁ t => cases t with
      | cons hs₂ t =>
          cases t
          refine .emit hs₁ (.emit hs₂ ?_)
          subst hm
          exact hdo' fuel hf
  · rw [hlog, hcount, hm₂]
  · rw [hlog]
    exact ⟨fun b hb => by rw [hfr.node b hb, hm₂], fun b hb hlt => by have := hfr.malloced b hb hlt; rwa [hm₂] at this⟩
  · rw [hlog, ← hval]
    have : ∀ {e : Errno} {m' : Mem} {f : KMap}, Inserted ok m₂ m' g.tree.map f key (m₂.leaf k).value e →
        Inserted ok m m' g.tree.map f key (m₂.leaf k).value e := by
      intro e m' f hi
      rw [hm₂] at hi ⊢
      cases hi with
      | noLeaf hok hl hn hf => exact .noLeaf hok hl hn hf
      | bound hl hn hb hf => exact .bound hl hn hb hf
      | noNode hok hl hn hb hf => exact .noNode hok hl hn hb hf
      | new hl hn hb hf => exact .new hl hn hb hf
    exact this hins

end Ptok.Critnib
