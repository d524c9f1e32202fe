import Ptok.Critbit.Lemmas.Insert

/-!
# critbit_remove

The leaf of the key goes to the list, and its sibling takes the place of the node above both.
-/

namespace Ptok.Critbit

open Lib

variable {Q : Leaf → Prop} {m : Mem} {g : Ghost}

/-! ## The loop -/

/-- It ends at the leaf where the walk along the key ends, with the last inner node and its slot. -/
theorem removeDive_eq (key : Word) {t : T} : ∀ {k : Addr} {b : ℕ} (nParent kParent : Slot Addr (Fin 2)) (n : Addr),
    Rep m.cell k t → bits.WF t b → k ≠ 0 → (m.node k).bit ≠ 0 →
    ∃ a c k', Tree.focus (Coding.toParent bits key) t = .node a (m.hdr a) c ∧ a ≠ 0 ∧ k' ≠ 0 ∧
      c (bits.dig key (bits.pos (m.hdr a))) = .leaf k' (m.leafAt k') ∧
      Tree.focus (Coding.along bits key) t = .leaf k' (m.leafAt k') ∧
      ∀ fuel, t.height < fuel → removeDive m key fuel nParent n kParent k =
        .ok (Tree.slotOf (Coding.toParent bits key) kParent t, a, .child a (bits.dig key (bits.pos (m.hdr a))), k') := by
  induction t with
  | nil =>
      intro k b nP kP n h _ h0
      exact absurd (rep_nil.mp h) h0
  | leaf q l => exact fun _ _ _ h _ _ hb => absurd (rep_leaf.mp h).2.2.1 hb
  | node q hdr c ih =>
      intro k b nParent kParent n h hwf _ hb
      obtain ⟨rfl, h0, -, rfl, hc⟩ := rep_node.mp h
      have hdir : dirOf ((m.node q).bit &&& key) = bits.dig key (bits.pos (m.hdr q)) := dirOf_bit hwf.fits.1 key
      have hlt := Tree.height_child_lt q (m.hdr q) c (bits.dig key (bits.pos (m.hdr q)))
      have hal : Tree.focus (Coding.along bits key) (.node q (m.hdr q) c) =
          Tree.focus (Coding.along bits key) (c (bits.dig key (bits.pos (m.hdr q)))) := rfl
      have hci := hc (bits.dig key (bits.pos (m.hdr q)))
      have hstep : ∀ fuel, removeDive m key (fuel + 1) nParent n kParent q = removeDive m key fuel kParent q
          (.child q (bits.dig key (bits.pos (m.hdr q)))) ((m.node q).child (bits.dig key (bits.pos (m.hdr q)))) := by
        intro fuel
        simp only [removeDive, nodeAt_ok h0, bind, Except.bind, hdir]
        exact if_pos hb
      cases hch : c (bits.dig key (bits.pos (m.hdr q))) with
      | nil => exact absurd hch (child_ne_nil hwf.branching _)
      | leaf q' l =>
          rw [hch] at hci hal hlt
          obtain ⟨rfl, h0', hb', rfl⟩ := rep_leaf.mp hci
          have hsel : Coding.toParent bits key (m.hdr q) c = none := Coding.toParent_of_not_node (by simp [hch])
          rw [Tree.focus_none hsel, Tree.slotOf_none hsel]
          refine ⟨q, c, _, rfl, h0, h0', hch, hal, fun fuel hf => ?_⟩
          obtain ⟨fuel, rfl⟩ := Nat.exists_eq_succ_of_ne_zero (by omega : fuel ≠ 0)
          obtain ⟨fuel, rfl⟩ := Nat.exists_eq_succ_of_ne_zero (by omega : fuel ≠ 0)
          rw [hstep]
          simp only [removeDive, nodeAt_ok h0', bind, Except.bind]
          exact if_neg (not_not.mpr hb')
      | node q' n' c' =>
          have hsel : Coding.toParent bits key (m.hdr q) c = some (bits.dig key (bits.pos (m.hdr q))) :=
            Coding.toParent_node hch
          rw [Tree.focus_some hsel, Tree.slotOf_some hsel, hal]
          have hnode := hci
          rw [hch] at hnode
          obtain ⟨-, h0', hbit, -⟩ := rep_node.mp hnode
          obtain ⟨a, c₁, k', hfoc, ha0, hk0, hleaf, hal', hd⟩ := ih (bits.dig key (bits.pos (m.hdr q))) kParent
            (.child q (bits.dig key (bits.pos (m.hdr q)))) q hci ⟨hwf.fits.2.2.2.2 _, hwf.branching.2 _⟩ h0' hbit
          refine ⟨a, c₁, k', hfoc, ha0, hk0, hleaf, hal', fun fuel hf => ?_⟩
          obtain ⟨fuel, rfl⟩ := Nat.exists_eq_succ_of_ne_zero (by omega : fuel ≠ 0)
          rw [hstep, ← hd fuel (by omega)]

/-! ## The list of removed leaves -/

theorem freeNode_spec {k : Addr} (hcut : g.cut = {k}) :
    Does (Step Q) (freeNode k) m g () [.slot (.child k 0) m.deletedNode, .deletedNode k]
      { g with dead := k :: g.dead, cut := 0 } := by
  have hmem : k ∈ g.cut := hcut ▸ Multiset.mem_singleton_self k
  have hcut' : g.cut = k ::ₘ 0 := hcut
  refine .read (.emit (.chain hmem) (.emit_last (.push hcut' ?_)))
  simp [Storable.store, Mem.store, Mem.setNode]

/-- The leaf that was taken out of the tree is chained, and its value is returned. -/
theorem freeLeaf_spec {k : Addr} (h : Inv m g) (hcut : g.cut = {k}) (hmade : g.made = 0) :
    ∃ log g', Does (Step Q) (do
        let value ← Wr.read fun m => (m.node k).child 0
        freeNode k
        pure value : W ℕ) m g (m.leafAt k).value log g' ∧ Quiet (storeAll m log) g' ∧ g'.tree = g.tree := by
  have hfree := freeNode_spec (Q := Q) (m := m) hcut
  refine ⟨_, _, .read (.bind hfree (.pure _ _ _)), ⟨?_, rfl, hmade⟩, rfl⟩
  rw [List.append_nil]
  exact hfree.path.inv Step.inv h

/-! ## The call -/

/-- The walk along the key says whether it is bound. -/
theorem map_of_along {t : T} {key : Word} {k : Addr} {l : Leaf} (hal : Tree.focus (Coding.along bits key) t = .leaf k l) :
    t.map key = if l.key = key then some l.value else none := by
  show (bits.get key t).map _ = _
  rw [Coding.get_eq_focus, hal]
  by_cases hk : l.key = key
  · simp [Coding.get, hk]
  · simp [Coding.get, hk]

theorem splice_spec {key : Word} {a k : Addr} {c : Fin 2 → T} (h : Quiet m g) (ha0 : a ≠ 0)
    (hfoc : Tree.focus (Coding.toParent bits key) g.tree = .node a (m.hdr a) c)
    (hleaf : c (bits.dig key (bits.pos (m.hdr a))) = .leaf k (m.leafAt k)) (hkey : (m.leafAt k).key = key) :
    ∃ log g', Does (Step Q) (splice (Tree.slotOf (Coding.toParent bits key) .root g.tree) a
        (.child a (bits.dig key (bits.pos (m.hdr a)))) k) m g (m.leafAt k).value log g' ∧
      Quiet (storeAll m log) g' ∧ g'.tree.map = g.tree.map.unbind key := by
  have hs := Step.splice (Q := Q) (m := m) hfoc hleaf hkey
  have hinv := hs.inv h.toInv
  have hcut : k ::ₘ g.cut = {k} := by
    rw [h.cut]
    rfl
  -- the slot is in an inner half
  have hk : k ∈ g.tree.leaves := by
    have hsub := Tree.sub_focus (Coding.toParent bits key) g.tree
    rw [hfoc] at hsub
    refine hsub.mem_leaves (Tree.mem_leaves_child (i := bits.dig key (bits.pos (m.hdr a))) ?_)
    rw [hleaf]
    exact Multiset.mem_singleton_self k
  have hnode : ∀ q, (m.store (.slot (Tree.slotOf (Coding.toParent bits key) .root g.tree) q)).leafAt k = m.leafAt k := by
    intro q
    have hl : k ∈ leafHalves m.malloced := by
      rw [← h.leaves]
      simp [hk]
    have : (m.store (.slot (Tree.slotOf (Coding.toParent bits key) .root g.tree) q)).node k = m.node k :=
      slot_node m fun i hi => not_inner_of_leaf hl (h.inner k (Multiset.mem_add.mpr (Or.inl (h.slot_out hi).1)))
    simp only [Mem.leafAt, this]
  obtain ⟨log, g', hdo, hquiet, htree⟩ := freeLeaf_spec (Q := Q) hinv hcut h.made
  rw [hnode] at hdo
  refine ⟨_ :: log, g', .query (nodeAt_ok ha0) ?_, hquiet, ?_⟩
  · have hcase : ∀ d : Fin 2, d = 0 ∨ d = 1 := by decide
    rcases hcase (bits.dig key (bits.pos (m.hdr a))) with hd | hd
    · rw [hd] at hs hdo ⊢
      rw [if_pos rfl]
      exact .emit hs hdo
    · rw [hd] at hs hdo ⊢
      rw [if_neg (by simp)]
      exact .emit hs hdo
  · rw [htree]
    exact Coding.mapOf_erase h.wf.routed hinv.wf.routed (splice_has hfoc hleaf h.wf.routed hkey)

/-- The stores keep to the steps one by one; the key's value is returned, and the map does not have the key any more. -/
theorem critbitRemove_spec (h : Quiet m g) (key : Word) :
    ∃ log g', (∀ fuel, g.tree.height < fuel → Does (Step Q) (critbitRemove fuel key) m g (g.tree.map.val key) log g') ∧
      Quiet (storeAll m log) g' ∧ g'.tree.map = g.tree.map.unbind key := by
  -- nothing happens if the key is not bound
  have hnone : g.tree.map key = none → g.tree.map.val key = NULL ∧ g.tree.map = g.tree.map.unbind key := by
    intro hk
    refine ⟨by simp [KMap.val, hk], ?_⟩
    funext k
    by_cases hkk : k = key
    · rw [hkk, hk, KMap.unbind_self]
    · rw [KMap.unbind_of_ne _ hkk]
  by_cases hempty : m.root = 0
  · have hnil := (rep_zero_iff h.rep).mp hempty
    obtain ⟨hv, hmap⟩ := hnone (by rw [hnil]; rfl)
    refine ⟨[], g, fun fuel _ => .read ?_, h, hmap⟩
    rw [if_pos hempty, hv]
    exact .pure _ _ _
  by_cases hb : (m.node m.root).bit = 0
  · -- a single leaf
    have htree : g.tree = .leaf m.root (m.leafAt m.root) :=
      h.rep.unique (rep_leaf.mpr ⟨rfl, hempty, hb, rfl⟩)
    have hal : Tree.focus (Coding.along bits key) g.tree = .leaf m.root (m.leafAt m.root) := by
      rw [htree]
      rfl
    have hm := map_of_along hal
    by_cases hk : (m.node m.root).path = key
    · have hm := hm.trans (if_pos hk)
      have hval : g.tree.map.val key = (m.leafAt m.root).value := by simp [KMap.val, hm]
      have hs := Step.unlinkRoot (Q := Q) (m := m) htree
      have hinv := hs.inv h.toInv
      have hcut : m.root ::ₘ g.cut = {m.root} := by
        rw [h.cut]
        rfl
      obtain ⟨log, g', hdo, hquiet, htree'⟩ := freeLeaf_spec (Q := Q) hinv hcut h.made
      refine ⟨_ :: log, g', fun fuel _ => .read ?_, hquiet, ?_⟩
      · rw [if_neg hempty]
        refine .query (nodeAt_ok hempty) ?_
        rw [if_pos hb, if_pos hk, hval]
        exact .emit hs hdo
      · rw [htree']
        refine Coding.mapOf_erase h.wf.routed hinv.wf.routed fun l => ?_
        rw [htree, Tree.has_leaf]
        simp only [Tree.has_nil, false_iff, not_and, not_not]
        rintro rfl
        exact hk
    · have hm := hm.trans (if_neg hk)
      obtain ⟨hv, hmap⟩ := hnone hm
      refine ⟨[], g, fun fuel _ => .read ?_, h, hmap⟩
      rw [if_neg hempty]
      refine .query (nodeAt_ok hempty) ?_
      rw [if_pos hb, if_neg hk, hv]
      exact .pure _ _ _
  · obtain ⟨a, c, k, hfoc, ha0, hk0, hleaf, hal, hd⟩ := removeDive_eq key .root .root m.root h.rep h.wf hempty hb
    have hm := map_of_along hal
    -- what the call does up to the leaf
    have hrun : ∀ {fuel v log g'}, g.tree.height < fuel →
        Does (Step Q) (if (m.node k).path ≠ key then pure NULL
          else splice (Tree.slotOf (Coding.toParent bits key) .root g.tree) a
            (.child a (bits.dig key (bits.pos (m.hdr a)))) k : W ℕ) m g v log g' →
        Does (Step Q) (critbitRemove fuel key) m g v log g' := by
      intro fuel v log g' hf hdo
      refine .read ?_
      rw [if_neg hempty]
      refine .query (nodeAt_ok hempty) ?_
      rw [if_neg hb]
      exact .query (hd fuel hf) (.query (nodeAt_ok hk0) hdo)
    by_cases hk : (m.node k).path = key
    · have hm := hm.trans (if_pos hk)
      have hval : g.tree.map.val key = (m.leafAt k).value := by simp [KMap.val, hm]
      obtain ⟨log, g', hdo, hquiet, hmap⟩ := splice_spec (Q := Q) h ha0 hfoc hleaf hk
      refine ⟨log, g', fun fuel hf => hrun hf ?_, hquiet, hmap⟩
      rw [if_neg (not_not.mpr hk), hval]
      exact hdo
    · have hm := hm.trans (if_neg hk)
      obtain ⟨hv, hmap⟩ := hnone hm
      refine ⟨[], g, fun fuel hf => hrun hf ?_, h, hmap⟩
      rw [if_pos hk, hv]
      exact .pure _ _ _

end Ptok.Critbit
