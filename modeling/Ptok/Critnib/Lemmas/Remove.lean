import Ptok.Critnib.Lemmas.Insert

/-!
# critnib_remove

The leaf is taken out of its slot. Where its node is left with a single child, that child takes the node's place.
-/

namespace Ptok.Critnib

open Lib

variable {m : Mem} {g : Ghost}

/-! ## The search for the only child -/

/-- What the loop has found out when it ends. `Nodup` because it compares slots, not positions in the list. -/
theorem onlyChild_cases (child : Fin 16 → Ptr) : ∀ (is : List (Fin 16)) (ochild : Option (Fin 16)), is.Nodup →
    match onlyChild child is ochild with
    | none => ∃ i ∈ is, child i ≠ .null ∧ (ochild ≠ none ∨ ∃ j ∈ is, j ≠ i ∧ child j ≠ .null)
    | some none => ochild = none ∧ ∀ i ∈ is, child i = .null
    | some (some o) => (ochild = some o ∧ ∀ i ∈ is, child i = .null) ∨
        (ochild = none ∧ child o ≠ .null ∧ ∀ i ∈ is, i ≠ o → child i = .null) := by
  intro is
  induction is with
  | nil =>
      intro ochild _
      cases ochild with
      | none => exact ⟨rfl, by simp⟩
      | some o => exact Or.inl ⟨rfl, by simp⟩
  | cons i is ih =>
      intro ochild hnd
      obtain ⟨hi, hnd⟩ := List.nodup_cons.mp hnd
      unfold onlyChild
      by_cases hc : child i = .null
      · -- an empty slot
        rw [if_pos hc]
        have ih := ih ochild hnd
        revert ih
        rcases onlyChild child is ochild with _ | _ | o
        · rintro ⟨j, hj, hcj, h⟩
          refine ⟨j, by simp [hj], hcj, h.imp id ?_⟩
          rintro ⟨j', hj', h⟩
          exact ⟨j', by simp [hj'], h⟩
        · rintro ⟨rfl, h⟩
          exact ⟨rfl, by simpa [hc] using h⟩
        · rintro (⟨rfl, h⟩ | ⟨rfl, ho, h⟩)
          · exact Or.inl ⟨rfl, by simpa [hc] using h⟩
          · exact Or.inr ⟨rfl, ho, by simpa [hc] using h⟩
      · rw [if_neg hc]
        by_cases ho : ochild = none
        · -- the first child that is there
          subst ho
          rw [if_neg (not_not.mpr rfl)]
          have ih := ih (some i) hnd
          revert ih
          rcases onlyChild child is (some i) with _ | _ | o
          · rintro ⟨j, hj, hcj, -⟩
            exact ⟨j, by simp [hj], hcj, Or.inr ⟨i, by simp, by rintro rfl; exact hi hj, hc⟩⟩
          · rintro ⟨⟨⟩, -⟩
          · rintro (⟨⟨⟩, h⟩ | ⟨⟨⟩, -⟩)
            refine Or.inr ⟨rfl, hc, ?_⟩
            intro j hj hne
            rcases List.mem_cons.mp hj with rfl | hj
            · exact absurd rfl hne
            · exact h j hj
        · -- the second one
          rw [if_pos ho]
          exact ⟨i, by simp, hc, Or.inl ho⟩

theorem onlyChild_none {child : Fin 16 → Ptr} (h : onlyChild child (List.finRange 16) none = none) :
    ∃ i j, i ≠ j ∧ child i ≠ .null ∧ child j ≠ .null := by
  have := onlyChild_cases child _ none (List.nodup_finRange 16)
  rw [h] at this
  obtain ⟨i, -, hi, h | ⟨j, -, hne, hj⟩⟩ := this
  · exact absurd rfl h
  · exact ⟨i, j, hne.symm, hi, hj⟩

theorem onlyChild_some_none {child : Fin 16 → Ptr}
    (h : onlyChild child (List.finRange 16) none = some none) (i : Fin 16) : child i = .null := by
  have := onlyChild_cases child _ none (List.nodup_finRange 16)
  rw [h] at this
  exact this.2 i (List.mem_finRange i)

theorem onlyChild_some_some {child : Fin 16 → Ptr} {o : Fin 16}
    (h : onlyChild child (List.finRange 16) none = some (some o)) :
    child o ≠ .null ∧ ∀ i ≠ o, child i = .null := by
  have := onlyChild_cases child _ none (List.nodup_finRange 16)
  rw [h] at this
  rcases this with ⟨⟨⟩, -⟩ | ⟨-, ho, h⟩
  exact ⟨ho, fun i hi => h i (List.mem_finRange i) hi⟩

/-! ## Outcomes -/

/-- The next slot of the ring after a draw. -/
theorem del_succ (m : Mem) (w : Word) (hw : m.removeCount = w + 1) : Fin.ofNat 16 w.toNat + 1 = m.del := by
  unfold Mem.del
  rw [hw, BitVec.toNat_add]
  refine Fin.ext ?_
  have h1 : (1 : Word).toNat = 1 := rfl
  simp only [Fin.ofNat, Fin.val_add, Fin.val_one, h1]
  omega

/-- The remove drew the number of slot `d`, which is free. -/
structure Drawn (m : Mem) (g : Ghost) (d : Fin 16) : Prop extends Quiet m g where
  del : d + 1 = m.del
  pnFree : g.pn d = .null
  plFree : g.pl d = 0

/-- The stores to the ring make it say what the ghost's ring says. -/
theorem Inv.quiet_ringLeaf {d : Fin 16} {k : Addr} (h : Inv m g) (hbr : Coding.Branching g.tree)
    (hpn : g.pn = m.pendingDelNodes) (hpl : g.pl = Function.update m.pendingDelLeaves d k) (hfn : g.fn = 0)
    (hfl : g.fl = 0) : Quiet (m.store (.pendingDelLeaf d k)) g :=
  ⟨h.pendingDelLeaf d k, ⟨h.fits, hbr⟩, hpn, hpl, hfn, hfl⟩

theorem unbind_of_none {f : KMap} {key : Word} (h : f key = none) : f.unbind key = f := by
  funext k
  by_cases hk : k = key
  · rw [hk, KMap.unbind_self, h]
  · rw [KMap.unbind_of_ne _ hk]

/-- A key whose leaf is not where the walk ends is unbound. -/
theorem map_eq_none_of_focus {t : T} {key : Word}
    (h : ∀ q l, Tree.focus (Coding.along nibs key) t = .leaf q l → l.key ≠ key) : t.map key = none := by
  simp only [T.map, Option.map_eq_none_iff]
  rw [Coding.get_eq_focus]
  cases hf : Tree.focus (Coding.along nibs key) t with
  | nil => rfl
  | leaf q l => simp [Coding.get, h q l hf]
  | node p n c => exact absurd hf (Coding.focus_along_not_node key t)

theorem map_of_focus_leaf {t : T} {key : Word} {q : Ptr} {l : Leaf}
    (h : Tree.focus (Coding.along nibs key) t = .leaf q l) (hk : l.key = key) : t.map key = some l.value := by
  simp only [T.map]
  rw [Coding.get_eq_focus, h]
  simp [Coding.get, hk]

/-- The leaf of the key is taken out. -/
theorem unlink_spec {key : Word} {d : Fin 16} {k : Addr} (h : Drawn m g d)
    (hfoc : Tree.focus (Coding.along nibs key) g.tree = .leaf (.leaf k) (m.leaf k)) (hkey : (m.leaf k).key = key) :
    ∃ g', Step m g (.slot (Tree.slotOf (Coding.along nibs key) .root g.tree) .null) g' ∧
      Inv (m.store (.slot (Tree.slotOf (Coding.along nibs key) .root g.tree) .null)) g' ∧
      g'.tree = Tree.plug (Coding.along nibs key) .nil g.tree ∧ g'.tree.map = g.tree.map.unbind key ∧
      g'.pn = g.pn ∧ g'.pl = Function.update g.pl d k ∧ g'.fn = 0 ∧ g'.fl = 0 := by
  have hs := Step.unlink (m := m) (g := g) hfoc hkey h.del h.plFree
  have hinv := hs.inv h.toInv
  refine ⟨_, hs, hinv, rfl, ?_, rfl, rfl, h.fn, h.fl⟩
  exact T.map_unbind h.fits.routed hinv.fits.routed (Coding.has_unlink h.fits.routed hfoc hkey)

/-- What a remove does to the map. -/
structure Removed (f f' : KMap) (key : Word) (value : ℕ) : Prop where
  value : value = f.val key
  map : f' = f.unbind key

theorem Removed.absent {f : KMap} {key : Word} (h : f key = none) : Removed f f key NULL :=
  ⟨by simp [KMap.val, h], (unbind_of_none h).symm⟩

/-- Only nodes of the tree `t` are written, and a node that leaves it still points into what `t'` is. -/
structure Retired (m m' : Mem) (t t' : T) : Prop where
  node : ∀ b, .node b ∉ t.nodes → m'.node b = m.node b
  child : ∀ b i, .node b ∈ t.nodes → .node b ∉ t'.nodes →
    (m'.node b).child i = .null ∨ (m'.node b).child i ∈ t'.nodes + t'.leaves

theorem Retired.refl (m : Mem) (t : T) : Retired m m t t := ⟨fun _ _ => rfl, fun _ _ h h' => absurd h h'⟩

theorem removeRoot_spec {d : Fin 16} {k : Addr} (h : Drawn m g d) (hroot : m.root = .leaf k) (key : Word) :
    ∃ v log g', Does (removeRoot d key k) m g v log g' ∧ Quiet (storeAll m log) g' ∧
      (storeAll m log).removeCount = m.removeCount ∧ Retired m (storeAll m log) g.tree g'.tree ∧ Removed g.tree.map g'.tree.map key v := by
  obtain ⟨l, htree⟩ : ∃ l, g.tree = .leaf (.leaf k) l ∧ l = m.leaf k := by
    have hrep := h.rep
    rw [hroot] at hrep
    cases ht : g.tree with
    | nil => rw [ht] at hrep; cases hrep
    | leaf p l =>
        rw [ht] at hrep
        obtain ⟨k', ⟨⟩, rfl, rfl⟩ := rep_leaf.mp hrep
        exact ⟨_, rfl, rfl⟩
    | node p n c =>
        rw [ht] at hrep
        obtain ⟨a, ⟨⟩, -⟩ := rep_node.mp hrep
  obtain ⟨htree, rfl⟩ := htree
  have hfoc : Tree.focus (Coding.along nibs key) g.tree = .leaf (.leaf k) (m.leaf k) := by
    rw [htree]
    rfl
  by_cases hkey : (m.leaf k).key = key
  · obtain ⟨g', hs, hinv, ht', hmap, hpn, hpl, hfn, hfl⟩ := unlink_spec h hfoc hkey
    have hslot : Tree.slotOf (Coding.along nibs key) .root g.tree = .root := by
      rw [htree]
      rfl
    rw [hslot] at hs hinv
    have hbr : Coding.Branching g'.tree := by
      rw [ht', htree]
      trivial
    refine ⟨(m.leaf k).value, [.slot .root .null, .pendingDelLeaf d k], g', ?_, ?_, rfl, ⟨fun _ _ => rfl, ?_⟩, ?_, hmap⟩
    · refine .read ?_
      rw [if_pos hkey]
      exact .emit hs (.read (.emit (.ringLeaf _ _ _) (.pure _ _ _)))
    · exact hinv.quiet_ringLeaf hbr (hpn.trans h.pn) (by rw [hpl, h.pl]; rfl) hfn hfl
    · intro b i hb
      simp [htree] at hb
    · simp [KMap.val, map_of_focus_leaf hfoc hkey]
  · refine ⟨NULL, [], g, ?_, h.toQuiet, rfl, .refl m g.tree, .absent (map_eq_none_of_focus ?_)⟩
    · refine .read ?_
      rw [if_neg hkey]
      exact .pure _ _ _
    · intro q l hf
      rw [hfoc] at hf
      cases hf
      exact hkey

/-- The leaf `k` was taken out of the node `a`, which is left with the children `c`. -/
structure Unlinked (m : Mem) (g : Ghost) (key : Word) (d : Fin 16) (a k : Addr) (hdr : Hdr) (c : Fin 16 → T) :
    Prop extends Inv m g where
  focus : Tree.focus (Coding.toParent nibs key) g.tree = .node (.node a) hdr c
  empty : c (nibs.dig key (nibs.pos hdr)) = .nil
  exists_child : ∃ o, c o ≠ .nil
  branching_child : ∀ j, Coding.Branching (c j)
  /-- everything but this node branches -/
  branching : ∀ u, Coding.Branching u → u ≠ .nil →
    Coding.Branching (Tree.plug (Coding.toParent nibs key) u g.tree)
  del : d + 1 = m.del
  pn : g.pn = m.pendingDelNodes
  pl : g.pl = Function.update m.pendingDelLeaves d k
  pnFree : g.pn d = .null
  fn : g.fn = 0
  fl : g.fl = 0

/-- The node that is collapsed keeps its only child. -/
theorem collapse_retired {t : T} {sel : Hdr → (Fin 16 → T) → Option (Fin 16)} {a : Addr} {hdr : Hdr} {c : Fin 16 → T}
    {o : Fin 16} (hnd : t.nodes.Nodup) (hfoc : Tree.focus sel t = .node (.node a) hdr c)
    (hc : ∀ i, Rep m.cell ((m.node a).child i) (c i)) (ho : c o ≠ .nil) (honly : ∀ i ≠ o, c i = .nil) :
    Retired m (m.store (.slot (Tree.slotOf sel .root t) ((m.node a).child o))) t (Tree.plug sel (c o) t) := by
  have hnodes : .node a ::ₘ (Tree.plug sel (c o) t).nodes = t.nodes := by
    have h := Tree.nodes_plug sel (c o) t
    rw [hfoc, Tree.nodes_node, Tree.sum_only Tree.nodes_nil honly, Multiset.add_cons, ← Multiset.cons_add] at h
    exact add_right_cancel h
  have hout : Ptr.node a ∉ (Tree.plug sel (c o) t).nodes := by
    rw [← hnodes, Multiset.nodup_cons] at hnd
    exact hnd.1
  constructor
  · intro b hb
    refine slot_node m fun i hi => hb ?_
    rw [← hnodes]
    exact Multiset.mem_cons_of_mem (Tree.slotOf_mem_plug _ hi (by simp))
  · intro b i hb hb'
    rw [← hnodes, Multiset.mem_cons, or_iff_left hb'] at hb
    cases hb
    rw [slot_node m fun i hi => hout (Tree.slotOf_mem_plug _ hi (by simp))]
    by_cases hi : i = o
    · right
      subst hi
      have hsub := Tree.sub_plug sel (c i) t
      rcases Multiset.mem_add.mp ((hc i).mem ho) with h | h
      · exact Multiset.mem_add.mpr (Or.inl (hsub.mem_nodes h))
      · exact Multiset.mem_add.mpr (Or.inr (hsub.mem_leaves h))
    · left
      exact (rep_null_iff (hc i)).mpr (honly i hi)

theorem shrink_spec {key : Word} {d : Fin 16} {a k : Addr} {hdr : Hdr} {c : Fin 16 → T}
    (h : Unlinked m g key d a k hdr c) :
    ∃ log g', Does (shrink d (Tree.slotOf (Coding.toParent nibs key) .root g.tree) (.node a) k) m g
        (m.leaf k).value log g' ∧
      Quiet (storeAll m log) g' ∧ (storeAll m log).removeCount = m.removeCount ∧
      Retired m (storeAll m log) g.tree g'.tree ∧ g'.tree.map = g.tree.map := by
  obtain ⟨q, -, hq⟩ := Rep.focus (Coding.toParent nibs key) (h := m.heap) (s := .root) h.rep rfl
  rw [h.focus] at hq
  obtain ⟨a', -, ⟨⟩, -, hc⟩ := rep_node.mp hq
  have hnil : ∀ j, (m.node a).child j = .null ↔ c j = .nil := by
    intro j
    have hj := hc j
    constructor
    · intro he
      rw [he] at hj
      exact rep_null hj
    · intro he
      rw [he] at hj
      exact rep_nil.mp hj
  have hstart : ∀ {log : List Event} {g' : Ghost} {f : Node → W ℕ},
      Does (f (m.node a)) m g (m.leaf k).value log g' →
      Does (Wr.query (·.nodeAt (.node a)) >>= f) m g (m.leaf k).value log g' := fun hdo => .query rfl hdo
  generalize hloop : onlyChild (m.node a).child (List.finRange 16) none = r
  rcases r with _ | _ | o
  · -- two children are left
    obtain ⟨i, j, hij, hi, hj⟩ := onlyChild_none hloop
    have hbr : Coding.Branching g.tree := by
      rw [← Tree.plug_focus (Coding.toParent nibs key) g.tree, h.focus]
      exact h.branching _ ⟨⟨i, j, hij, mt (hnil i).mpr hi, mt (hnil j).mpr hj⟩, h.branching_child⟩ (by simp)
    refine ⟨[.pendingDelLeaf d k], g, hstart ?_, h.quiet_ringLeaf hbr h.pn h.pl h.fn h.fl, rfl,
      ⟨fun _ _ => rfl, fun _ _ hb hb' => absurd hb hb'⟩, rfl⟩
    rw [hloop]
    exact .read (.emit (.ringLeaf _ _ _) (.pure _ _ _))
  · -- none: a node with two children has lost one
    obtain ⟨o, ho⟩ := h.exists_child
    exact absurd ((hnil o).mp (onlyChild_some_none hloop o)) ho
  · -- a single one takes the node's place
    obtain ⟨ho, honly⟩ := onlyChild_some_some hloop
    have ho := mt (hnil o).mpr ho
    have honly : ∀ i ≠ o, c i = .nil := fun i hi => (hnil i).mp (honly i hi)
    have hs := Step.collapse (m := m) h.focus h.empty ho honly h.del h.pnFree
    have hinv := hs.inv h.toInv
    obtain ⟨rt, nd, hframe⟩ := slot_frame m (Tree.slotOf (Coding.toParent nibs key) .root g.tree)
      ((m.node a).child o)
    refine ⟨[.slot (Tree.slotOf (Coding.toParent nibs key) .root g.tree) ((m.node a).child o),
      .pendingDelNode d (.node a), .pendingDelLeaf d k],
      { g with tree := Tree.plug (Coding.toParent nibs key) (c o) g.tree, pn := Function.update g.pn d (.node a) },
      hstart ?_, ?_, ?_, ?_, ?_⟩
    · rw [hloop]
      refine .emit hs (.read ?_)
      rw [slot_leaf]
      exact .emit (.ringNode _ _ _) (.emit (.ringLeaf _ _ _) (.pure _ _ _))
    · refine (hinv.pendingDelNode d (.node a)).quiet_ringLeaf (h.branching _ (h.branching_child o) ho) ?_ ?_ h.fn h.fl
      · show Function.update g.pn d _ = Function.update (m.store _).pendingDelNodes d _
        rw [hframe, h.pn]
      · show g.pl = Function.update (m.store _).pendingDelLeaves d _
        rw [hframe, h.pl]
    · show (m.store _).removeCount = _
      rw [hframe]
    · have hret := collapse_retired h.tree_nodup h.focus hc ho honly
      exact ⟨hret.node, hret.child⟩
    · refine T.map_congr h.fits.routed hinv.fits.routed fun l => ?_
      refine (Coding.has_plug_of (X := fun _ => False) (fun l => ?_) l).trans (or_iff_right id)
      rw [h.focus, false_or, Tree.has_node]
      constructor
      · exact fun hl => ⟨o, hl⟩
      · rintro ⟨i, hl⟩
        by_cases hi : i = o
        · exact hi ▸ hl
        · rw [honly i hi] at hl
          exact hl.elim

/-- The leaf leaves its slot, and its node the tree if it is left with a single child. -/
theorem removeLeaf_spec {key : Word} {d : Fin 16} {a k : Addr} (h : Drawn m g d) {p : Ptr} {n : Hdr}
    {c : Fin 16 → T} (htree : g.tree = .node p n c)
    (hn : Rep m.cell (.node a) (Tree.focus (Coding.toParent nibs key) g.tree))
    (hfoc : Tree.focus (Coding.along nibs key) g.tree = .leaf (.leaf k) (m.leaf k)) (hkey : (m.leaf k).key = key) :
    ∃ log g', Does (removeLeaf d key (Tree.slotOf (Coding.toParent nibs key) .root g.tree) (.node a) k) m g
        (m.leaf k).value log g' ∧
      Quiet (storeAll m log) g' ∧ (storeAll m log).removeCount = m.removeCount ∧
      Retired m (storeAll m log) g.tree g'.tree ∧ g'.tree.map = g.tree.map.unbind key := by
  obtain ⟨g₁, hs, hinv, ht', hmap, hpn, hpl, hfn, hfl⟩ := unlink_spec h hfoc hkey
  obtain ⟨p', n', c', hlast⟩ := Coding.exists_lastNode (S := nibs) key p n c
  rw [← htree] at hlast
  have hbr : Coding.Branching (.node p' n' c' : T) := hlast.focus ▸ h.wf.branching.focus
  rw [hlast.focus] at hn
  obtain ⟨a', ⟨⟩, rfl, rfl, -⟩ := rep_node.mp hn
  obtain ⟨b, -, hfit⟩ := h.fits.focus (Coding.toParent nibs key)
  rw [hlast.focus] at hfit
  have hslot : Tree.slotOf (Coding.along nibs key) .root g.tree =
      .child (.node a) (sliceIndex key (m.node a).shift) := by
    rw [hlast.slot, dig_pos hfit.1]
  rw [hslot] at hs hinv
  obtain ⟨i, hdig⟩ : ∃ i, nibs.dig key (nibs.pos ⟨(m.node a).path, (m.node a).shift⟩) = i := ⟨_, rfl⟩
  have hun : Unlinked (m.store (.slot (.child (.node a) (sliceIndex key (m.node a).shift)) .null)) g₁ key d a k
      ⟨(m.node a).path, (m.node a).shift⟩ (Function.update c' i .nil) := by
    refine ⟨hinv, by rw [ht', hlast.focus_unlink, hdig], by rw [hdig, Function.update_self], ?_, fun j => ?_, fun u hu hne => ?_,
      h.del, hpn.trans h.pn, by rw [hpl, h.pl]; rfl, by rw [hpn, h.pnFree], hfn, hfl⟩
    · obtain ⟨⟨i₁, i₂, hij, h₁, h₂⟩, -⟩ := hbr
      by_cases he : i₁ = i
      · exact ⟨i₂, by rwa [Function.update_of_ne (he ▸ hij.symm)]⟩
      · exact ⟨i₁, by rwa [Function.update_of_ne he]⟩
    · by_cases hj : j = i
      · rw [hj, Function.update_self]
        trivial
      · rw [Function.update_of_ne hj]
        exact hbr.2 j
    · rw [ht', hlast.plug_unlink]
      exact h.wf.branching.plug hu hne
  obtain ⟨log, g', hdo, hquiet, hcount, hret, hmap'⟩ := shrink_spec hun
  rw [ht', hlast.slot_unlink] at hdo
  have hnodes : g₁.tree.nodes = g.tree.nodes := by
    have h := Tree.nodes_plug (Coding.along nibs key) .nil g.tree
    rw [hfoc, Tree.nodes_leaf, Tree.nodes_nil, add_zero, add_zero] at h
    rw [ht', h]
  have ha : Ptr.node a ∈ g.tree.nodes := by
    rcases Tree.slotOf_cases (Coding.along nibs key) .root g.tree with h | ⟨p, hp, i, h⟩
    · rw [hslot] at h
      cases h
    · rw [hslot] at h
      cases h
      exact hp
  have hret' : Retired m (storeAll m (.slot (.child (.node a) (sliceIndex key (m.node a).shift)) .null :: log)) g.tree
      g'.tree := by
    refine ⟨fun b hb => ?_, fun b i hb hb' => hret.child b i (hnodes ▸ hb) hb'⟩
    refine (hret.node b (hnodes ▸ hb)).trans (slot_node m fun i hi => hb ?_)
    cases hi
    exact ha
  exact ⟨.slot (.child (.node a) (sliceIndex key (m.node a).shift)) .null :: log, g',
    .query rfl (.emit hs hdo), hquiet, hcount, hret', hmap'.trans hmap⟩

/-- What follows in `critnib_remove` once the number is drawn. -/
theorem critnibRemove_drawn (h : Quiet m g) (hroot : m.root ≠ .null) (key : Word) :
    ∃ v log g₁ g', (∀ fuel, g.tree.height < fuel → critnibRemove fuel key m = .ok (v, recycleLog m ++ log)) ∧
      Path m g (recycleLog m) g₁ ∧ Drawn (storeAll m (recycleLog m)) g₁ m.del ∧ g₁.tree = g.tree ∧
      Path (storeAll m (recycleLog m)) g₁ log g' ∧ Quiet (storeAll (storeAll m (recycleLog m)) log) g' ∧
      (storeAll (storeAll m (recycleLog m)) log).removeCount = m.removeCount + 1 ∧
      Retired (storeAll m (recycleLog m)) (storeAll (storeAll m (recycleLog m)) log) g.tree g'.tree ∧
      Removed g.tree.map g'.tree.map key v := by
  obtain ⟨g₁, hdo, hquiet, htree⟩ := recycle_spec h
  obtain ⟨dn, nd, dl, lf, hframe⟩ := recycleLog_frame m
  have hdrawn : Drawn (storeAll m (recycleLog m)) g₁ m.del := by
    refine ⟨hquiet, ?_, ?_, ?_⟩
    · exact del_succ _ m.removeCount (by rw [hframe])
    · rw [hquiet.pn, hframe]
      exact Function.update_self _ _ _
    · rw [hquiet.pl, hframe]
      exact Function.update_self _ _ _
  have hroot₁ : (storeAll m (recycleLog m)).root = m.root := by rw [hframe]
  have hcount₁ : (storeAll m (recycleLog m)).removeCount = m.removeCount + 1 := by rw [hframe]
  obtain ⟨m₁, hm₁⟩ : ∃ m₁, storeAll m (recycleLog m) = m₁ := ⟨_, rfl⟩
  rw [hm₁] at hdrawn hroot₁ hcount₁ ⊢
  rw [← htree]
  have hstart : ∀ {body : Fin 16 → Ptr → W ℕ} {v : ℕ} {log : List Event} {g' : Ghost},
      Does (body m.del m.root) m₁ g₁ v log g' →
      Does (do
        let n ← Wr.read (·.root)
        if n = .null then pure NULL
        else do
          let del ← recycle
          body del n) m g v (recycleLog m ++ log) g' := by
    intro body v log g' h
    refine .read ?_
    rw [if_neg hroot]
    exact .bind hdo (hm₁ ▸ h)
  -- it is enough to look at what follows
  suffices hrest : ∃ v log g', (∀ fuel, g₁.tree.height < fuel →
        Does (critnibRemove fuel key) m g v (recycleLog m ++ log) g') ∧
      Quiet (storeAll m₁ log) g' ∧ (storeAll m₁ log).removeCount = m₁.removeCount ∧
      Retired m₁ (storeAll m₁ log) g₁.tree g'.tree ∧ Removed g₁.tree.map g'.tree.map key v ∧ Path m₁ g₁ log g' by
    obtain ⟨v, log, g', hdo', hq, hcount, hret, hrem, hpath⟩ := hrest
    exact ⟨v, log, g₁, g', fun fuel hf => (hdo' fuel hf).run, hdo.path, hdrawn, rfl, hpath, hq, by rw [hcount, hcount₁],
      hret, hrem⟩
  cases hr : m.root with
  | null => exact absurd hr hroot
  | leaf k =>
      obtain ⟨v, log, g', hdo', hq, hcount, hret, hrem⟩ := removeRoot_spec hdrawn (hroot₁.trans hr) key
      refine ⟨v, log, g', fun fuel _ => hstart ?_, hq, hcount, hret, hrem, hdo'.path⟩
      rw [hr]
      exact hdo'
  | node a =>
      have hrep := hdrawn.rep
      rw [hroot₁, hr] at hrep
      cases hfoc : Tree.focus (Coding.along nibs key) g₁.tree with
      | node p n c => exact absurd hfoc (Coding.focus_along_not_node key _)
      | nil =>
          have hd := fun fuel (hf : g₁.tree.height < fuel) => removeDive_nil key (.node a) .root .root
            hrep hdrawn.fits hf hfoc
          refine ⟨NULL, [], g₁, fun fuel hf => hstart ?_, hdrawn.toQuiet, rfl, .refl m₁ g₁.tree,
            .absent (map_eq_none_of_focus ?_), .nil _ _⟩
          · rw [hr]
            exact .query (hd fuel hf) (.pure _ _ _)
          · intro q l hf
            rw [hfoc] at hf
            cases hf
      | leaf q l =>
          obtain ⟨a', k, rfl, rfl, hd, hn⟩ := removeDive_leaf key (.node a) .root .root hrep
            hdrawn.fits hfoc
          by_cases hkey : (m₁.leaf k).key = key
          · obtain ⟨p, n, c, hnode⟩ : ∃ p n c, g₁.tree = .node p n c := by
              cases ht : g₁.tree with
              | nil => rw [ht] at hfoc; cases hfoc
              | leaf p l =>
                  rw [ht] at hrep
                  obtain ⟨_, ⟨⟩, -⟩ := rep_leaf.mp hrep
              | node p n c => exact ⟨p, n, c, rfl⟩
            obtain ⟨log, g', hdo', hq, hcount, hret, hmap⟩ := removeLeaf_spec hdrawn hnode hn hfoc hkey
            refine ⟨(m₁.leaf k).value, log, g', fun fuel hf => hstart ?_, hq, hcount, hret, ⟨?_, hmap⟩, hdo'.path⟩
            · rw [hr]
              refine .query (hd fuel hf) (.read ?_)
              rw [if_neg (not_not.mpr hkey)]
              exact hdo'
            · simp [KMap.val, map_of_focus_leaf hfoc hkey]
          · refine ⟨NULL, [], g₁, fun fuel hf => hstart ?_, hdrawn.toQuiet, rfl, .refl m₁ g₁.tree,
              .absent (map_eq_none_of_focus ?_), .nil _ _⟩
            · rw [hr]
              refine .query (hd fuel hf) (.read ?_)
              rw [if_pos hkey]
              exact .pure _ _ _
            · intro q l hf
              rw [hfoc] at hf
              cases hf
              exact hkey

/-- `critnib_remove`: its stores keep the invariant one by one; it returns the value of the key and unbinds it. A
number is drawn unless the structure is empty. -/
theorem critnibRemove_spec (h : Quiet m g) (key : Word) :
    ∃ v log g', (∀ fuel, g.tree.height < fuel → Does (critnibRemove fuel key) m g v log g') ∧
      Quiet (storeAll m log) g' ∧
      (storeAll m log).removeCount = (if m.root = .null then m.removeCount else m.removeCount + 1) ∧
      Retired (if m.root = .null then m else storeAll m (recycleLog m)) (storeAll m log) g.tree g'.tree ∧
      Removed g.tree.map g'.tree.map key v := by
  by_cases hroot : m.root = .null
  · have hnil : g.tree = .nil := rep_null (hroot ▸ h.rep)
    refine ⟨NULL, [], g, fun _ _ => .read ?_, h, (if_pos hroot).symm, ?_, .absent (by rw [hnil]; rfl)⟩
    · rw [if_pos hroot]
      exact .pure _ _ _
    · rw [if_pos hroot]
      exact .refl m g.tree
  obtain ⟨v, log, g₁, g', hrun, hp₁, -, -, hp₂, hq, hcount, hret, hrem⟩ := critnibRemove_drawn h hroot key
  rw [← storeAll_append] at hq hcount hret
  rw [if_neg hroot, if_neg hroot]
  exact ⟨v, recycleLog m ++ log, g', fun fuel hf => ⟨hrun fuel hf, hp₁.append hp₂⟩, hq, hcount, hret, hrem⟩

end Ptok.Critnib
