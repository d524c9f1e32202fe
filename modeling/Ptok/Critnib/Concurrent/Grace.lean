import Ptok.Lib.Finds
import Ptok.Critnib.Concurrent.Writes

/-!
# The grace period

A reader that saw the number `c` in `remove_count` may hold anything that has been in the tree since. As long as the
count is at most `c + 15`, nothing of it is written but the slots of the tree: what was unlinked under a number from
`c - 1` on is still parked.
-/

namespace Ptok.Critnib

open Lib

variable {m : Mem} {g g' : Ghost} {e : Event}

/-- In the tree. -/
def Ghost.InTree (g : Ghost) (p : Ptr) : Prop := p ∈ g.tree.nodes + g.tree.leaves

/-- In the slot of the ring. -/
def Ghost.Parked (g : Ghost) (d : Fin 16) (p : Ptr) : Prop := p ∈ ptrOwn (g.pn d) + leafOwn (g.pl d)

/-- The count is `n`, and what the slot holds was parked when it was at least `c`. -/
def Recent (c n : ℕ) (d : Fin 16) : Prop := ∃ s, c ≤ s ∧ s ≤ n ∧ n < s + 16 ∧ d + 1 = Fin.ofNat 16 s

/-- What a reader may hold that saw the number `c`. -/
structure Grace (c : ℕ) (m : Mem) (g : Ghost) (X : Ptr → Prop) : Prop where
  le : c ≤ m.removeCount.toNat
  null : X .null
  tree : ∀ p, g.InTree p → X p
  kept : ∀ p, X p → p = .null ∨ g.InTree p ∨ ∃ d, Recent c m.removeCount.toNat d ∧ g.Parked d p
  closed : ∀ a, X (.node a) → ∀ i, X ((m.node a).child i)
  ok : ∀ a, X (.node a) → nibs.ok ⟨(m.node a).path, (m.node a).shift⟩

/-! ## In the tree -/

theorem mem_ptrOwn_self {a : Addr} : Ptr.node a ∈ ptrOwn (.node a) := Multiset.mem_singleton_self _

theorem leafOwn_of_ne {k : Addr} (hk : k ≠ 0) : leafOwn k = {.leaf k} := if_neg hk

theorem Inv.sub_of_node (h : Inv m g) {a : Addr} (ha : g.InTree (.node a)) :
    ∃ c, Tree.Sub (.node (.node a) ⟨(m.node a).path, (m.node a).shift⟩ c) g.tree ∧
      ∀ i, Rep m.cell ((m.node a).child i) (c i) := by
  have hn : Ptr.node a ∈ g.tree.nodes := by
    rcases Multiset.mem_add.mp ha with hn | hl
    · exact hn
    · obtain ⟨k, ⟨⟩⟩ := h.tree_leaf_isLeaf hl
  obtain ⟨u, hu, hr⟩ := h.rep.exists_sub hn
  cases u with
  | nil => cases hr
  | leaf p l => obtain ⟨_, ⟨⟩, -⟩ := rep_leaf.mp hr
  | node p n c =>
      obtain ⟨_, ⟨⟩, rfl, rfl, hc⟩ := rep_node.mp hr
      exact ⟨c, hu, hc⟩

theorem Inv.inTree_child (h : Inv m g) {a : Addr} (ha : g.InTree (.node a)) (i : Fin 16) :
    (m.node a).child i = .null ∨ g.InTree ((m.node a).child i) := by
  obtain ⟨c, hsub, hc⟩ := h.sub_of_node ha
  by_cases hnil : c i = .nil
  · exact Or.inl (rep_nil.mp (hnil ▸ hc i))
  · right
    rcases Multiset.mem_add.mp ((hc i).mem hnil) with hm | hm
    · exact Multiset.mem_add.mpr (Or.inl (hsub.mem_nodes (Tree.mem_nodes_child hm)))
    · exact Multiset.mem_add.mpr (Or.inr (hsub.mem_leaves (Tree.mem_leaves_child hm)))

theorem Inv.ok_of_inTree (h : Inv m g) {a : Addr} (ha : g.InTree (.node a)) :
    nibs.ok ⟨(m.node a).path, (m.node a).shift⟩ := by
  obtain ⟨c, hsub, -⟩ := h.sub_of_node ha
  obtain ⟨b, -, hfit⟩ := h.fits.sub hsub
  exact hfit.1

theorem Inv.inTree_root (h : Inv m g) : m.root = .null ∨ g.InTree m.root := by
  by_cases hnil : g.tree = .nil
  · exact Or.inl (rep_nil.mp (hnil ▸ h.rep))
  · exact Or.inr (h.rep.mem hnil)

/-- When a reader begins, what is in the tree is all it can come to. -/
theorem Inv.grace (h : Inv m g) {c : ℕ} (hc : c ≤ m.removeCount.toNat) :
    Grace c m g fun p => p = .null ∨ g.InTree p where
  le := hc
  null := Or.inl rfl
  tree := fun p hp => Or.inr hp
  kept := by
    rintro p (rfl | hp)
    · exact Or.inl rfl
    · exact Or.inr (Or.inl hp)
  closed := by
    rintro a (⟨⟨⟩⟩ | ha) i
    exact h.inTree_child ha i
  ok := by
    rintro a (⟨⟨⟩⟩ | ha)
    exact h.ok_of_inTree ha

/-! ## One store -/

theorem Inv.ptrOwn_isNode (h : Inv m g) {d : Fin 16} {p : Ptr} (hp : p ∈ ptrOwn (g.pn d)) : ∃ a, p = .node a := by
  rcases h.pn_cases d with hd | ⟨a, hd⟩
  · rw [hd] at hp
    cases Multiset.notMem_zero _ hp
  · rw [hd] at hp
    exact ⟨a, Multiset.mem_singleton.mp hp⟩

theorem leafOwn_isLeaf {k : Addr} {p : Ptr} (hp : p ∈ leafOwn k) : ∃ k', p = .leaf k' := by
  unfold leafOwn at hp
  split at hp
  · cases Multiset.notMem_zero _ hp
  · exact ⟨_, Multiset.mem_singleton.mp hp⟩

theorem Inv.fn_isNode (h : Inv m g) {p : Ptr} (hp : p ∈ g.fn) : ∃ a, p = .node a := by
  have hm : p ∈ nodesOf m := h.nodes ▸ Multiset.mem_add.mpr (Or.inr hp)
  obtain ⟨a, -, rfl⟩ := mem_nodesOf.mp hm
  exact ⟨a, rfl⟩

theorem Inv.fl_isLeaf (h : Inv m g) {p : Ptr} (hp : p ∈ g.fl) : ∃ k, p = .leaf k := by
  have hm : p ∈ leavesOf m := h.leaves ▸ Multiset.mem_add.mpr (Or.inr hp)
  obtain ⟨k, -, -, rfl⟩ := mem_leavesOf.mp hm
  exact ⟨k, rfl⟩

/-- What is parked is neither in the tree nor in the hands of the writer. -/
theorem Inv.parked_out (h : Inv m g) {d : Fin 16} {p : Ptr} (hp : g.Parked d p) :
    ¬ g.InTree p ∧ p ∉ g.fn ∧ p ∉ g.fl := by
  rcases Multiset.mem_add.mp hp with hp | hp
  · obtain ⟨a, rfl⟩ := h.ptrOwn_isNode hp
    have hsum : Ptr.node a ∈ ∑ d, ptrOwn (g.pn d) := Multiset.mem_sum.mpr ⟨d, Finset.mem_univ d, hp⟩
    obtain ⟨hrest, -, hfn⟩ := Multiset.nodup_add.mp h.nodup_nodes
    have htree := (Multiset.nodup_add.mp hrest).2.2
    refine ⟨fun ht => ?_, fun hf => ?_, fun hf => ?_⟩
    · rcases Multiset.mem_add.mp ht with ht | ht
      · exact Multiset.disjoint_left.mp htree (Multiset.mem_add.mpr (Or.inl ht)) hsum
      · obtain ⟨k, ⟨⟩⟩ := h.tree_leaf_isLeaf ht
    · exact Multiset.disjoint_left.mp hfn (Multiset.mem_add.mpr (Or.inr hsum)) hf
    · obtain ⟨k, ⟨⟩⟩ := h.fl_isLeaf hf
  · obtain ⟨k, rfl⟩ := leafOwn_isLeaf hp
    have hsum : Ptr.leaf k ∈ ∑ d, leafOwn (g.pl d) := Multiset.mem_sum.mpr ⟨d, Finset.mem_univ d, hp⟩
    obtain ⟨hrest, -, hfl⟩ := Multiset.nodup_add.mp h.nodup_leaves
    have htree := (Multiset.nodup_add.mp hrest).2.2
    refine ⟨fun ht => ?_, fun hf => ?_, fun hf => ?_⟩
    · rcases Multiset.mem_add.mp ht with ht | ht
      · obtain ⟨a, ⟨⟩⟩ := h.tree_node_isNode ht
      · exact Multiset.disjoint_left.mp htree (Multiset.mem_add.mpr (Or.inl ht)) hsum
    · obtain ⟨a, ⟨⟩⟩ := h.fn_isNode hf
    · exact Multiset.disjoint_left.mp hfl (Multiset.mem_add.mpr (Or.inr hsum)) hf

theorem Held.node_eq (hh : Held g e) {a : Addr} (ha : .node a ∉ g.fn) : (m.store e).node a = m.node a := by
  have hset : ∀ {b} (f : Node → Node), Ptr.node b ∈ g.fn → (m.setNode (.node b) f).node a = m.node a := by
    intro b f hb
    refine Function.update_of_ne ?_ _ _
    rintro rfl
    exact ha hb
  cases hh with
  | slot hb i p => exact hset (fun x => { x with child := Function.update x.child i p }) hb
  | path hb w => exact hset (fun x => { x with path := w }) hb
  | shift hb s => exact hset (fun x => { x with shift := s }) hb
  | key _ _ => rfl
  | value _ _ => rfl

theorem Held.leaf_eq (hh : Held g e) {k : Addr} (hk : .leaf k ∉ g.fl) : (m.store e).leaf k = m.leaf k := by
  have hset : ∀ {b} (f : Leaf → Leaf), Ptr.leaf b ∈ g.fl → (m.setLeaf b f).leaf k = m.leaf k := by
    intro b f hb
    refine Function.update_of_ne ?_ _ _
    rintro rfl
    exact hk hb
  cases hh with
  | slot => exact congrFun (slot_leaf _ _ _) k
  | path => rfl
  | shift => rfl
  | key hb w => exact hset (fun x => { x with key := w }) hb
  | value hb v => exact hset (fun x => { x with value := v }) hb

/-- A node that is neither the writer's nor in the tree afterwards is not written. -/
theorem Step.node_eq (hs : Step m g e g') {a : Addr} (hfn : .node a ∉ g.fn) (ht : ¬ g'.InTree (.node a)) :
    (m.store e).node a = m.node a := by
  have hslot : ∀ {sel : Hdr → (Fin 16 → T) → Option (Fin 16)} {u : T} {q : Ptr},
      .node a ∉ (Tree.plug sel u g.tree).nodes →
      (m.store (.slot (Tree.slotOf sel .root g.tree) q)).node a = m.node a := by
    intro sel u q hu
    refine slot_node m fun i hi => hu (Tree.slotOf_mem_plug u hi ?_)
    simp
  have hnode : .node a ∉ g'.tree.nodes := fun hn => ht (Multiset.mem_add.mpr (Or.inl hn))
  cases hs with
  | held hh => exact hh.node_eq hfn
  | linkLeaf => exact hslot hnode
  | linkSplit => exact hslot hnode
  | unlink => exact hslot hnode
  | collapse => exact hslot hnode
  | _ => rfl

theorem Step.leaf_eq (hs : Step m g e g') {k : Addr} (hfl : .leaf k ∉ g.fl) : (m.store e).leaf k = m.leaf k := by
  cases hs with
  | held hh => exact hh.leaf_eq hfl
  | linkLeaf => exact congrFun (slot_leaf _ _ _) k
  | linkSplit => exact congrFun (slot_leaf _ _ _) k
  | unlink => exact congrFun (slot_leaf _ _ _) k
  | collapse => exact congrFun (slot_leaf _ _ _) k
  | _ => rfl

theorem mem_plug {sel : Hdr → (Fin 16 → T) → Option (Fin 16)} {t u : T} {p : Ptr} (hp : p ∈ u.nodes + u.leaves) :
    p ∈ (Tree.plug sel u t).nodes + (Tree.plug sel u t).leaves := by
  have hsub := Tree.sub_plug sel u t
  rcases Multiset.mem_add.mp hp with hp | hp
  · exact Multiset.mem_add.mpr (Or.inl (hsub.mem_nodes hp))
  · exact Multiset.mem_add.mpr (Or.inr (hsub.mem_leaves hp))

theorem mem_plug_or_focus (sel : Hdr → (Fin 16 → T) → Option (Fin 16)) {t : T} (u : T) {p : Ptr}
    (hp : p ∈ t.nodes + t.leaves) :
    p ∈ (Tree.plug sel u t).nodes + (Tree.plug sel u t).leaves ∨
      p ∈ (Tree.focus sel t).nodes + (Tree.focus sel t).leaves := by
  have hn : p ∈ t.nodes → p ∈ (Tree.plug sel u t).nodes + (Tree.focus sel t).nodes := by
    rw [Tree.nodes_plug]
    exact fun h => Multiset.mem_add.mpr (Or.inl h)
  have hl : p ∈ t.leaves → p ∈ (Tree.plug sel u t).leaves + (Tree.focus sel t).leaves := by
    rw [Tree.leaves_plug]
    exact fun h => Multiset.mem_add.mpr (Or.inl h)
  simp only [Multiset.mem_add] at hp hn hl ⊢
  tauto

/-- What leaves the tree is parked in the slot drawn last. -/
theorem Step.inTree (hs : Step m g e g') (h : Inv m g) {p : Ptr} (hp : g.InTree p) :
    g'.InTree p ∨ ∃ d, d + 1 = m.del ∧ g'.Parked d p := by
  cases hs with
  | @linkLeaf key k fl hfoc hkey hfl =>
      rcases mem_plug_or_focus (insertSel key) (.leaf (.leaf k) (m.leaf k)) hp with hp | hp
      · exact Or.inl hp
      · simp [hfoc] at hp
  | @linkSplit key path k a fl fn hwf hne hpath hat hpos hkey hfl hfn hrep =>
      left
      rcases mem_plug_or_focus (insertSel key)
        (splitTree a path key k (m.leaf k) (Tree.focus (insertSel key) g.tree)) hp with hp | hp
      · exact hp
      · refine mem_plug ?_
        rw [splitTree_nodes a hat, splitTree_leaves a hat]
        simp only [Multiset.mem_add, Multiset.mem_cons] at hp ⊢
        tauto
  | @unlink key k d hfoc hkey hd hpl =>
      rcases mem_plug_or_focus (Coding.along nibs key) .nil hp with hp' | hp'
      · exact Or.inl hp'
      · right
        rw [hfoc] at hp'
        obtain rfl : p = .leaf k := by simpa using hp'
        have hk : k ≠ 0 := by
          have hm : Ptr.leaf k ∈ leavesOf m := by
            rw [← h.leaves]
            have hin : Ptr.leaf k ∈ g.tree.leaves := by
              refine Tree.Sub.mem_leaves (Tree.sub_focus (Coding.along nibs key) g.tree) ?_
              simp [hfoc]
            simp only [Ghost.leaves, Multiset.mem_add]
            exact Or.inl (Or.inl (Or.inl hin))
          obtain ⟨k', hk', -, he⟩ := mem_leavesOf.mp hm
          cases he
          exact Nat.pos_iff_ne_zero.mp hk'
        refine ⟨d, hd, Multiset.mem_add.mpr (Or.inr ?_)⟩
        simp [leafOwn, hk]
  | @collapse key a hdr c o d hfoc hempty ho honly hd hpn =>
      rcases mem_plug_or_focus (Coding.toParent nibs key) (c o) hp with hp' | hp'
      · exact Or.inl hp'
      · rw [hfoc, Tree.nodes_node, Tree.leaves_node, Tree.sum_only Tree.nodes_nil honly, Tree.sum_only Tree.leaves_nil honly,
          Multiset.cons_add, Multiset.mem_cons] at hp'
        rcases hp' with rfl | hp'
        · right
          refine ⟨d, hd, Multiset.mem_add.mpr (Or.inl ?_)⟩
          simp [ptrOwn]
        · exact Or.inl (mem_plug hp')
  | _ => exact Or.inl hp

/-- What is parked stays where it is until its slot is drawn again. -/
theorem Step.parked (hs : Step m g e g') {d : Fin 16} {p : Ptr} (hp : g.Parked d p) :
    g'.Parked d p ∨ e.IsDraw ∧ d = m.del := by
  cases hs with
  | draw =>
      by_cases hd : d = m.del
      · exact Or.inr ⟨rfl, hd⟩
      · left
        simpa [Ghost.Parked, Function.update_of_ne hd] using hp
  | @unlink key k d' hfoc hkey hd hpl =>
      left
      by_cases he : d = d'
      · subst he
        simp only [Ghost.Parked, hpl] at hp ⊢
        simpa [leafOwn, Multiset.mem_add] using Or.inl hp
      · simpa [Ghost.Parked, Function.update_of_ne he] using hp
  | @collapse key a hdr c o d' hfoc hempty ho honly hd hpn =>
      left
      by_cases he : d = d'
      · subst he
        simp only [Ghost.Parked, hpn] at hp ⊢
        simpa [ptrOwn, Multiset.mem_add] using Or.inr hp
      · simpa [Ghost.Parked, Function.update_of_ne he] using hp
  | _ => exact Or.inl hp

theorem Inv.inTree_not_held (h : Inv m g) {p : Ptr} (hp : g.InTree p) : p ∉ g.fn ∧ p ∉ g.fl := by
  rcases Multiset.mem_add.mp hp with hp | hp
  · obtain ⟨a, rfl⟩ := h.tree_node_isNode hp
    refine ⟨fun hf => (h.free_node hf).1 hp, fun hf => ?_⟩
    obtain ⟨k, ⟨⟩⟩ := h.fl_isLeaf hf
  · obtain ⟨k, rfl⟩ := h.tree_leaf_isLeaf hp
    refine ⟨fun hf => ?_, fun hf => (h.free_leaf hf).1 hp⟩
    obtain ⟨a, ⟨⟩⟩ := h.fn_isNode hf

theorem Grace.not_held {c : ℕ} {X : Ptr → Prop} (hg : Grace c m g X) (h : Inv m g) {p : Ptr} (hp : X p)
    (hne : p ≠ .null) : p ∉ g.fn ∧ p ∉ g.fl := by
  rcases hg.kept p hp with rfl | ht | ⟨d, -, hd⟩
  · exact absurd rfl hne
  · exact h.inTree_not_held ht
  · exact (h.parked_out hd).2

/-- The count does not come to `c + 16` and does not wrap around. -/
structure InLife (c : ℕ) (m : Mem) (e : Event) : Prop where
  le : (m.store e).removeCount.toNat ≤ c + 15
  mono : m.removeCount.toNat ≤ (m.store e).removeCount.toNat

theorem Mem.del_succ_eq (m : Mem) : m.del + 1 = Fin.ofNat 16 (m.removeCount.toNat + 1) := by
  apply Fin.ext
  simp only [Mem.del, Fin.val_add, Fin.val_ofNat]
  simp

theorem Recent.step {c : ℕ} (hs : Step m g e g') (hl : InLife c m e) {d : Fin 16}
    (h : Recent c m.removeCount.toNat d) :
    Recent c (m.store e).removeCount.toNat d ∧ ¬ (e.IsDraw ∧ d = m.del) := by
  obtain ⟨s, hcs, hsn, hns, hd⟩ := h
  have hle := hl.le
  have hmono := hl.mono
  have hcount := hs.removeCount
  cases hdraw : e.IsDraw with
  | false =>
      rw [hdraw, if_neg (by simp)] at hcount
      rw [hcount]
      exact ⟨⟨s, hcs, hsn, hns, hd⟩, by simp⟩
  | true =>
      rw [hdraw, if_pos rfl] at hcount
      have hlt := m.removeCount.isLt
      have hn : (m.store e).removeCount.toNat = m.removeCount.toNat + 1 := by
        rw [hcount, BitVec.toNat_add] at hmono ⊢
        simp at hmono ⊢
        omega
      rw [hn] at hle ⊢
      have hne : d ≠ m.del := by
        rintro rfl
        rw [m.del_succ_eq, Fin.ext_iff, Fin.val_ofNat, Fin.val_ofNat] at hd
        omega
      have hs : s ≠ m.removeCount.toNat - 15 ∨ m.removeCount.toNat < 15 := by
        by_contra hc
        rw [not_or, not_not, not_lt] at hc
        obtain ⟨rfl, hc⟩ := hc
        refine hne (add_right_cancel (b := (1 : Fin 16)) ?_)
        rw [hd, m.del_succ_eq, Fin.ext_iff, Fin.val_ofNat, Fin.val_ofNat]
        omega
      exact ⟨⟨s, hcs, by omega, by omega, hd⟩, by simp [hne]⟩

/-- The grace period goes on over a store that does not end it. -/
theorem Grace.step {c : ℕ} {X : Ptr → Prop} (hg : Grace c m g X) (h : Inv m g) (hs : Step m g e g')
    (hl : InLife c m e) : Grace c (m.store e) g' fun p => X p ∨ g'.InTree p where
  le := hg.le.trans hl.mono
  null := Or.inl hg.null
  tree := fun p hp => Or.inr hp
  kept := by
    rintro p (hp | hp)
    · rcases hg.kept p hp with rfl | ht | ⟨d, hd, hpd⟩
      · exact Or.inl rfl
      · rcases hs.inTree h ht with ht | ⟨d, hd, hpd⟩
        · exact Or.inr (Or.inl ht)
        · have hrec : Recent c m.removeCount.toNat d := ⟨_, hg.le, le_rfl, by omega, hd⟩
          exact Or.inr (Or.inr ⟨d, (hrec.step hs hl).1, hpd⟩)
      · obtain ⟨hr, hnd⟩ := hd.step hs hl
        exact Or.inr (Or.inr ⟨d, hr, (hs.parked hpd).resolve_right hnd⟩)
    · exact Or.inr (Or.inl hp)
  closed := by
    intro a ha i
    by_cases ht : g'.InTree (.node a)
    · rcases (hs.inv h).inTree_child ht i with hn | hc
      · exact Or.inl (hn ▸ hg.null)
      · exact Or.inr hc
    · have ha := ha.resolve_right ht
      rw [hs.node_eq (hg.not_held h ha (by simp)).1 ht]
      exact Or.inl (hg.closed a ha i)
  ok := by
    intro a ha
    by_cases ht : g'.InTree (.node a)
    · exact (hs.inv h).ok_of_inTree ht
    · have ha := ha.resolve_right ht
      rw [hs.node_eq (hg.not_held h ha (by simp)).1 ht]
      exact hg.ok a ha

/-! ## What a reader finds -/

/-- The map, changed at the store that links or unlinks a leaf, gives this value for the key. -/
def Gives (m : Mem) (key : Word) (v : ℕ) : Prop :=
  (∃ k, m.Live (.leaf k) ∧ (m.leaf k).key = key ∧ (m.leaf k).value = v) ∨
    v = NULL ∧ ∀ k, m.Live (.leaf k) → (m.leaf k).key ≠ key

/-- The value a lookup reports for what it found. -/
def leafVal (r : Option Leaf) : ℕ := (r.map (·.value)).getD NULL

theorem Inv.gives (h : Inv m g) (key : Word) : Gives m key (leafVal (nibs.get key g.tree)) := by
  cases hget : nibs.get key g.tree with
  | none =>
      right
      refine ⟨rfl, fun k hk => ?_⟩
      exact (Coding.get_eq_none h.fits.routed).mp hget (m.leaf k) ((sub_leaf_of_reaches h.rep hk).has rfl)
  | some l =>
      left
      obtain ⟨hl, hkey⟩ := (Coding.get_eq_some h.fits.routed).mp hget
      obtain ⟨p, hp, hcell⟩ := h.rep.reaches_leaf hl
      cases p with
      | null => cases hcell
      | node a => cases hcell
      | leaf k =>
          cases hcell
          exact ⟨k, hp, hkey, rfl⟩

/-- A store of a writer changes nothing that readers come to, or it puts another subtree into a slot of the tree. A
lookup in the new subtree gives what it gave in the old one, or what it gives now in the whole tree. -/
theorem Step.relink (hs : Step m g e g') (h : Inv m g) :
    (∀ p, p ∉ g.fn → p ∉ g.fl → (m.store e).cell p = m.cell p) ∨
      ∃ sel u q, e = .slot (Tree.slotOf sel .root g.tree) q ∧ g'.tree = Tree.plug sel u g.tree ∧
        ∀ key, nibs.get key u = nibs.get key (Tree.focus sel g.tree) ∨ nibs.get key u = nibs.get key g'.tree := by
  have hfocus : ∀ sel, nibs.Routed (Tree.focus sel g.tree) := fun sel => by
    obtain ⟨b, -, hfit⟩ := h.fits.focus sel
    exact hfit.routed
  have hplug : ∀ {sel u}, g'.tree = Tree.plug sel u g.tree → nibs.Routed u := fun {sel u} he => by
    obtain ⟨b, -, hfit⟩ := ((hs.inv h).fits).sub (he ▸ Tree.sub_plug sel u g.tree)
    exact hfit.routed
  have hother : ∀ {key₀ sel u}, Coding.Chooses nibs key₀ sel → g'.tree = Tree.plug sel u g.tree →
      (∀ l, l.key ≠ key₀ → (u.Has l ↔ (Tree.focus sel g.tree).Has l)) →
      ∀ key, nibs.get key u = nibs.get key (Tree.focus sel g.tree) ∨ nibs.get key u = nibs.get key g'.tree := by
    intro key₀ sel u hsel he hhas key
    by_cases hk : key = key₀
    · subst hk
      rw [he, Coding.get_plug hsel u h.fits]
      exact Or.inr rfl
    · refine Or.inl (Coding.get_congr (hfocus sel) (hplug he) fun l hl => hhas l ?_)
      rw [← nibs_key l, hl]
      exact hk
  have hlocal : (∀ a, (m.store e).node a = m.node a) → (∀ k, (m.store e).leaf k = m.leaf k) →
      ∀ p, p ∉ g.fn → p ∉ g.fl → (m.store e).cell p = m.cell p := by
    intro hn hl p _ _
    cases p with
    | null => rfl
    | node a => simp only [Mem.cell, hn a]
    | leaf k => simp only [Mem.cell, hl k]
  cases hs with
  | held hh =>
      left
      intro p hfn hfl
      cases p with
      | null => rfl
      | node a => simp only [Mem.cell, hh.node_eq hfn]
      | leaf k => simp only [Mem.cell, hh.leaf_eq hfl]
  | @linkLeaf key k fl hfoc hkey hfl =>
      refine Or.inr ⟨_, _, _, rfl, rfl, hother (insertSel_follows key).chooses rfl fun l hl => ?_⟩
      rw [hfoc]
      refine iff_of_false ?_ id
      rintro rfl
      exact hl hkey
  | @linkSplit key path k a fl fn hwf hne hpath hat hpos hkey hfl hfn hrep =>
      refine Or.inr ⟨_, _, _, rfl, rfl, hother (insertSel_follows key).chooses rfl fun l hl => ?_⟩
      rw [splitTree_has hat, or_iff_right]
      rintro rfl
      exact hl hkey
  | @unlink key k d hfoc hkey hd hpl =>
      refine Or.inr ⟨_, _, _, rfl, rfl, hother (Coding.along_chooses nibs key) rfl fun l hl => ?_⟩
      rw [hfoc]
      refine iff_of_false id ?_
      rintro rfl
      exact hl hkey
  | @collapse key a hdr c o d hfoc hempty ho honly hd hpn =>
      refine Or.inr ⟨_, _, _, rfl, rfl, fun k => Or.inl ?_⟩
      refine Coding.get_congr (hfocus _) (hplug rfl) fun l hl => ?_
      rw [hfoc]
      constructor
      · exact fun hl => ⟨o, hl⟩
      · rintro ⟨i, hi⟩
        by_cases hio : i = o
        · exact hio ▸ hi
        · rw [honly i hio] at hi
          exact hi.elim
  | _ => exact Or.inl (hlocal (fun _ => rfl) fun _ => rfl)

/-- What one store means for a reader that dives along `key`. `W` are the answers that were current by now. -/
theorem Grace.fate {c : ℕ} {X : Ptr → Prop} (hg : Grace c m g X) (h : Inv m g) (hs : Step m g e g') {key : Word}
    {W : ℕ → Prop} (hW : ∀ v, Gives (m.store e) key v → W v) (p : Ptr) (hp : X p) :
    Coding.Fate nibs m.cell (m.store e).cell key (fun r => W (leafVal r)) p := by
  by_cases hnull : p = .null
  · subst hnull
    exact .same rfl
  obtain ⟨hfn, hfl⟩ := hg.not_held h hp hnull
  have hinv := hs.inv h
  rcases hs.relink h with hsame | ⟨sel, u, q, rfl, ht, hview⟩
  · exact .same (hsame p hfn hfl)
  cases p with
  | null => exact absurd rfl hnull
  | leaf k => exact .same (by simp only [Mem.cell, hs.leaf_eq hfl])
  | node a =>
      by_cases hslot : ∃ i, Tree.slotOf sel .root g.tree = .child (.node a) i
      · obtain ⟨i, hi⟩ := hslot
        obtain ⟨q', hq', hrep⟩ := Rep.focus sel (h := m.heap) (s := .root) h.rep rfl
        rw [hi] at hinv hW ⊢ hq'
        obtain ⟨_, _, ⟨⟩, rfl⟩ := hq'
        have hcell : (m.store (.slot (.child (.node a) i) q)).cell (.node a) =
            .node ⟨(m.node a).path, (m.node a).shift⟩ (Function.update (m.node a).child i q) := by
          simp [Mem.cell, Mem.store, Mem.setNode]
        have hrep' : Rep (m.store (.slot (.child (.node a) i) q)).cell q u := by
          have hr := hinv.rep
          rw [ht] at hr
          obtain ⟨q', hq', hr⟩ := Rep.of_plug sel (h := Mem.heap _) (s := .root) hr rfl
          rw [hi] at hq'
          obtain ⟨n, ch, hn, rfl⟩ := hq'
          cases hcell.symm.trans hn
          rwa [Function.update_self] at hr
        refine .slot rfl hcell fun r hr => ?_
        rw [Coding.finds_iff hrep'] at hr
        subst hr
        rcases hview key with he | he
        · exact Or.inl ((Coding.finds_iff hrep).mpr he)
        · rw [he]
          exact Or.inr (hW _ (hinv.gives key))
      · refine .same ?_
        have := slot_node m (p := q) fun i hi => hslot ⟨i, hi⟩
        simp only [Mem.cell, this]

/-- While the grace period lasts, a reader that would come to a current answer still does. -/
theorem Grace.finds {c : ℕ} {X : Ptr → Prop} (hg : Grace c m g X) (h : Inv m g) (hs : Step m g e g') {key : Word}
    {W : ℕ → Prop} (hW : ∀ v, Gives (m.store e) key v → W v) {p : Ptr} (hp : X p)
    (hf : ∀ r, nibs.Finds m.cell key p r → W (leafVal r)) :
    ∀ r, nibs.Finds (m.store e).cell key p r → W (leafVal r) := by
  intro r hr
  have hclosed : ∀ {p n ch}, X p → m.cell p = .node n ch → ∀ i, X (ch i) := by
    intro p n ch hp hn i
    cases p with
    | null => cases hn
    | leaf k => cases hn
    | node a =>
        cases hn
        exact hg.closed a hp i
  exact (Coding.Finds.of_fate hclosed (hg.fate h hs hW) hp hr).elim (hf r) id

end Ptok.Critnib
