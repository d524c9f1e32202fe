import Ptok.Critnib.Lemmas.Inv

/-!
# The writers' loops and the stores that link

The loops of `critnib_insert` and `critnib_remove` end at the slot where the walk of the trie ends. A store there
is a replacement of a subtree.
-/

namespace Ptok.Critnib

open Lib

def Mem.heap (m : Mem) : Heap Ptr Leaf Hdr (Fin 16) := ⟨m.root, m.cell⟩

theorem heap_slot (m : Mem) (s : Slot Ptr (Fin 16)) (p : Ptr) :
    (m.store (.slot s p)).heap = m.heap.set s p := by
  cases s with
  | root => rfl
  | child n i =>
      simp only [Mem.heap, Heap.set, Mem.store]
      congr 1
      · cases n <;> rfl
      · funext q
        cases n with
        | null =>
            by_cases hq : q = .null
            · subst hq; simp [Mem.cell]
            · rw [Function.update_of_ne hq]; rfl
        | leaf k =>
            by_cases hq : q = .leaf k
            · subst hq; simp [Mem.cell, Mem.setNode]
            · rw [Function.update_of_ne hq]; rfl
        | node a =>
            by_cases hq : q = .node a
            · subst hq; simp [Mem.cell, Mem.setNode]
            · rw [Function.update_of_ne hq]
              cases q with
              | null => rfl
              | leaf k => rfl
              | node b =>
                  have hb : b ≠ a := fun h => hq (by rw [h])
                  simp [Mem.cell, Mem.setNode, Function.update_of_ne hb]

theorem cell_slot (m : Mem) (s : Slot Ptr (Fin 16)) (p : Ptr) :
    (m.store (.slot s p)).cell = (m.heap.set s p).cell := congrArg Heap.cell (heap_slot m s p)

theorem slot_frame (m : Mem) (s : Slot Ptr (Fin 16)) (p : Ptr) :
    ∃ rt nd, m.store (.slot s p) = { m with root := rt, node := nd } := by
  rcases s with _ | ⟨_ | _ | _, _⟩ <;> exact ⟨_, _, rfl⟩

@[simp] theorem slot_leaf (m : Mem) (s : Slot Ptr (Fin 16)) (p : Ptr) : (m.store (.slot s p)).leaf = m.leaf := by
  rcases s with _ | ⟨_ | _ | _, _⟩ <;> rfl

/-- A store to a slot leaves every node alone but the one that holds the slot. -/
theorem slot_node (m : Mem) {s : Slot Ptr (Fin 16)} {p : Ptr} {b : Addr} (h : ∀ i, s ≠ .child (.node b) i) :
    (m.store (.slot s p)).node b = m.node b := by
  rcases s with _ | ⟨_ | a | _, i⟩
  · rfl
  · rfl
  · have hb : b ≠ a := by
      rintro rfl
      exact h i rfl
    simp [Mem.store, Mem.setNode, Function.update_of_ne hb]
  · rfl

theorem rep_null {m : Mem} {t : T} (h : Rep m.cell .null t) : t = .nil := by
  cases t with
  | nil => rfl
  | leaf p l => obtain ⟨rfl, h⟩ := h; cases h
  | node p n c => obtain ⟨rfl, ch, h, -⟩ := h; cases h

theorem rep_nil {m : Mem} {p : Ptr} : Rep m.cell p .nil ↔ p = .null := by
  constructor
  · intro h
    cases p with
    | null => rfl
    | node a => cases h
    | leaf k => cases h
  · rintro rfl
    rfl

theorem rep_null_iff {m : Mem} {p : Ptr} {t : T} (h : Rep m.cell p t) : p = .null ↔ t = .nil :=
  ⟨fun hp => rep_null (hp ▸ h), fun ht => rep_nil.mp (ht ▸ h)⟩

theorem rep_leaf {m : Mem} {p : Ptr} {q : Ptr} {l : Leaf} :
    Rep m.cell p (.leaf q l) ↔ ∃ k, p = .leaf k ∧ q = .leaf k ∧ l = m.leaf k := by
  constructor
  · rintro ⟨rfl, h⟩
    cases p with
    | null => cases h
    | node a => cases h
    | leaf k => cases h; exact ⟨k, rfl, rfl, rfl⟩
  · rintro ⟨k, rfl, rfl, rfl⟩
    exact ⟨rfl, rfl⟩

theorem rep_leaf_ptr {m : Mem} {k : Addr} {t : T} (h : Rep m.cell (.leaf k) t) : t = .leaf (.leaf k) (m.leaf k) := by
  cases t with
  | nil => cases h
  | leaf p l =>
      obtain ⟨k', ⟨⟩, rfl, rfl⟩ := rep_leaf.mp h
      rfl
  | node p n c =>
      obtain ⟨rfl, ch, h, -⟩ := h
      cases h

theorem rep_node {m : Mem} {p : Ptr} {q : Ptr} {n : Hdr} {c : Fin 16 → T} :
    Rep m.cell p (.node q n c) ↔ ∃ a, p = .node a ∧ q = .node a ∧ n = ⟨(m.node a).path, (m.node a).shift⟩ ∧
      ∀ i, Rep m.cell ((m.node a).child i) (c i) := by
  constructor
  · rintro ⟨rfl, ch, h, hc⟩
    cases p with
    | null => cases h
    | node a => cases h; exact ⟨a, rfl, rfl, rfl, hc⟩
    | leaf k => cases h
  · rintro ⟨a, rfl, rfl, rfl, hc⟩
    exact ⟨rfl, _, rfl, hc⟩

/-! ## Loops -/

/-- The loop of `critnib_insert` stops at the slot where the trie's walk ends. -/
theorem insertDive_eq {m : Mem} (key : Word) {t : T} : ∀ {n : Ptr} (prev : Ptr) (parent : Slot Ptr (Fin 16)),
    Rep m.cell n t →
    ∃ prev' n', (∀ fuel, t.height < fuel → insertDive m key fuel prev parent n =
        .ok (prev', Tree.slotOf (insertSel key) parent t, n')) ∧
      Rep m.cell n' (Tree.focus (insertSel key) t) ∧
      ((prev' = prev ∧ Tree.slotOf (insertSel key) parent t = parent ∧ Tree.focus (insertSel key) t = t) ∨
        ∃ a, prev' = .node a ∧ Tree.slotOf (insertSel key) parent t =
          .child (.node a) (sliceIndex key (m.node a).shift)) := by
  induction t with
  | nil =>
      intro n prev parent h
      obtain rfl := rep_nil.mp h
      refine ⟨prev, .null, fun fuel hf => ?_, h, Or.inl ⟨rfl, rfl, rfl⟩⟩
      obtain ⟨fuel, rfl⟩ := Nat.exists_eq_succ_of_ne_zero (by omega : fuel ≠ 0)
      rfl
  | leaf q l =>
      intro n prev parent h
      obtain ⟨k, rfl, -, -⟩ := rep_leaf.mp h
      refine ⟨prev, .leaf k, fun fuel hf => ?_, h, Or.inl ⟨rfl, rfl, rfl⟩⟩
      obtain ⟨fuel, rfl⟩ := Nat.exists_eq_succ_of_ne_zero (by omega : fuel ≠ 0)
      rfl
  | node q hdr c ih =>
      intro n prev parent h
      obtain ⟨a, rfl, rfl, rfl, hc⟩ := rep_node.mp h
      by_cases hp : key &&& pathMask (m.node a).shift = (m.node a).path
      · have hsel : insertSel key ⟨(m.node a).path, (m.node a).shift⟩ c =
            some (sliceIndex key (m.node a).shift) := if_pos hp
        have hlt := Tree.height_child_lt (.node a) ⟨(m.node a).path, (m.node a).shift⟩ c
          (sliceIndex key (m.node a).shift)
        obtain ⟨prev', n', hd, hr, hpos⟩ := ih (sliceIndex key (m.node a).shift)
          (.node a) (.child (.node a) (sliceIndex key (m.node a).shift)) (hc _)
        refine ⟨prev', n', fun fuel hf => ?_, ?_, Or.inr ?_⟩
        · obtain ⟨fuel, rfl⟩ := Nat.exists_eq_succ_of_ne_zero (by omega : fuel ≠ 0)
          rw [Tree.slotOf_some hsel, ← hd fuel (by omega)]
          simp only [insertDive, if_pos hp]
        · rwa [Tree.focus_some hsel]
        · rw [Tree.slotOf_some hsel]
          rcases hpos with ⟨rfl, hs, -⟩ | h
          · exact ⟨a, rfl, hs⟩
          · exact h
      · have hsel : insertSel key ⟨(m.node a).path, (m.node a).shift⟩ c = none := if_neg hp
        refine ⟨prev, .node a, fun fuel hf => ?_, ?_, Or.inl ⟨rfl, Tree.slotOf_none hsel, Tree.focus_none hsel⟩⟩
        · obtain ⟨fuel, rfl⟩ := Nat.exists_eq_succ_of_ne_zero (by omega : fuel ≠ 0)
          rw [Tree.slotOf_none hsel]
          simp only [insertDive, if_neg hp]
        · rwa [Tree.focus_none hsel]

/-- The digit that `critnib_remove` and the readers look at is the one the node branches on. -/
theorem along_eq {n : Hdr} (hok : nibs.ok n) (key : Word) (c : Fin 16 → T) :
    Coding.along nibs key n c = some (sliceIndex key n.shift) := by
  rw [Coding.along, dig_pos hok]

/-- The loop of `critnib_remove` ends at the leaf where the walk along the key ends. -/
theorem removeDive_leaf {m : Mem} (key : Word) {t : T} : ∀ {a : Addr} {b : ℕ} (n : Ptr)
    (kParent nParent : Slot Ptr (Fin 16)) {q : Ptr} {l : Leaf},
    Rep m.cell (.node a) t → nibs.Fits t b → Tree.focus (Coding.along nibs key) t = .leaf q l →
    ∃ a' k, q = .leaf k ∧ l = m.leaf k ∧
      (∀ fuel, t.height < fuel → removeDive m key fuel kParent nParent n (.node a) =
        .ok (some (Tree.slotOf (Coding.toParent nibs key) kParent t, .node a', k))) ∧
      Rep m.cell (.node a') (Tree.focus (Coding.toParent nibs key) t) := by
  induction t with
  | nil => intro a b n kP nP q l h; cases h
  | leaf p l => intro a b n kP nP q l h; obtain ⟨k, ⟨⟩, -⟩ := rep_leaf.mp h
  | node p hdr c ih =>
      intro a b n kParent nParent q l h hfit hfoc
      obtain ⟨a₀, ⟨⟩, rfl, rfl, hc⟩ := rep_node.mp h
      obtain ⟨hok, -, -, -, hfits⟩ := hfit
      have hal := along_eq hok key c
      have hdig := dig_pos hok key
      have hlt := Tree.height_child_lt (.node a) ⟨(m.node a).path, (m.node a).shift⟩ c
        (sliceIndex key (m.node a).shift)
      rw [Tree.focus_some hal] at hfoc
      have hci := hc (sliceIndex key (m.node a).shift)
      cases hch : c (sliceIndex key (m.node a).shift) with
      | nil => rw [hch] at hfoc; cases hfoc
      | leaf q' l' =>
          rw [hch] at hfoc hci hlt
          cases hfoc
          obtain ⟨k, hk, rfl, rfl⟩ := rep_leaf.mp hci
          have hsel : Coding.toParent nibs key ⟨(m.node a).path, (m.node a).shift⟩ c = none :=
            Coding.toParent_of_not_node (by rw [hdig, hch]; simp)
          refine ⟨a, k, rfl, rfl, fun fuel hf => ?_, ?_⟩
          · obtain ⟨fuel, rfl⟩ := Nat.exists_eq_succ_of_ne_zero (by omega : fuel ≠ 0)
            obtain ⟨fuel, rfl⟩ := Nat.exists_eq_succ_of_ne_zero (by omega : fuel ≠ 0)
            rw [Tree.slotOf_none hsel]
            simp [removeDive, hk]
          · rwa [Tree.focus_none hsel]
      | node p' n' c' =>
          rw [hch] at hfoc hci hlt
          obtain ⟨a', ha', -, -, -⟩ := rep_node.mp hci
          have hf := hfits (sliceIndex key (m.node a).shift)
          have hsel : Coding.toParent nibs key ⟨(m.node a).path, (m.node a).shift⟩ c =
              some (sliceIndex key (m.node a).shift) := by
            have hnode : c (nibs.dig key (nibs.pos ⟨(m.node a).path, (m.node a).shift⟩)) = .node p' n' c' := by
              rw [hdig, hch]
            rw [Coding.toParent_node hnode, hdig]
          have ih := @ih (sliceIndex key (m.node a).shift)
          rw [hch] at hf ih
          rw [ha'] at hci
          obtain ⟨a'', k, rfl, rfl, hd, hr⟩ := ih (.node a)
            (.child (.node a) (sliceIndex key (m.node a).shift)) kParent hci hf hfoc
          refine ⟨a'', k, rfl, rfl, fun fuel hfuel => ?_, ?_⟩
          · obtain ⟨fuel, rfl⟩ := Nat.exists_eq_succ_of_ne_zero (by omega : fuel ≠ 0)
            rw [Tree.slotOf_some hsel, hch, ← hd fuel (by omega)]
            simp [removeDive, ha']
          · rwa [Tree.focus_some hsel, hch]

/-- It notices a missing child. -/
theorem removeDive_nil {m : Mem} (key : Word) {t : T} : ∀ {a : Addr} {b fuel : ℕ} (n : Ptr)
    (kParent nParent : Slot Ptr (Fin 16)),
    Rep m.cell (.node a) t → nibs.Fits t b → t.height < fuel →
    Tree.focus (Coding.along nibs key) t = .nil → removeDive m key fuel kParent nParent n (.node a) = .ok none := by
  induction t with
  | nil => intro a b fuel n kP nP h; cases h
  | leaf p l => intro a b fuel n kP nP h; obtain ⟨k, ⟨⟩, -⟩ := rep_leaf.mp h
  | node p hdr c ih =>
      intro a b fuel n kParent nParent h hfit hfuel hfoc
      obtain ⟨a₀, ⟨⟩, rfl, rfl, hc⟩ := rep_node.mp h
      obtain ⟨fuel, rfl⟩ := Nat.exists_eq_succ_of_ne_zero (by omega : fuel ≠ 0)
      obtain ⟨hok, -, -, -, hfits⟩ := hfit
      have hlt := Tree.height_child_lt (.node a) ⟨(m.node a).path, (m.node a).shift⟩ c
        (sliceIndex key (m.node a).shift)
      rw [Tree.focus_some (along_eq hok key c)] at hfoc
      have hci := hc (sliceIndex key (m.node a).shift)
      have hf := hfits (sliceIndex key (m.node a).shift)
      have ih := @ih (sliceIndex key (m.node a).shift)
      cases hch : c (sliceIndex key (m.node a).shift) with
      | nil =>
          rw [hch] at hci
          simp [removeDive, rep_nil.mp hci]
      | leaf q' l' => rw [hch] at hfoc; cases hfoc
      | node p' n' c' =>
          rw [hch] at hfoc hci hlt hf ih
          obtain ⟨a', ha', -, -, -⟩ := rep_node.mp hci
          rw [ha'] at hci
          rw [← ih (.node a) (.child (.node a) (sliceIndex key (m.node a).shift)) kParent hci hf
            (by omega : _ < fuel) hfoc]
          simp [removeDive, ha']

/-! ## Stores to a slot of the tree -/

/-- A store to the slot where a walk ends. The rest is what the new subtree has to satisfy. -/
theorem Inv.slot {m : Mem} {g : Ghost} (h : Inv m g) (sel : Hdr → (Fin 16 → T) → Option (Fin 16)) (q : Ptr)
    (u : T) (fn fl : Multiset Ptr)
    (hu : Rep (m.store (.slot (Tree.slotOf sel .root g.tree) q)).cell q u)
    (hfit : nibs.Fits (Tree.plug sel u g.tree) 0)
    (hn : u.nodes + fn = (Tree.focus sel g.tree).nodes + g.fn)
    (hl : u.leaves + fl = (Tree.focus sel g.tree).leaves + g.fl) :
    Inv (m.store (.slot (Tree.slotOf sel .root g.tree) q))
      { g with tree := Tree.plug sel u g.tree, fn := fn, fl := fl } where
  rep := by
    rw [cell_slot] at hu ⊢
    obtain ⟨q'', hroot, hrep⟩ := Rep.plug (s := .root) (h := m.heap) h.rep rfl h.tree_nodup (by simp) hu
    rw [← heap_slot] at hroot
    cases hroot
    exact hrep
  fits := hfit
  nodePool := by
    rcases Tree.slotOf_cases sel .root g.tree with he | ⟨p, hp, i, he⟩ <;> rw [he]
    · exact h.nodePool.congr fun _ _ => rfl
    · obtain ⟨a, rfl⟩ := h.tree_node_isNode hp
      refine h.nodePool.congr fun b hb => Function.update_of_ne ?_ _ _
      rintro rfl
      have hd := (Multiset.nodup_add.mp (Multiset.nodup_add.mp (Multiset.nodup_add.mp h.nodup_nodes).1).1).2.2
      exact Multiset.disjoint_left.mp hd hp (by simpa using hb)
  leafPool := by
    rcases Tree.slotOf_cases sel .root g.tree with he | ⟨p, hp, i, he⟩ <;> rw [he]
    · exact h.leafPool.congr fun _ _ => rfl
    · obtain ⟨a, rfl⟩ := h.tree_node_isNode hp
      exact h.leafPool.congr fun _ _ => rfl
  nodes := by
    have hm : nodesOf (m.store (.slot (Tree.slotOf sel .root g.tree) q)) = nodesOf m := by
      rcases Tree.slotOf_cases sel .root g.tree with he | ⟨p, hp, i, he⟩ <;> rw [he]
      · rfl
      · obtain ⟨a, rfl⟩ := h.tree_node_isNode hp
        rfl
    rw [hm, ← h.nodes]
    have := Tree.nodes_plug sel u g.tree
    refine add_right_cancel (b := (Tree.focus sel g.tree).nodes) ?_
    simp only [Ghost.nodes]
    calc _ = (Tree.plug sel u g.tree).nodes + (Tree.focus sel g.tree).nodes +
          (g.ns.map Ptr.node : List Ptr) + ∑ d, ptrOwn (g.pn d) + fn := by abel
      _ = g.tree.nodes + (g.ns.map Ptr.node : List Ptr) + ∑ d, ptrOwn (g.pn d) + (u.nodes + fn) := by
          rw [this]; abel
      _ = _ := by rw [hn]; abel
  leaves := by
    have hm : leavesOf (m.store (.slot (Tree.slotOf sel .root g.tree) q)) = leavesOf m := by
      rcases Tree.slotOf_cases sel .root g.tree with he | ⟨p, hp, i, he⟩ <;> rw [he]
      · rfl
      · obtain ⟨a, rfl⟩ := h.tree_node_isNode hp
        rfl
    rw [hm, ← h.leaves]
    have := Tree.leaves_plug sel u g.tree
    refine add_right_cancel (b := (Tree.focus sel g.tree).leaves) ?_
    simp only [Ghost.leaves]
    calc _ = (Tree.plug sel u g.tree).leaves + (Tree.focus sel g.tree).leaves +
          (g.ls.map Ptr.leaf : List Ptr) + ∑ d, leafOwn (g.pl d) + fl := by abel
      _ = g.tree.leaves + (g.ls.map Ptr.leaf : List Ptr) + ∑ d, leafOwn (g.pl d) + (u.leaves + fl) := by
          rw [this]; abel
      _ = _ := by rw [hl]; abel

end Ptok.Critnib
