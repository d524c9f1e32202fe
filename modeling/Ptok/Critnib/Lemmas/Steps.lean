import Ptok.Critnib.Lemmas.Dive

/-!
# What a writer's store can do

`Step` lists the stores of `critnib_insert` and `critnib_remove` with what they mean for the ownership of nodes
and leaves. Four of them touch what readers can reach from the root: the links of a leaf and of a split, the
unlinking of a leaf and the collapse of a node.
-/

namespace Ptok.Critnib

open Lib

/-- The slot of the ring that the next remove draws. -/
def Mem.del (m : Mem) : Fin 16 := Fin.ofNat 16 m.removeCount.toNat

/-- The subtree a split puts in place of `old`: the leaf and `old` below the new node `a`. -/
def splitTree (a : Addr) (path key : Word) (k : Addr) (l : Leaf) (old : T) : T :=
  .node (.node a) (splitHdr path key)
    (Function.update (Function.update (fun _ => .nil) (nibs.dig key (nibs.pos (splitHdr path key)))
      (.leaf (.leaf k) l)) (nibs.dig path (nibs.pos (splitHdr path key))) old)

/-- A store into a node or leaf that the writer holds. -/
inductive Held (g : Ghost) : Event → Prop
  | slot {a : Addr} (h : .node a ∈ g.fn) (i : Fin 16) (p : Ptr) : Held g (.slot (.child (.node a) i) p)
  | path {a : Addr} (h : .node a ∈ g.fn) (w : Word) : Held g (.path (.node a) w)
  | shift {a : Addr} (h : .node a ∈ g.fn) (s : ℕ) : Held g (.shift (.node a) s)
  | key {k : Addr} (h : .leaf k ∈ g.fl) (w : Word) : Held g (.key k w)
  | value {k : Addr} (h : .leaf k ∈ g.fl) (v : ℕ) : Held g (.value k v)

/-- One store of a writer in memory `m`, with what it does to the ownership. -/
inductive Step (m : Mem) : Ghost → Event → Ghost → Prop
  /-- a number is drawn; what was parked under its slot is the writer's -/
  | draw (g : Ghost) : Step m g (.removeCount (m.removeCount + 1))
      { g with
        pn := Function.update g.pn m.del .null
        pl := Function.update g.pl m.del 0
        fn := ptrOwn (g.pn m.del) + g.fn
        fl := leafOwn (g.pl m.del) + g.fl }
  /-- the ring in memory; the ghost's ring already says what was parked -/
  | ringNode (g : Ghost) (d : Fin 16) (n : Ptr) : Step m g (.pendingDelNode d n) g
  | ringLeaf (g : Ghost) (d : Fin 16) (k : Addr) : Step m g (.pendingDelLeaf d k) g
  | mallocNodeFail (g : Ghost) : Step m g (.mallocNode false) g
  | mallocLeafFail (g : Ghost) : Step m g (.mallocLeaf false) g
  | mallocNode (g : Ghost) : Step m g (.mallocNode true) { g with fn := .node m.nodesMalloced ::ₘ g.fn }
  | mallocLeaf (g : Ghost) : Step m g (.mallocLeaf true) { g with fl := .leaf (m.leavesMalloced + 1) ::ₘ g.fl }
  | popNode {g : Ghost} {a : Addr} {as : List Addr} (h : g.ns = a :: as) :
      Step m g (.deletedNode ((m.node a).child 0)) { g with ns := as, fn := .node a ::ₘ g.fn }
  | popLeaf {g : Ghost} {k : Addr} {ks : List Addr} (h : g.ls = k :: ks) :
      Step m g (.deletedLeaf (m.leaf k).value) { g with ls := ks, fl := .leaf k ::ₘ g.fl }
  | pushNode {g : Ghost} {a : Addr} {fn : Multiset Ptr} (hfn : g.fn = .node a ::ₘ fn)
      (hlink : (m.node a).child 0 = m.deletedNode) :
      Step m g (.deletedNode (.node a)) { g with ns := a :: g.ns, fn := fn }
  | pushLeaf {g : Ghost} {k : Addr} {fl : Multiset Ptr} (hfl : g.fl = .leaf k ::ₘ fl)
      (hlink : (m.leaf k).value = m.deletedLeaf) :
      Step m g (.deletedLeaf k) { g with ls := k :: g.ls, fl := fl }
  | held {g : Ghost} {e : Event} (h : Held g e) : Step m g e g
  /-- the leaf is linked into an empty slot -/
  | linkLeaf {g : Ghost} {key : Word} {k : Addr} {fl : Multiset Ptr}
      (hfoc : Tree.focus (insertSel key) g.tree = .nil) (hkey : (m.leaf k).key = key)
      (hfl : g.fl = .leaf k ::ₘ fl) :
      Step m g (.slot (Tree.slotOf (insertSel key) .root g.tree) (.leaf k))
        { g with tree := Tree.plug (insertSel key) (.leaf (.leaf k) (m.leaf k)) g.tree, fl := fl }
  /-- a node with the leaf and the subtree that was there is linked -/
  | linkSplit {g : Ghost} {key path : Word} {k a : Addr} {fl fn : Multiset Ptr}
      (hwf : Coding.Branching g.tree) (hne : Tree.focus (insertSel key) g.tree ≠ .nil)
      (hpath : nibs.pathOf key (Tree.focus (insertSel key) g.tree) = path) (hat : path ^^^ key ≠ 0#64)
      (hpos : nibs.pos (splitHdr path key) < nibs.posOf (Tree.focus (insertSel key) g.tree))
      (hkey : (m.leaf k).key = key) (hfl : g.fl = .leaf k ::ₘ fl) (hfn : g.fn = .node a ::ₘ fn)
      (hrep : Rep m.cell (.node a) (splitTree a path key k (m.leaf k) (Tree.focus (insertSel key) g.tree))) :
      Step m g (.slot (Tree.slotOf (insertSel key) .root g.tree) (.node a))
        { g with
          tree := Tree.plug (insertSel key)
            (splitTree a path key k (m.leaf k) (Tree.focus (insertSel key) g.tree)) g.tree
          fl := fl
          fn := fn }
  /-- the leaf of the key is taken out of its slot; it belongs to the ring from now on, under the number drawn
  last -/
  | unlink {g : Ghost} {key : Word} {k : Addr} {d : Fin 16}
      (hfoc : Tree.focus (Coding.along nibs key) g.tree = .leaf (.leaf k) (m.leaf k))
      (hkey : (m.leaf k).key = key) (hd : d + 1 = m.del) (hpl : g.pl d = 0) :
      Step m g (.slot (Tree.slotOf (Coding.along nibs key) .root g.tree) .null)
        { g with tree := Tree.plug (Coding.along nibs key) .nil g.tree, pl := Function.update g.pl d k }
  /-- the only child of a node takes its place -/
  | collapse {g : Ghost} {key : Word} {a : Addr} {hdr : Hdr} {c : Fin 16 → T} {o d : Fin 16}
      (hfoc : Tree.focus (Coding.toParent nibs key) g.tree = .node (.node a) hdr c)
      (hempty : c (nibs.dig key (nibs.pos hdr)) = .nil) (ho : c o ≠ .nil) (honly : ∀ i ≠ o, c i = .nil)
      (hd : d + 1 = m.del) (hpn : g.pn d = .null) :
      Step m g (.slot (Tree.slotOf (Coding.toParent nibs key) .root g.tree) ((m.node a).child o))
        { g with tree := Tree.plug (Coding.toParent nibs key) (c o) g.tree, pn := Function.update g.pn d (.node a) }

/-- The stores of a writer, one after another. -/
inductive Path : Mem → Ghost → List Event → Ghost → Prop
  | nil (m : Mem) (g : Ghost) : Path m g [] g
  | cons {m : Mem} {g g₁ g₂ : Ghost} {e : Event} {log : List Event} (h : Step m g e g₁)
      (t : Path (m.store e) g₁ log g₂) : Path m g (e :: log) g₂

theorem Path.append {m : Mem} {g g₁ g₂ : Ghost} {log log' : List Event} (h : Path m g log g₁)
    (h' : Path (storeAll m log) g₁ log' g₂) : Path m g (log ++ log') g₂ := by
  induction h with
  | nil m g => exact h'
  | cons h t ih => exact .cons h (ih h')

theorem Path.single {m : Mem} {g g' : Ghost} {e : Event} (h : Step m g e g') : Path m g [e] g' :=
  .cons h (.nil _ _)

theorem Path.held {g : Ghost} : ∀ {log : List Event} (m : Mem), (∀ e ∈ log, Held g e) → Path m g log g
  | [], m, _ => .nil m g
  | e :: log, m, h => .cons (.held (h e (by simp))) (Path.held _ fun e he => h e (by simp [he]))

/-- Code returns `a`, and its stores lead from one ghost to the other. -/
structure Does {α : Type} (x : W α) (m : Mem) (g : Ghost) (a : α) (log : List Event) (g' : Ghost) : Prop where
  run : x m = .ok (a, log)
  path : Path m g log g'

theorem Does.bind {α β : Type} {x : W α} {f : α → W β} {m : Mem} {g g₁ g₂ : Ghost} {a : α} {b : β}
    {l l' : List Event} (h : Does x m g a l g₁) (h' : Does (f a) (storeAll m l) g₁ b l' g₂) :
    Does (x >>= f) m g b (l ++ l') g₂ where
  run := by simp [h.run, h'.run, Except.bind, Except.map]
  path := h.path.append h'.path

theorem Does.pure {α : Type} (a : α) (m : Mem) (g : Ghost) : Does (Pure.pure a) m g a [] g := ⟨rfl, .nil m g⟩

theorem Does.read {α β : Type} {v : Mem → β} {f : β → W α} {m : Mem} {g g' : Ghost} {a : α} {log : List Event}
    (h : Does (f (v m)) m g a log g') : Does (Wr.read v >>= f) m g a log g' :=
  Does.bind (l := []) ⟨rfl, .nil m g⟩ h

theorem Does.query {α β : Type} {v : Mem → Except Stuck β} {b : β} {f : β → W α} {m : Mem} {g g' : Ghost} {a : α}
    {log : List Event} (hv : v m = .ok b) (h : Does (f b) m g a log g') : Does (Wr.query v >>= f) m g a log g' :=
  Does.bind (l := []) ⟨by simp [hv, Except.map], .nil m g⟩ h

theorem Does.emit {α : Type} {e : Event} {f : Unit → W α} {m : Mem} {g g₁ g' : Ghost} {a : α} {log : List Event}
    (hs : Step m g e g₁) (h : Does (f ()) (m.store e) g₁ a log g') :
    Does (Wr.emit e >>= f) m g a (e :: log) g' :=
  Does.bind (l := [e]) ⟨rfl, .single hs⟩ h

/-! ## The invariant holds between any two stores -/

/-- A slot of the ring changes hands. -/
theorem sum_update_own {α : Type} (own : α → Multiset Ptr) (f : Fin 16 → α) (d : Fin 16) (x : α) :
    ∑ i, own (Function.update f d x i) + own (f d) = ∑ i, own (f i) + own x := by
  rw [Tree.sum_split _ d, Tree.sum_split (fun i => own (f i)) d, Function.update_self]
  have : ∑ j ∈ Finset.univ.erase d, own (Function.update f d x j) = ∑ j ∈ Finset.univ.erase d, own (f j) :=
    Finset.sum_congr rfl fun j hj => by rw [Function.update_of_ne (Finset.ne_of_mem_erase hj)]
  rw [this]
  abel

@[simp] theorem splitTree_nodes (a : Addr) {path key : Word} (hat : path ^^^ key ≠ 0#64) (k : Addr) (l : Leaf)
    (old : T) : (splitTree a path key k l old).nodes = .node a ::ₘ old.nodes := by
  refine (Tree.fork_nodes (splitHdr_dig hat)).trans ?_
  rw [Tree.nodes_leaf, zero_add]

@[simp] theorem splitTree_leaves (a : Addr) {path key : Word} (hat : path ^^^ key ≠ 0#64) (k : Addr) (l : Leaf)
    (old : T) : (splitTree a path key k l old).leaves = .leaf k ::ₘ old.leaves := by
  refine (Tree.fork_leaves (splitHdr_dig hat)).trans ?_
  rw [Tree.leaves_leaf, Multiset.singleton_add]

theorem splitTree_has {a : Addr} {path key : Word} (hat : path ^^^ key ≠ 0#64) {k : Addr} {l : Leaf} {old : T}
    (l' : Leaf) : (splitTree a path key k l old).Has l' ↔ l' = l ∨ old.Has l' := by
  refine (Tree.fork_has (splitHdr_dig hat) l').trans ?_
  rw [Tree.has_leaf, eq_comm]

/-- The tree of a split is a trie wherever the old subtree was one. -/
theorem splitTree_wf {a : Addr} {path key : Word} {k : Addr} {l : Leaf} {old : T} {b : ℕ} (hold : nibs.WF old b)
    (hne : old ≠ .nil) (hb : ∀ l, old.Has l → nibs.Agree b key (nibs.key l))
    (hpath : nibs.pathOf key old = path) (hat : path ^^^ key ≠ 0#64)
    (hpos : nibs.pos (splitHdr path key) < nibs.posOf old) (hkey : l.key = key) :
    nibs.WF (splitTree a path key k l old) b := by
  subst hpath
  exact hold.split hne hb (splitHdr_ok hat) (nibs_pos_lt (splitHdr_ok hat)) (splitHdr_path hat)
    (splitHdr_agree hat) (splitHdr_dig hat) hpos hkey _ _

/-- Nothing else holds a subtree's slot. -/
theorem Inv.slot_out {m : Mem} {g : Ghost} (h : Inv m g) {sel : Hdr → (Fin 16 → T) → Option (Fin 16)} {p : Ptr}
    {i : Fin 16} (hs : Tree.slotOf sel .root g.tree = .child p i) :
    p ∈ g.tree.nodes ∧ p ∉ (Tree.focus sel g.tree).nodes := by
  refine ⟨?_, Tree.slotOf_not_mem_focus h.tree_nodup (by simp) hs⟩
  rcases Tree.slotOf_cases sel .root g.tree with he | ⟨p', hp', j, he⟩
  · rw [hs] at he
    cases he
  · rw [hs] at he
    cases he
    exact hp'

theorem Held.inv {m : Mem} {g : Ghost} {e : Event} (hh : Held g e) (h : Inv m g) : Inv (m.store e) g := by
  cases hh with
  | slot ha i p => exact h.setNode ha fun x => { x with child := Function.update x.child i p }
  | path ha w => exact h.setNode ha fun x => { x with path := w }
  | shift ha s => exact h.setNode ha fun x => { x with shift := s }
  | key hk w => exact h.setLeaf hk fun x => { x with key := w }
  | value hk v => exact h.setLeaf hk fun x => { x with value := v }

theorem Step.inv {m : Mem} {g g' : Ghost} {e : Event} (hs : Step m g e g') (h : Inv m g) : Inv (m.store e) g' := by
  cases hs with
  | draw =>
      refine (h.removeCount _).regroup rfl rfl rfl ?_ ?_
      · have := sum_update_own ptrOwn g.pn m.del .null
        show ∑ d, ptrOwn (Function.update g.pn m.del .null d) + (ptrOwn (g.pn m.del) + g.fn) = _
        rw [← add_assoc, this]
        simp [ptrOwn]
      · have := sum_update_own leafOwn g.pl m.del 0
        show ∑ d, leafOwn (Function.update g.pl m.del 0 d) + (leafOwn (g.pl m.del) + g.fl) = _
        rw [← add_assoc, this]
        simp [leafOwn]
  | ringNode d n => exact h.pendingDelNode d n
  | ringLeaf d k => exact h.pendingDelLeaf d k
  | mallocNodeFail => exact h.mallocNode_fail
  | mallocLeafFail => exact h.mallocLeaf_fail
  | mallocNode => exact h.mallocNode
  | mallocLeaf => exact h.mallocLeaf
  | popNode hns => exact h.popNode hns
  | popLeaf hls => exact h.popLeaf hls
  | pushNode hfn hlink => exact h.pushNode hfn hlink
  | pushLeaf hfl hlink => exact h.pushLeaf hfl hlink
  | held hh => exact hh.inv h
  | @linkLeaf key k fl hfoc hkey hfl =>
      refine h.slot _ _ (.leaf (.leaf k) (m.leaf k)) g.fn fl ?_ ?_ (by simp [hfoc]) ?_
      · exact rep_leaf.mpr ⟨k, rfl, rfl, (congrFun (slot_leaf _ _ _) k).symm⟩
      · refine h.fits.plug_insert (insertSel_follows key) (fun _ _ q hq => absurd hq (Nat.not_lt_zero q)) ?_
          fun _ _ _ => trivial
        rintro l rfl
        exact Or.inl hkey
      · rw [hfoc, hfl]
        simp
  | @linkSplit key path k a fl fn hbr hne hpath hat hpos hkey hfl hfn hrep =>
      refine h.slot _ _ _ fn fl ?_ ?_ ?_ ?_
      · rw [cell_slot]
        refine hrep.set fun p i hp => ?_
        obtain ⟨hin, hout⟩ := h.slot_out hp
        rw [splitTree_nodes a hat, Multiset.mem_cons, not_or]
        refine ⟨?_, hout⟩
        rintro rfl
        exact (h.free_node (hfn ▸ Multiset.mem_cons_self _ _)).1 hin
      · refine h.fits.plug_insert (insertSel_follows key) (fun _ _ q hq => absurd hq (Nat.not_lt_zero q)) ?_ ?_
        · intro l hl
          rcases (splitTree_has hat l).mp hl with rfl | hl
          · exact Or.inl hkey
          · exact Or.inr hl
        · intro b hfit hb
          exact (splitTree_wf ⟨hfit, hbr.focus⟩ hne hb hpath hat hpos hkey).fits
      · rw [splitTree_nodes a hat, hfn, Multiset.cons_add, Multiset.add_cons]
      · rw [splitTree_leaves a hat, hfl, Multiset.cons_add, Multiset.add_cons]
  | @unlink key k d hfoc hkey hd hpl =>
      have hout := h.slot (Coding.along nibs key) .null .nil g.fn (.leaf k ::ₘ g.fl) (rep_nil.mpr rfl)
        h.fits.plug_nil (by rw [hfoc]; rfl)
        (by rw [hfoc, Tree.leaves_leaf, Tree.leaves_nil, zero_add, Multiset.singleton_add])
      have hk : k ≠ 0 := (hout.free_leaf (Multiset.mem_cons_self _ _)).2.2
      refine hout.regroup rfl rfl rfl rfl ?_
      have := sum_update_own leafOwn g.pl d k
      rw [hpl] at this
      show ∑ i, leafOwn (Function.update g.pl d k i) + g.fl = _ + .leaf k ::ₘ g.fl
      rw [← Multiset.singleton_add, ← add_assoc]
      exact congrArg (· + g.fl) (by simpa [leafOwn, hk] using this)
  | @collapse key a hdr c o d hfoc hempty ho honly hd hpn =>
      obtain ⟨q, -, hq⟩ := Rep.focus (Coding.toParent nibs key) (h := m.heap) (s := .root) h.rep rfl
      rw [hfoc] at hq
      obtain ⟨a', rfl, ⟨⟩, -, hc⟩ := rep_node.mp hq
      have hout := h.slot (Coding.toParent nibs key) ((m.node a).child o) (c o) (.node a ::ₘ g.fn) g.fl
        ?_ ?_ ?_ ?_
      · refine hout.regroup rfl rfl rfl ?_ rfl
        have := sum_update_own ptrOwn g.pn d (.node a)
        rw [hpn] at this
        show ∑ i, ptrOwn (Function.update g.pn d (.node a) i) + g.fn = _ + .node a ::ₘ g.fn
        rw [← Multiset.singleton_add, ← add_assoc]
        exact congrArg (· + g.fn) (by simpa [ptrOwn] using this)
      · rw [cell_slot]
        refine (hc o).set fun p i hp hin => ?_
        have hout := (h.slot_out hp).2
        rw [hfoc] at hout
        exact hout (Tree.mem_nodes_child hin)
      · refine h.fits.plug_sub (fun l hl => hfoc ▸ ⟨o, hl⟩) fun b hfit => ?_
        rw [hfoc] at hfit
        exact (hfit.2.2.2.2 o).mono (by have := hfit.2.1; omega)
      · rw [hfoc, Tree.nodes_node, Tree.sum_only Tree.nodes_nil honly, Multiset.cons_add, Multiset.add_cons]
      · rw [hfoc, Tree.leaves_node, Tree.sum_only Tree.leaves_nil honly]

theorem Path.inv {m : Mem} {g g' : Ghost} {log : List Event} (hp : Path m g log g') (h : Inv m g) :
    Inv (storeAll m log) g' := by
  induction hp with
  | nil m g => exact h
  | cons hs t ih => exact ih (hs.inv h)

end Ptok.Critnib
