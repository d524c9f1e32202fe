import Ptok.Lib.Moments
import Ptok.Lib.Search
import Ptok.Critnib.Concurrent.FindLe
import Ptok.Critnib.Concurrent.Life

/-!
# What critnib_find_le sees

`find_le` loads the slots of a node at different moments, and `find_successor` does so on the way down. What they
return was bound at some moment, and what is greater was seen free before; or they lost what was always there in
changing places.
-/

namespace Ptok.Critnib

open Lib

/-- Keys in the order of `<=` on `uint64_t`. -/
@[reducible] def keyOrder : LinearOrder Word where
  toLE := inferInstance
  toLT := inferInstance
  le_refl := BitVec.le_refl
  le_trans _ _ _ := BitVec.le_trans
  le_antisymm _ _ := BitVec.le_antisymm
  le_total := BitVec.le_total
  lt_iff_le_not_ge x y := by
    rw [BitVec.lt_def, BitVec.le_def, BitVec.le_def]
    omega
  toDecidableLE := inferInstance
  toDecidableEq := inferInstance

attribute [local instance] keyOrder

variable {m : Mem} {g g' : Ghost} {e : Event} {a b k : Addr} {d : Fin 16} {x y key : Word} {p : Ptr}

/-! ## Keys inside a subtree -/

/-- The key is inside the subtree of a node: all bits above the node's nib are those of the path. -/
def Mem.Inside (m : Mem) (a : Addr) (key : Word) : Prop :=
  nibs.Agree (nibs.pos ⟨(m.node a).path, (m.node a).shift⟩) (m.node a).path key

/-- `slice_index(key, n->shift)` -/
def Mem.slice (m : Mem) (a : Addr) (key : Word) : Fin 16 := sliceIndex key (m.node a).shift

theorem lt_of_slice (hok : nibs.ok ⟨(m.node a).path, (m.node a).shift⟩) (hx : m.Inside a x) (hy : m.Inside a y)
    (h : m.slice a x < m.slice a y) : x < y := by
  unfold Mem.slice at h
  rw [← dig_pos hok, ← dig_pos hok] at h
  exact lt_of_dig (nibs_pos_lt hok) (hx.symm.trans hy) h

/-- The test of the source. -/
theorem inside_iff (hok : nibs.ok ⟨(m.node a).path, (m.node a).shift⟩) :
    ((key ^^^ (m.node a).path) >>> (m.node a).shift) &&& ~~~NIB = 0#64 ↔ m.Inside a key := by
  rw [xor_shift_and_eq_zero_iff]
  exact (agree_pos_iff hok _ _).symm

/-- Where the key is not inside, the path says on which side of it the subtree is. -/
theorem path_lt_iff (hok : nibs.ok ⟨(m.node a).path, (m.node a).shift⟩) (hkey : ¬ m.Inside a key) (hy : m.Inside a y) :
    (m.node a).path < key ↔ y < key := by
  have hkey' := mt (agree_pos_iff hok _ _).mpr hkey
  have hy' := (agree_pos_iff hok _ _).mp hy
  rw [lt_iff_of_div_ne hkey', lt_iff_of_div_ne (hy' ▸ hkey'), hy']

/-! ## Keys below a pointer -/

/-- Of the keys in `P`, those that are bound are below the pointer. -/
inductive Below (m : Mem) (g : Ghost) (P : Word → Prop) : Ptr → Prop
  | null (h : ∀ y, P y → g.tree.map y = none) : Below m g P .null
  | leaf {k : Addr} (hk : g.InTree (.leaf k)) (hP : P (m.leaf k).key)
      (hv : g.tree.map (m.leaf k).key = some (m.leaf k).value)
      (h : ∀ y, P y → y ≠ (m.leaf k).key → g.tree.map y = none) : Below m g P (.leaf k)
  | node {b : Addr} (hb : g.InTree (.node b)) (hP : ∀ y, m.Inside b y → P y)
      (h : ∀ y, P y → m.Inside b y ∨ g.tree.map y = none) : Below m g P (.node b)

theorem Inv.covers {P : Word → Prop} {u : T} (h : Inv m g) (hr : Rep m.cell p u) (hu : Tree.Sub u g.tree)
    (hin : p = .null ∨ g.InTree p) (hP : ∀ l, u.Has l → P l.key)
    (hall : ∀ y, P y → g.tree.map y ≠ none → ∃ l, u.Has l ∧ l.key = y)
    (hnode : ∀ q n c, u = .node q n c → ∀ y, nibs.Agree (nibs.pos n) n.path y → P y) : Below m g P p := by
  have hroutes := h.fits.routed
  cases p with
  | null =>
      refine .null fun y hy => ?_
      by_contra hbound
      obtain ⟨l, hl, -⟩ := hall y hy hbound
      rw [rep_null hr] at hl
      exact hl
  | leaf k =>
      rw [rep_leaf_ptr hr] at hu hP hall
      refine .leaf (hin.resolve_left (by simp)) (hP _ rfl) ?_ fun y hy hne => ?_
      · exact (T.map_eq_some hroutes).mpr ⟨_, hu.has rfl, rfl, rfl⟩
      · by_contra hbound
        obtain ⟨l, rfl, rfl⟩ := hall y hy hbound
        exact hne rfl
  | node b =>
      cases u with
      | nil => cases hr
      | leaf q l => obtain ⟨_, ⟨⟩, -⟩ := rep_leaf.mp hr
      | node q n c =>
          obtain ⟨_, ⟨⟩, rfl, rfl, -⟩ := rep_node.mp hr
          refine .node (hin.resolve_left (by simp)) (hnode _ _ _ rfl) fun y hy => ?_
          by_cases hbound : g.tree.map y = none
          · exact Or.inr hbound
          · obtain ⟨l, ⟨i, hl⟩, rfl⟩ := hall y hy hbound
            obtain ⟨_, -, hfit⟩ := h.fits.sub hu
            exact Or.inl (hfit.2.2.2.1 i l hl).1

theorem Inv.covers_root (h : Inv m g) : Below m g (fun _ => True) m.root := by
  refine h.covers h.rep (.refl _) h.inTree_root (fun _ _ => trivial) (fun y _ hbound => ?_) fun _ _ _ _ _ _ => trivial
  exact (T.map_ne_none h.fits.routed).mp hbound

/-- The child in a slot has the keys of that slot below it. -/
theorem Inv.covers_child (h : Inv m g) (hf : Coding.Fed g.tree) (ha : g.InTree (.node a)) (d : Fin 16) :
    Below m g (fun y => m.Inside a y ∧ m.slice a y = d) ((m.node a).child d) := by
  obtain ⟨c, hsub, hc⟩ := h.sub_of_node ha
  obtain ⟨b', -, hfit⟩ := h.fits.sub hsub
  have hfed := hf.sub hsub
  have hdig : ∀ y, nibs.dig y (nibs.pos ⟨(m.node a).path, (m.node a).shift⟩) = m.slice a y := dig_pos hfit.1
  have hkeys : ∀ l, (c d).Has l → m.Inside a l.key ∧ m.slice a l.key = d := by
    intro l hl
    obtain ⟨hag, hd⟩ := hfit.2.2.2.1 d l hl
    exact ⟨hag, (hdig l.key).symm.trans hd⟩
  have hchild : Tree.Sub (c d) g.tree := (Tree.Sub.child (.refl _)).trans hsub
  refine h.covers (hc d) hchild (h.inTree_child ha d) hkeys ?_ ?_
  · rintro y ⟨hin, hd⟩ hbound
    obtain ⟨l, hl, rfl⟩ := (T.map_ne_none h.fits.routed).mp hbound
    exact ⟨l, (hfit.has_child_iff d l).mpr ⟨h.fits.has_of_agree hsub hfed hl hin, (hdig l.key).trans hd⟩, rfl⟩
  · -- what agrees with the path of the child agrees with a leaf below it
    intro q n c' hu y hy
    obtain ⟨l, hl⟩ := (hf.sub hchild).exists_has (by simp [hu])
    obtain ⟨hin, hd⟩ := hkeys l hl
    have hfit' := hfit.2.2.2.2 d
    rw [hu] at hl hfit'
    obtain ⟨i, hl⟩ := hl
    have hag := (hfit'.2.2.2.1 i l hl).1.symm.trans hy
    have hlt := hfit'.2.1
    refine ⟨hin.trans (hag.mono (by omega)), ?_⟩
    rw [← hd, ← hdig, ← hdig]
    exact (hag _ (by omega)).symm

/-- There is a bound key inside every node of the tree. -/
theorem Inv.exists_inside (h : Inv m g) (hf : Coding.Fed g.tree) (ha : g.InTree (.node a)) :
    ∃ y, m.Inside a y ∧ g.tree.map y ≠ none := by
  obtain ⟨c, hsub, -⟩ := h.sub_of_node ha
  obtain ⟨b', -, hfit⟩ := h.fits.sub hsub
  obtain ⟨i, l, hl⟩ := (hf.sub hsub).1
  exact ⟨l.key, (hfit.2.2.2.1 i l hl).1, (T.map_ne_none h.fits.routed).mpr ⟨l, hsub.has ⟨i, hl⟩, rfl⟩⟩

/-! ## One store -/

theorem Step.change (hs : Step m g e g') (h : Inv m g) : Change g.tree.map g'.tree.map := by
  have hroutes := h.fits.routed
  have hroutes' := (hs.inv h).fits.routed
  have hnone : ∀ {key}, nibs.get key g.tree = none → g.tree.map key = none := by
    intro key hget
    rw [T.map, hget]
    rfl
  cases hs with
  | @linkLeaf key k fl hfoc hkey hfl =>
      have hfree : nibs.get (m.leaf k).key g.tree = none := by
        rw [hkey, Coding.get_eq_focus_follows (insertSel_follows key) h.fits, hfoc]
        rfl
      refine .bind (hnone hfree) (T.map_bind hroutes hroutes' fun l => ?_)
      refine Coding.has_plug_of (X := fun l => l = m.leaf k) (fun l => ?_) l
      simp [hfoc, eq_comm]
  | @linkSplit key path k a fl fn hwf hne hpath hat hpos hkey hfl hfn hrep =>
      have hfree : nibs.get (m.leaf k).key g.tree = none := by
        rw [hkey]
        by_contra hget
        obtain ⟨l, hl⟩ := Option.ne_none_iff_exists'.mp hget
        obtain ⟨q, hq⟩ := Coding.focus_follows_of_get (insertSel_follows key) h.fits hl
        -- the walk would end at this leaf
        rw [hq] at hpath
        have hlk : l.key = key := ((Coding.get_eq_some hroutes).mp hl).2
        exact hat (BitVec.xor_eq_zero_iff.mpr (hpath.symm.trans hlk))
      refine .bind (hnone hfree) (T.map_bind hroutes hroutes' fun l => ?_)
      exact Coding.has_plug_of (X := fun l => l = m.leaf k) (fun l => splitTree_has hat l) l
  | @unlink key k d hfoc hkey hd hpl =>
      exact .unbind (T.map_unbind hroutes hroutes' fun l => Coding.has_unlink hroutes hfoc hkey l)
  | @collapse key a hdr c o d hfoc hempty ho honly hd hpn =>
      refine .same (T.map_congr hroutes hroutes' fun l => ?_)
      refine (Coding.has_plug_of (X := fun _ => False) (fun l => ?_) l).trans (by simp)
      rw [hfoc, false_or, Tree.has_node]
      constructor
      · exact fun hl => ⟨o, hl⟩
      · rintro ⟨i, hi⟩
        by_cases hio : i = o
        · exact hio ▸ hi
        · rw [honly i hio] at hi
          exact hi.elim
  | _ => exact .same rfl

/-! ## Slots loaded at different moments -/

theorem SameAt.inside {m' : Mem} (h : SameAt m m' (.node a)) : m'.Inside a = m.Inside a := by
  unfold Mem.Inside
  rw [h.1, h.2]

theorem SameAt.slice {m' : Mem} (h : SameAt m m' (.node a)) : m'.slice a = m.slice a := by
  unfold Mem.slice
  rw [h.2]

/-- The map at a moment. -/
def maps (gh : ℕ → Ghost) (t : ℕ) : KMap := (gh t).tree.map

variable {c i j n s t r v fuel : ℕ} {mem : ℕ → Mem} {gh : ℕ → Ghost} {P : Word → Prop}

theorem Life.min_le (h : Life mem gh a i n t) (hi : i ≤ s) : i ≤ min s t := le_min hi h.start

/-- What a load of a slot says about the moment at which the node was last in the tree. -/
theorem Life.covers (h : Life mem gh a i n t) (hw : Within c mem gh i n) (hi : i ≤ s) (hn : s ≤ n) (d : Fin 16) :
    Below (mem (min s t)) (gh (min s t)) (fun y => (mem i).Inside a y ∧ (mem i).slice a y = d)
      (((mem s).node a).child d) := by
  have hu := h.min_le hi
  have hun : min s t ≤ n := (Nat.min_le_left s t).trans hn
  have hsame := hw.sameAt (h.inTree i le_rfl h.start) hu hun
  rw [h.child_eq hn, ← hsame.inside, ← hsame.slice]
  exact (hw.inv _ hu hun).covers_child (hw.fed _ hu hun) (h.inTree _ hu (Nat.min_le_right s t)) d

/-- An empty slot. -/
theorem Life.free (h : Life mem gh a i n t) (hw : Within c mem gh i n) (hi : i ≤ s) (hn : s ≤ n)
    (hnull : ((mem s).node a).child d = .null) (hy : (mem i).Inside a y) (hd : (mem i).slice a y = d) :
    Free (maps gh) i (min s t) y := by
  have hcov := h.covers hw hi hn d
  rw [hnull] at hcov
  cases hcov with
  | null hnone => exact ⟨_, h.min_le hi, le_rfl, hnone y ⟨hy, hd⟩⟩

/-- While it looks for a child of a node, what is to the right has been free. -/
theorem firstChild_seek (hl : Life mem gh a i n t) (hw : Within c mem gh i n) {is : List (Fin 16)}
    (hs : is.Pairwise (· > ·)) {o : Option (Fin 16)} (hr : i ≤ r) (hj : j ≤ n)
    (hpass : ∀ y, (mem i).Inside a y → (mem i).slice a y ∉ is → Free (maps gh) i (min r t) y)
    (hx : Prog.Timed Mem.load mem r (firstChild (.node a) is) (.ok o) j) :
    ∀ y, (mem i).Inside a y → (∀ d ∈ o, d < (mem i).slice a y) → Free (maps gh) i (min j t) y := by
  induction is generalizing r with
  | nil =>
      intro y hy _
      exact (hpass y hy (by simp)).mono le_rfl (min_le_min_right t hx.le)
  | cons d is ih =>
      rw [firstChild, loadChild_node] at hx
      obtain ⟨s, hrs, hx⟩ := hx.of_get_bind
      rw [List.pairwise_cons] at hs
      by_cases hnull : Mem.load (mem s) (.child a d) = .null
      · rw [if_pos hnull] at hx
        refine ih hs.2 (hr.trans hrs) (fun y hy hd => ?_) hx
        by_cases hyd : (mem i).slice a y = d
        · exact hl.free hw (hr.trans hrs) (hx.le.trans hj) hnull hy hyd
        · exact (hpass y hy (by simp [hyd, hd])).mono le_rfl (min_le_min_right t hrs)
      · rw [if_neg hnull] at hx
        cases hx.of_ret
        intro y hy hd
        have hlt := hd d rfl
        refine (hpass y hy ?_).mono le_rfl (min_le_min_right t (hrs.trans hx.le))
        intro hmem
        rcases List.mem_cons.mp hmem with he | hmem
        · exact absurd he hlt.ne'
        · exact absurd (hs.1 _ hmem) hlt.not_gt

section

variable {R : Word → Prop}

/-- The search comes to a leaf in a slot, and what is to the right has been free. -/
theorem Life.sought_leaf (h : Life mem gh a i n t) (hw : Within c mem gh i n) (hi : i ≤ s) (hj : j ≤ n)
    (hR : ∀ y, R y → (mem i).Inside a y) (hin : ∀ y, (mem i).Inside a y → (mem i).slice a y = d → R y)
    (hright : ∀ y, R y → d < (mem i).slice a y → Free (maps gh) i (min s t) y)
    (hk : ((mem s).node a).child d = .leaf k) (hx : Prog.Timed Mem.load mem s (load (.value k)) (.ok v) j) :
    Sought NULL (maps gh) R i j v := by
  have hsj := hx.le
  have hok := (hw.inv i le_rfl (hi.trans (hsj.trans hj))).ok_of_inTree (h.inTree i le_rfl h.start)
  have hcov := h.covers hw hi (hsj.trans hj) d
  have hu := h.min_le hi
  rw [hk] at hcov
  cases hcov with
  | leaf hk hP hv hother =>
      obtain ⟨τ, hsτ, hτj, hval⟩ := hx.of_load
      have hsame := (hw.mono hu).sameAt hk ((Nat.min_le_left s t).trans hsτ) (hτj.trans hj)
      have hval : v = ((mem (min s t)).leaf k).value := by
        rw [Except.ok.inj hval]
        exact congrArg Leaf.value hsame
      refine Or.inl ⟨_, _, hu, (Nat.min_le_left s t).trans hsj, hin _ hP.1 hP.2, hval ▸ hv, fun y hy hlt => ?_⟩
      rcases lt_trichotomy ((mem i).slice a y) d with hd | hd | hd
      · exact absurd (lt_of_slice hok (hR y hy) hP.1 (by rwa [hP.2])) hlt.not_gt
      · exact ⟨_, hu, le_rfl, hother y ⟨hR y hy, hd⟩ hlt.ne'⟩
      · exact hright y hy hd

/-- It goes on in a node. -/
theorem Life.sought_node (h : Life mem gh a i n t) (hw : Within c mem gh i n) (hi : i ≤ s) (hsn : s ≤ n)
    (hR : ∀ y, R y → (mem i).Inside a y) (hin : ∀ y, (mem i).Inside a y → (mem i).slice a y = d → R y)
    (hright : ∀ y, R y → d < (mem i).slice a y → Free (maps gh) i (min s t) y)
    (hb : ((mem s).node a).child d = .node b)
    (hx : (gh (min s t)).InTree (.node b) → Sought NULL (maps gh) ((mem (min s t)).Inside b) (min s t) j v) :
    Sought NULL (maps gh) R i j v := by
  have hok := (hw.inv i le_rfl (hi.trans hsn)).ok_of_inTree (h.inTree i le_rfl h.start)
  have hcov := h.covers hw hi hsn d
  have hu := h.min_le hi
  rw [hb] at hcov
  cases hcov with
  | node hb hP hother =>
      refine (hx hb).grow hu le_rfl (fun y hy => hin y (hP y hy).1 (hP y hy).2) fun x y hx hy hlt => ?_
      rcases lt_trichotomy ((mem i).slice a y) d with hd | hd | hd
      · exact absurd (lt_of_slice hok (hR y hy) (hP x hx).1 (by rwa [(hP x hx).2])) hlt.not_gt
      · exact (hother y ⟨hR y hy, hd⟩).imp id fun hnone => ⟨_, hu, le_rfl, hnone⟩
      · exact Or.inr (hright y hy hd)

end

/-! ## find_successor -/

theorem findSuccessor_seek (hw : Within c mem gh i n) (ha : (gh i).InTree (.node a)) (hj : j ≤ n)
    (hx : Prog.Timed Mem.load mem i (findSuccessor fuel (.node a)) (.ok v) j) :
    Sought NULL (maps gh) ((mem i).Inside a) i j v := by
  induction fuel generalizing a i with
  | zero => cases hx.of_ret
  | succ fuel ih =>
      obtain ⟨t, hl⟩ := hw.life ha (hx.le.trans hj)
      rw [findSuccessor] at hx
      obtain ⟨o, s, hfirst, hx⟩ := hx.bind_ok
      have his := hfirst.le
      have hsj := hx.le
      have hright := firstChild_seek hl hw nibsDown_falling le_rfl (hsj.trans hj)
        (fun y _ hd => absurd (mem_nibsDown _) hd) hfirst
      cases o with
      | none =>
          -- every slot has been empty at some moment, but not all of them at once
          have hfree : ∀ y, (mem i).Inside a y → Free (maps gh) i (min s t) y := fun y hy => hright y hy (by simp)
          cases hx.of_ret
          refine Or.inr ⟨⟨(mem i).Inside a, i, min s t, le_rfl, hl.min_le his, (Nat.min_le_left s t).trans hsj,
            fun y hy => hy, fun x y _ hy _ => Or.inl hy, fun u hiu hut => ?_, hfree⟩, Or.inl rfl⟩
          have hun : u ≤ n := hut.trans ((Nat.min_le_left s t).trans (hsj.trans hj))
          rw [← (hw.sameAt ha hiu hun).inside]
          exact (hw.inv u hiu hun).exists_inside (hw.fed u hiu hun)
            (hl.inTree u hiu (hut.trans (Nat.min_le_right s t)))
      | some d =>
          simp only [loadChild_node] at hx
          obtain ⟨s', hss', hx⟩ := hx.of_get_bind
          have hright' : ∀ y, (mem i).Inside a y → d < (mem i).slice a y → Free (maps gh) i (min s' t) y :=
            fun y hy hd => (hright y hy (by rintro _ ⟨⟩; exact hd)).mono le_rfl (min_le_min_right t hss')
          have hs'j := hx.le
          cases hchild : ((mem s').node a).child d with
          | null =>
              simp only [Mem.load, hchild] at hx
              cases fuel with
              | zero => cases hx.of_ret
              | succ fuel => cases hx.of_ret
          | leaf k =>
              simp only [Mem.load, hchild] at hx
              exact hl.sought_leaf hw (his.trans hss') hj (fun y hy => hy) (fun y hy _ => hy) hright' hchild hx
          | node b =>
              simp only [Mem.load, hchild] at hx
              refine hl.sought_node hw (his.trans hss') (hs'j.trans hj) (fun y hy => hy) (fun y hy _ => hy) hright' hchild
                fun hb => ?_
              exact ih (hw.mono (hl.min_le (his.trans hss'))) hb (hx.start (Nat.min_le_left s' t))

/-! ## find_le -/

/-- How a search ends: with a value, or with `NULL` when nothing was bound all the time. -/
def Outcome (f : ℕ → KMap) (P : Word → Prop) (i j v : ℕ) : Prop :=
  Sought NULL f P i j v ∨ v = NULL ∧ NotFound f P i j

/-- The loop to the left. Where the node has left the tree, its only child is the one that is found. -/
theorem findLeft_seek (hl : Life mem gh a i n t) (hw : Within c mem gh i n) {is : List (Fin 16)}
    (hs : is.Pairwise (· > ·)) {R : Word → Prop} (hR : ∀ y, R y → (mem i).Inside a y)
    (hin : ∀ y, (mem i).Inside a y → (mem i).slice a y ∈ is → R y) (hr : i ≤ r) (hj : j ≤ n)
    (hpass : ∀ y, R y → (mem i).slice a y ∉ is → Free (maps gh) i r y)
    (hx : Prog.Timed Mem.load mem r (findLeft fuel (.node a) is) (.ok v) j) : Outcome (maps gh) R i j v := by
  induction is generalizing r with
  | nil =>
      cases hx.of_ret
      exact Or.inr ⟨rfl, fun y hy => (hpass y hy (by simp)).mono le_rfl hx.le⟩
  | cons d is ih =>
      rw [findLeft, loadChild_node] at hx
      obtain ⟨s, hrs, hx⟩ := hx.of_get_bind
      have his := hr.trans hrs
      have hsn := hx.le.trans hj
      rw [List.pairwise_cons] at hs
      have hind : ∀ y, (mem i).Inside a y → (mem i).slice a y = d → R y := fun y hy hd => hin y hy (by simp [hd])
      have hright : ((mem s).node a).child d ≠ .null →
          ∀ y, R y → d < (mem i).slice a y → Free (maps gh) i (min s t) y := by
        intro hchild y hy hd
        rcases le_or_gt s t with hst | hts
        · rw [min_eq_left hst]
          refine (hpass y hy ?_).mono le_rfl hrs
          intro hmem
          rcases List.mem_cons.mp hmem with he | hmem
          · exact absurd he hd.ne'
          · exact absurd (hs.1 _ hmem) hd.not_gt
        · -- the node has left the tree, so this is its only child
          obtain ⟨o, ho⟩ := hl.alone.resolve_left (by omega)
          have hdo : d = o := by
            by_contra hne
            rw [hl.child_eq hsn, min_eq_right hts.le] at hchild
            exact hchild (ho d hne)
          have hfree := hl.free hw hl.start hl.le (ho _ (hdo ▸ hd.ne')) (hR y hy) rfl
          rw [min_self] at hfree
          rwa [min_eq_right hts.le]
      cases hchild : ((mem s).node a).child d with
      | null =>
          simp only [Mem.load, hchild] at hx
          refine ih hs.2 (fun y hy hd => hin y hy (by simp [hd])) his (fun y hy hd => ?_) hx
          by_cases hyd : (mem i).slice a y = d
          · exact (hl.free hw his hsn hchild (hR y hy) hyd).mono le_rfl (Nat.min_le_left s t)
          · exact (hpass y hy (by simp [hyd, hd])).mono le_rfl hrs
      | leaf k =>
          simp only [Mem.load, hchild] at hx
          exact Or.inl (hl.sought_leaf hw his hj hR hind (hright (by simp [hchild])) hchild hx)
      | node b =>
          simp only [Mem.load, hchild] at hx
          refine Or.inl (hl.sought_node hw his hsn hR hind (hright (by simp [hchild])) hchild fun hb => ?_)
          exact findSuccessor_seek (hw.mono (hl.min_le his)) hb hj (hx.start (Nat.min_le_left s t))

/-- Whatever was to the right, the loop comes to a value that was bound. -/
theorem findLeft_came (hl : Life mem gh a i n t) (hw : Within c mem gh i n) {is : List (Fin 16)} (hr : i ≤ r) (hj : j ≤ n)
    (hx : Prog.Timed Mem.load mem r (findLeft fuel (.node a) is) (.ok v) j) :
    Came NULL (maps gh) (fun y => (mem i).Inside a y ∧ (mem i).slice a y ∈ is) i j v := by
  induction is generalizing r with
  | nil =>
      cases hx.of_ret
      exact Or.inl rfl
  | cons d is ih =>
      rw [findLeft, loadChild_node] at hx
      obtain ⟨s, hrs, hx⟩ := hx.of_get_bind
      have his := hr.trans hrs
      have hin : ∀ y, (mem i).Inside a y ∧ (mem i).slice a y = d → (mem i).Inside a y ∧ (mem i).slice a y ∈ d :: is :=
        fun y hy => ⟨hy.1, by simp [hy.2]⟩
      have hright : ∀ y, (mem i).Inside a y ∧ (mem i).slice a y = d → d < (mem i).slice a y →
          Free (maps gh) i (min s t) y := fun y hy hlt => absurd hy.2 hlt.ne'
      cases hchild : ((mem s).node a).child d with
      | null =>
          simp only [Mem.load, hchild] at hx
          exact (ih his hx).grow le_rfl le_rfl fun y hy => ⟨hy.1, by simp [hy.2]⟩
      | leaf k =>
          simp only [Mem.load, hchild] at hx
          have hsought := hl.sought_leaf hw his hj (fun y hy => hy.1) (fun y hy hd => ⟨hy, hd⟩) hright hchild hx
          exact hsought.came.grow le_rfl le_rfl hin
      | node b =>
          simp only [Mem.load, hchild] at hx
          have hsought := hl.sought_node (j := j) (v := v) hw his (hx.le.trans hj) (fun y hy => hy.1)
            (fun y hy hd => ⟨hy, hd⟩) hright hchild fun hb =>
              findSuccessor_seek (hw.mono (hl.min_le his)) hb hj (hx.start (Nat.min_le_left s t))
          exact hsought.came.grow le_rfl le_rfl hin

theorem Outcome.came {f : ℕ → KMap} (h : Outcome f P i j v) : Came NULL f P i j v := by
  rcases h with h | ⟨hv, -⟩
  · exact h.came
  · exact Or.inl hv

theorem Outcome.grow {f : ℕ → KMap} {P' : Word → Prop} {i' : ℕ} (h : Outcome f P' i' j v) (hi : i ≤ i') (hP : ∀ y, P' y → P y)
    (hup : ∀ y, P y → P' y ∨ Free f i i' y) (hle : i' ≤ j) : Outcome f P i j v := by
  rcases h with h | ⟨hv, h⟩
  · exact Or.inl (h.grow hi le_rfl hP fun _ y _ hy _ => hup y hy)
  · refine Or.inr ⟨hv, fun y hy => ?_⟩
    rcases hup y hy with hy | hfree
    · exact (h y hy).mono hi le_rfl
    · exact hfree.mono le_rfl hle

/-- A leaf. -/
theorem findLe_leaf (hw : Within c mem gh i n) (hcov : Below (mem i) (gh i) P (.leaf k)) (hj : j ≤ n)
    (hx : Prog.Timed Mem.load mem i (findLe key (fuel + 1) (.leaf k)) (.ok v) j) :
    Outcome (maps gh) (fun y => P y ∧ y ≤ key) i j v := by
  cases hcov with
  | leaf hk hP hv hother =>
      have hsame : ∀ s, i ≤ s → s ≤ n → (mem s).leaf k = (mem i).leaf k := fun s hi hn => hw.sameAt hk hi hn
      obtain ⟨s, his, hx⟩ := hx.of_get_bind
      have hij := his.trans hx.le
      have hkey : Mem.load (mem s) (.key k) = ((mem i).leaf k).key :=
        congrArg Leaf.key (hsame s his (hx.le.trans hj))
      rw [hkey] at hx
      by_cases hle : ((mem i).leaf k).key ≤ key
      · rw [if_pos hle] at hx
        obtain ⟨s', hs, hs'j, hval⟩ := hx.of_load
        have hval : v = ((mem i).leaf k).value := by
          rw [Except.ok.inj hval]
          exact congrArg Leaf.value (hsame s' (his.trans hs) (hs'j.trans hj))
        refine Or.inl (Or.inl ⟨_, i, le_rfl, hij, ⟨hP, hle⟩, hval ▸ hv, fun y hy hlt => ?_⟩)
        exact ⟨i, le_rfl, le_rfl, hother y hy.1 hlt.ne'⟩
      · rw [if_neg hle] at hx
        cases hx.of_ret
        refine Or.inr ⟨rfl, fun y hy => ⟨i, le_rfl, hij, hother y hy.1 ?_⟩⟩
        rintro rfl
        exact hle hy.2

/-- From the path down, what `find_le` returns. -/
theorem findLe_seek (hw : Within c mem gh i n) (hval : ∀ s, i ≤ s → s ≤ n → ∀ y, maps gh s y ≠ some NULL)
    (hcov : Below (mem i) (gh i) P p) (hj : j ≤ n) (hx : Prog.Timed Mem.load mem i (findLe key fuel p) (.ok v) j) :
    Outcome (maps gh) (fun y => P y ∧ y ≤ key) i j v := by
  induction fuel generalizing p i j v P with
  | zero => cases hx.of_ret
  | succ fuel ih =>
      have hij := hx.le
      have hin := hij.trans hj
      cases hcov with
      | null hnone =>
          cases hx.of_ret
          exact Or.inr ⟨rfl, fun y hy => ⟨i, le_rfl, hij, hnone y hy.1⟩⟩
      | leaf hk hP hv hother => exact findLe_leaf hw (.leaf hk hP hv hother) hj hx
      | @node a ha hP hother =>
          obtain ⟨t, hl⟩ := hw.life ha hin
          have hok := (hw.inv i le_rfl hin).ok_of_inTree ha
          have hsame : ∀ s, i ≤ s → s ≤ n → SameAt (mem i) (mem s) (.node a) := fun s hi hn => hw.sameAt ha hi hn
          -- what is not inside this node is free now
          have hgrow : ∀ {v}, Outcome (maps gh) (fun y => (mem i).Inside a y ∧ y ≤ key) i j v →
              Outcome (maps gh) (fun y => P y ∧ y ≤ key) i j v := fun h =>
            h.grow le_rfl (fun y hy => ⟨hP y hy.1, hy.2⟩) (fun y hy => (hother y hy.1).imp (fun hin => ⟨hin, hy.2⟩)
              fun hnone => ⟨i, le_rfl, le_rfl, hnone⟩) hij
          apply hgrow
          rw [findLe] at hx
          obtain ⟨s₁, h₁, hx⟩ := hx.of_get_bind
          obtain ⟨s₂, h₂, hx⟩ := hx.of_get_bind
          have hs₂ := h₁.trans h₂
          have hpath : Mem.load (mem s₁) (.path a) = ((mem i).node a).path :=
            (hsame s₁ h₁ (h₂.trans (hx.le.trans hj))).1
          have hshift : Mem.load (mem s₂) (.shift a) = ((mem i).node a).shift := (hsame s₂ hs₂ (hx.le.trans hj)).2
          rw [hpath, hshift] at hx
          by_cases hkey : (mem i).Inside a key
          · rw [if_neg (not_not.mpr ((inside_iff hok).mpr hkey))] at hx
            obtain ⟨s₃, h₃, hx⟩ := hx.of_get_bind
            have hshift : Mem.load (mem s₃) (.shift a) = ((mem i).node a).shift :=
              (hsame s₃ (hs₂.trans h₃) (hx.le.trans hj)).2
            rw [hshift] at hx
            simp only at hx
            obtain ⟨s, h₄, hx⟩ := hx.of_get_bind
            obtain ⟨value, s', hpath, hx⟩ := hx.bind_ok
            have his := hs₂.trans (h₃.trans h₄)
            have hss' := hpath.le
            have hs'j := hx.le
            have hu := hl.min_le his
            have hus : min s t ≤ s := Nat.min_le_left s t
            -- the path: keys with the same nib
            have hends := ih (hw.mono hu) (fun r hr => hval r (hu.trans hr))
              (hl.covers hw his (hss'.trans (hs'j.trans hj)) ((mem i).slice a key)) (hs'j.trans hj)
              (hpath.start hus)
            have hless : ∀ {y}, (mem i).Inside a y → y ≤ key → (mem i).slice a y ≤ (mem i).slice a key := by
              intro y hy hle
              by_contra hlt
              exact absurd (lt_of_slice hok hkey hy (not_le.mp hlt)) hle.not_gt
            -- nothing to the left of the path counts if there is something on it
            have hup : ∀ x y, ((mem i).Inside a x ∧ (mem i).slice a x = (mem i).slice a key) ∧ x ≤ key →
                (mem i).Inside a y ∧ y ≤ key → x < y →
                (((mem i).Inside a y ∧ (mem i).slice a y = (mem i).slice a key) ∧ y ≤ key) ∨
                  Free (maps gh) i (min s t) y := by
              intro x y hx hy hlt
              refine Or.inl ⟨⟨hy.1, le_antisymm (hless hy.1 hy.2) ?_⟩, hy.2⟩
              by_contra hgt
              rw [← hx.1.2] at hgt
              exact absurd (lt_of_slice hok hy.1 hx.1.1 (not_le.mp hgt)) hlt.not_gt
            by_cases hvalue : value ≠ NULL
            · rw [if_pos hvalue] at hx
              cases hx.of_ret
              have hsought := hends.resolve_right fun h => hvalue h.1
              exact Or.inl (hsought.grow hu hs'j (fun y hy => ⟨hy.1.1, hy.2⟩) hup)
            · rw [if_neg hvalue] at hx
              rw [not_not] at hvalue
              subst hvalue
              have hleft : ∀ {y}, (mem i).Inside a y → (mem i).slice a y ∈ nibsLeft ((mem i).slice a key) → y ≤ key :=
                fun hy hmem => (lt_of_slice hok hy hkey (mem_nibsLeft.mp hmem)).le
              rcases hends with (hfound | ⟨hlost, -⟩) | ⟨-, hnone⟩
              · -- a value is not `NULL`
                obtain ⟨z, r, hr, hrs', -, hz, -⟩ := hfound.seen
                exact absurd hz (hval r (hu.trans hr) (hrs'.trans (hs'j.trans hj)) z)
              · refine Or.inl (Or.inr ⟨hlost.grow hu hs'j (fun y hy => ⟨hy.1.1, hy.2⟩) hup, ?_⟩)
                exact (findLeft_came hl hw (his.trans hss') hj hx).grow le_rfl le_rfl fun y hy => ⟨hy.1, hleft hy.1 hy.2⟩
              · refine findLeft_seek hl hw (nibsLeft_falling _) (fun y hy => hy.1) (fun y hy hmem => ⟨hy, hleft hy hmem⟩)
                  (his.trans hss') hj (fun y hy hmem => ?_) hx
                have hslice := le_antisymm (hless hy.1 hy.2) (not_lt.mp fun h => hmem (mem_nibsLeft.mpr h))
                exact (hnone y ⟨⟨hy.1, hslice⟩, hy.2⟩).mono hu le_rfl
          · rw [if_pos (mt (inside_iff hok).mp hkey)] at hx
            obtain ⟨s₃, h₃, hx⟩ := hx.of_get_bind
            have hpath : Mem.load (mem s₃) (.path a) = ((mem i).node a).path :=
              (hsame s₃ (hs₂.trans h₃) (hx.le.trans hj)).1
            rw [hpath] at hx
            have hside := fun y hy => path_lt_iff (y := y) hok hkey hy
            by_cases hlt : ((mem i).node a).path < key
            · rw [if_pos hlt] at hx
              have hsought := findSuccessor_seek hw ha hj (hx.start (hs₂.trans h₃))
              refine Or.inl (hsought.grow le_rfl le_rfl (fun y hy => ⟨hy, ((hside y hy).mp hlt).le⟩) ?_)
              exact fun _ y _ hy _ => Or.inl hy.1
            · rw [if_neg hlt] at hx
              cases hx.of_ret
              refine Or.inr ⟨rfl, fun y hy => absurd (lt_of_le_of_ne hy.2 ?_) (mt (hside y hy.1).mpr hlt)⟩
              rintro rfl
              exact hkey hy.1

end Ptok.Critnib
