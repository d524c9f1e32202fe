import Ptok.Critnib.Lemmas.Remove

/-!
# critnib_get and critnib_find_le alone

What the readers return when no writer is at work.
-/

namespace Ptok.Critnib

open Lib

variable {m : Mem} {g : Ghost}

theorem Inv.height_le (h : Inv m g) : g.tree.height ≤ 16 := h.fits.height_le

/-! ## The restart -/

theorem untilFresh_fresh {lookup : R ℕ} {res fuel : ℕ} (hf : 0 < fuel)
    (hc : ¬ m.removeCount + DELETED_LIFE ≤ m.removeCount) (h : lookup.eval m.load = .ok res) :
    (untilFresh lookup fuel).eval m.load = .ok res := by
  obtain ⟨fuel, rfl⟩ := Nat.exists_eq_succ_of_ne_zero hf.ne'
  have hc' : ¬ m.load .removeCount + DELETED_LIFE ≤ m.load .removeCount := hc
  rw [untilFresh, Prog.eval_get_bind, Prog.eval_bind_ok h, Prog.eval_get_bind, if_neg hc']
  rfl

/-- The sum wraps around: the lookup is restarted for ever. -/
theorem untilFresh_stale {lookup : R ℕ} {res : ℕ} (hc : m.removeCount + DELETED_LIFE ≤ m.removeCount)
    (h : lookup.eval m.load = .ok res) (fuel : ℕ) : (untilFresh lookup fuel).eval m.load = .error .fuel := by
  induction fuel with
  | zero => rfl
  | succ fuel ih =>
      have hc' : m.load .removeCount + DELETED_LIFE ≤ m.load .removeCount := hc
      rw [untilFresh, Prog.eval_get_bind, Prog.eval_bind_ok h, Prog.eval_get_bind, if_pos hc']
      exact ih

/-- When the sum wraps around. -/
theorem add_le_self_iff (w : Word) : w + DELETED_LIFE ≤ w ↔ 2 ^ 64 - 16 ≤ w.toNat := by
  have := w.isLt
  rw [BitVec.le_def, BitVec.toNat_add]
  have h16 : (DELETED_LIFE : Word).toNat = 16 := rfl
  rw [h16]
  omega

/-! ## critnib_get -/

theorem dive_eval (key : Word) {t : T} : ∀ (fuel : ℕ) {n : Ptr} {b : ℕ}, Rep m.cell n t → nibs.Fits t b →
    t.height < fuel → ∃ n', (dive key fuel n).eval m.load = .ok n' ∧
      Rep m.cell n' (Tree.focus (Coding.along nibs key) t) := by
  induction t with
  | nil =>
      intro fuel n b h _ hf
      obtain rfl := rep_nil.mp h
      obtain ⟨fuel, rfl⟩ := Nat.exists_eq_succ_of_ne_zero (by omega : fuel ≠ 0)
      exact ⟨.null, rfl, h⟩
  | leaf q l =>
      intro fuel n b h _ hf
      obtain ⟨k, rfl, -, -⟩ := rep_leaf.mp h
      obtain ⟨fuel, rfl⟩ := Nat.exists_eq_succ_of_ne_zero (by omega : fuel ≠ 0)
      exact ⟨.leaf k, rfl, h⟩
  | node q hdr c ih =>
      intro fuel n b h hfit hf
      obtain ⟨a, rfl, rfl, rfl, hc⟩ := rep_node.mp h
      obtain ⟨fuel, rfl⟩ := Nat.exists_eq_succ_of_ne_zero (by omega : fuel ≠ 0)
      have hal := along_eq hfit.1 key c
      have hlt := Tree.height_child_lt (.node a) ⟨(m.node a).path, (m.node a).shift⟩ c
        (sliceIndex key (m.node a).shift)
      obtain ⟨n', hd, hr⟩ := ih (sliceIndex key (m.node a).shift) fuel (hc _) (hfit.2.2.2.2 _) (by omega)
      refine ⟨n', ?_, by rwa [Tree.focus_some hal]⟩
      rw [dive, Prog.eval_get_bind, Prog.eval_get_bind]
      exact hd

theorem getLookup_eval (h : Inv m g) {fuel : ℕ} (hf : 16 < fuel) (key : Word) :
    (getLookup key fuel).eval m.load = .ok (g.tree.map.val key) := by
  obtain ⟨n', hd, hr⟩ := dive_eval key fuel h.rep h.fits (h.height_le.trans_lt hf)
  have hmap : g.tree.map.val key = (T.map (Tree.focus (Coding.along nibs key) g.tree) key).getD NULL := by
    simp only [KMap.val, T.map]
    rw [Coding.get_eq_focus key g.tree]
  have hroot : m.load .root = m.root := rfl
  rw [hmap, getLookup, Prog.eval_get_bind, hroot, Prog.eval_bind_ok hd]
  cases hfoc : Tree.focus (Coding.along nibs key) g.tree with
  | node p n c => exact absurd hfoc (Coding.focus_along_not_node key _)
  | nil =>
      rw [hfoc] at hr
      obtain rfl := rep_nil.mp hr
      rfl
  | leaf q l =>
      rw [hfoc] at hr
      obtain ⟨k, rfl, -, rfl⟩ := rep_leaf.mp hr
      have hkey : m.load (.key k) = (m.leaf k).key := rfl
      rw [leafValue, Prog.eval_get_bind, hkey]
      by_cases hk : (m.leaf k).key = key
      · rw [if_pos hk]
        simp [load, Mem.load, T.map, Coding.get, hk]
      · rw [if_neg hk]
        simp [T.map, Coding.get, hk]

/-! ## Keys below a node in order -/

section

variable {p : Ptr} {n : Hdr} {c : Fin 16 → T} {b : ℕ} {key : Word}

/-- The key is not inside the subtree: the node's path says on which side it is. -/
theorem lt_path_iff (hfit : nibs.Fits (.node p n c) b) (hk : ¬ nibs.Agree (nibs.pos n) n.path key) {l : Leaf}
    (hl : (Lib.Tree.node p n c : T).Has l) : (n.path < key ↔ l.key < key) ∧ l.key ≠ key := by
  obtain ⟨hok, -, -, hkeys, -⟩ := hfit
  obtain ⟨i, hl⟩ := hl
  have hag := (hkeys i l hl).1
  rw [agree_pos_iff hok] at hk hag
  have hag : n.path.toNat / 2 ^ (n.shift + 4) = l.key.toNat / 2 ^ (n.shift + 4) := hag
  constructor
  · rw [lt_iff_of_div_ne hk, lt_iff_of_div_ne (hag ▸ hk), hag]
  · rintro rfl
    exact hk hag

/-- The key is inside: its digit orders it against the keys below the other children. -/
theorem lt_key_of_lt (hfit : nibs.Fits (.node p n c) b) (hk : nibs.Agree (nibs.pos n) n.path key) {j : Fin 16}
    {l : Leaf} (hl : (c j).Has l) (hj : j < nibs.dig key (nibs.pos n)) : l.key < key := by
  obtain ⟨hok, -, -, hkeys, -⟩ := hfit
  obtain ⟨hag, hd⟩ := hkeys j l hl
  exact lt_of_dig (nibs_pos_lt hok) (hag.symm.trans hk) (by rw [← nibs_key, hd]; exact hj)

theorem key_lt_of_lt (hfit : nibs.Fits (.node p n c) b) (hk : nibs.Agree (nibs.pos n) n.path key) {j : Fin 16}
    {l : Leaf} (hl : (c j).Has l) (hj : nibs.dig key (nibs.pos n) < j) : key < l.key := by
  obtain ⟨hok, -, -, hkeys, -⟩ := hfit
  obtain ⟨hag, hd⟩ := hkeys j l hl
  exact lt_of_dig (nibs_pos_lt hok) (hk.symm.trans hag) (by rw [← nibs_key, hd]; exact hj)

/-- Keys below different children are in the children's order. -/
theorem lt_of_child_lt (hfit : nibs.Fits (.node p n c) b) {i j : Fin 16} {l l' : Leaf} (hl : (c i).Has l)
    (hl' : (c j).Has l') (hij : i < j) : l.key < l'.key := by
  obtain ⟨hok, -, -, hkeys, -⟩ := hfit
  obtain ⟨hag, hd⟩ := hkeys i l hl
  obtain ⟨hag', hd'⟩ := hkeys j l' hl'
  exact lt_of_dig (nibs_pos_lt hok) (hag.symm.trans hag') (by rw [← nibs_key, hd, ← nibs_key, hd']; exact hij)

end

/-! ## The rightmost leaf of a subtree -/

/-- Where `find_successor` ends. -/
def T.last : T → Option Leaf
  | .nil => none
  | .leaf _ l => some l
  | .node _ _ c => nibsDown.findSome? fun i => T.last (c i)

theorem firstChild_eval (a : Addr) (is : List (Fin 16)) :
    (firstChild (.node a) is).eval m.load = .ok (is.find? fun i => (m.node a).child i ≠ .null) := by
  induction is with
  | nil => rfl
  | cons i is ih =>
      have hload : (loadChild (.node a) i).eval m.load = .ok ((m.node a).child i) := rfl
      rw [firstChild, Prog.eval_bind_ok hload, List.find?_cons]
      by_cases hc : (m.node a).child i = .null
      · rw [if_pos hc, ih]
        simp [hc]
      · rw [if_neg hc]
        simp [hc]

/-- In a falling list the first hit is the greatest. -/
theorem findSome?_greatest {α : Type} {is : List (Fin 16)} (hs : is.Pairwise (· > ·)) {f : Fin 16 → Option α} {x : α}
    (h : is.findSome? f = some x) : ∃ i ∈ is, f i = some x ∧ ∀ j ∈ is, i < j → f j = none := by
  induction is with
  | nil => cases h
  | cons k is ih =>
      rw [List.pairwise_cons] at hs
      cases hk : f k with
      | some y =>
          rw [List.findSome?_cons, hk] at h
          cases h
          refine ⟨k, by simp, hk, fun j hj hlt => ?_⟩
          rcases List.mem_cons.mp hj with rfl | hj
          · exact absurd hlt (lt_irrefl _)
          · exact absurd (hs.1 j hj) (not_lt.mpr hlt.le)
      | none =>
          rw [List.findSome?_cons, hk] at h
          obtain ⟨i, hi, hx, hbig⟩ := ih hs.2 h
          refine ⟨i, by simp [hi], hx, fun j hj hlt => ?_⟩
          rcases List.mem_cons.mp hj with rfl | hj
          · exact hk
          · exact hbig j hj hlt

theorem nibsDown_falling : nibsDown.Pairwise (· > ·) := by decide

theorem mem_nibsDown (i : Fin 16) : i ∈ nibsDown := by simp [nibsDown]

theorem nibsLeft_falling (nib : Fin 16) : (nibsLeft nib).Pairwise (· > ·) := nibsDown_falling.filter _

theorem mem_nibsLeft {nib i : Fin 16} : i ∈ nibsLeft nib ↔ i < nib := by
  simp [nibsLeft, mem_nibsDown]

theorem T.last_eq_none {t : T} (h : Coding.Branching t) : t.last = none ↔ t = .nil := by
  induction t with
  | nil => exact iff_of_true rfl rfl
  | leaf p l => exact iff_of_false (by simp [T.last]) (by simp)
  | node p n c ih =>
      refine iff_of_false ?_ (by simp)
      obtain ⟨⟨i, -, -, hi, -⟩, hbr⟩ := h
      intro hn
      have := List.findSome?_eq_none_iff.mp hn i (mem_nibsDown i)
      exact hi ((ih i (hbr i)).mp this)

/-- The first slot with a child in it is the one whose rightmost leaf is taken. -/
theorem find?_child {a : Addr} {c : Fin 16 → T} (hc : ∀ i, Rep m.cell ((m.node a).child i) (c i))
    (hbr : ∀ i, Coding.Branching (c i)) (is : List (Fin 16)) :
    is.findSome? (fun i => T.last (c i)) =
      (is.find? fun i => (m.node a).child i ≠ .null).bind fun i => T.last (c i) := by
  have hnil : ∀ i, (m.node a).child i = .null ↔ T.last (c i) = none := fun i =>
    (rep_null_iff (hc i)).trans (T.last_eq_none (hbr i)).symm
  induction is with
  | nil => rfl
  | cons i is ih =>
      rw [List.findSome?_cons, List.find?_cons]
      by_cases h : (m.node a).child i = .null
      · simpa [h, (hnil i).mp h] using ih
      · cases hl : T.last (c i) with
        | none => exact absurd ((hnil i).mpr hl) h
        | some l => simp [h, hl]

/-- `find_successor` returns the value of the rightmost leaf. -/
theorem findSuccessor_eval {t : T} : ∀ (fuel : ℕ) {a : Addr}, Rep m.cell (.node a) t → Coding.Branching t →
    t.height < fuel → ∃ l, t.last = some l ∧ (findSuccessor fuel (.node a)).eval m.load = .ok l.value := by
  induction t with
  | nil => intro fuel a h; cases h
  | leaf q l => intro fuel a h; obtain ⟨k, ⟨⟩, -⟩ := rep_leaf.mp h
  | node q hdr c ih =>
      intro fuel a h hbr hf
      obtain ⟨a', ⟨⟩, rfl, rfl, hc⟩ := rep_node.mp h
      obtain ⟨fuel, rfl⟩ := Nat.exists_eq_succ_of_ne_zero (by omega : fuel ≠ 0)
      have hlast : T.last (.node (.node a) ⟨(m.node a).path, (m.node a).shift⟩ c) ≠ none := by
        rw [Ne, T.last_eq_none hbr]
        simp
      have heq := find?_child hc hbr.2 nibsDown
      have hfirst := firstChild_eval (m := m) a nibsDown
      show ∃ l, nibsDown.findSome? (fun i => T.last (c i)) = some l ∧ _
      rw [heq]
      have hlast : (nibsDown.find? fun i => (m.node a).child i ≠ .null).bind (fun i => T.last (c i)) ≠ none :=
        heq ▸ hlast
      cases hfind : nibsDown.find? fun i => (m.node a).child i ≠ .null with
      | none => rw [hfind] at hlast; exact absurd rfl hlast
      | some i =>
          have hi : (m.node a).child i ≠ .null := by simpa using List.find?_some hfind
          rw [hfind] at hfirst
          have hload : (loadChild (.node a) i).eval m.load = .ok ((m.node a).child i) := rfl
          have hci := hc i
          have hlt := Tree.height_child_lt (.node a) ⟨(m.node a).path, (m.node a).shift⟩ c i
          have ih := @ih i
          rw [findSuccessor, Prog.eval_bind_ok hfirst]
          simp only
          rw [Prog.eval_bind_ok hload]
          show ∃ l, T.last (c i) = some l ∧ _
          cases hch : (m.node a).child i with
          | null => exact absurd hch hi
          | leaf k =>
              rw [hch] at hci
              rw [rep_leaf_ptr hci]
              exact ⟨m.leaf k, rfl, rfl⟩
          | node a' =>
              rw [hch] at hci
              exact ih fuel hci (hbr.2 i) (by omega)

/-! ## What find_le computes -/

/-- The rightmost leaf left of a slot. -/
def leftLast (c : Fin 16 → T) (nib : Fin 16) : Option Leaf := (nibsLeft nib).findSome? fun i => T.last (c i)

/-- The result of `find_le` on a subtree. -/
def T.leVal (key : Word) : T → ℕ
  | .nil => NULL
  | .leaf _ l => if l.key ≤ key then l.value else NULL
  | .node p n c =>
    if ((key ^^^ n.path) >>> n.shift) &&& ~~~NIB ≠ 0#64 then
      if n.path < key then (T.last (.node p n c)).elim NULL (·.value) else NULL
    else
      let value := T.leVal key (c (sliceIndex key n.shift))
      if value ≠ NULL then value else (leftLast c (sliceIndex key n.shift)).elim NULL (·.value)

/-- The loop over the left siblings. -/
theorem findLeft_eval {a : Addr} {c : Fin 16 → T} (hc : ∀ i, Rep m.cell ((m.node a).child i) (c i))
    (hbr : ∀ i, Coding.Branching (c i)) (fuel : ℕ) (hf : ∀ i, (c i).height < fuel) (is : List (Fin 16)) :
    (findLeft fuel (.node a) is).eval m.load =
      .ok ((is.findSome? fun i => T.last (c i)).elim NULL (·.value)) := by
  induction is with
  | nil => rfl
  | cons i is ih =>
      have hload : (loadChild (.node a) i).eval m.load = .ok ((m.node a).child i) := rfl
      have hci := hc i
      rw [findLeft, Prog.eval_bind_ok hload, List.findSome?_cons]
      cases hch : (m.node a).child i with
      | null =>
          rw [hch] at hci
          rw [rep_null hci]
          exact ih
      | leaf k =>
          rw [hch] at hci
          rw [rep_leaf_ptr hci]
          rfl
      | node a' =>
          rw [hch] at hci
          obtain ⟨l, hl, heval⟩ := findSuccessor_eval fuel hci (hbr i) (hf i)
          rw [hl]
          exact heval

theorem findLe_eval (key : Word) {t : T} : ∀ (fuel : ℕ) {n : Ptr}, Rep m.cell n t → Coding.Branching t →
    t.height + 1 < fuel → (findLe key fuel n).eval m.load = .ok (t.leVal key) := by
  induction t with
  | nil =>
      intro fuel n h _ hf
      obtain rfl := rep_nil.mp h
      obtain ⟨fuel, rfl⟩ := Nat.exists_eq_succ_of_ne_zero (by omega : fuel ≠ 0)
      rfl
  | leaf q l =>
      intro fuel n h _ hf
      obtain ⟨k, rfl, -, rfl⟩ := rep_leaf.mp h
      obtain ⟨fuel, rfl⟩ := Nat.exists_eq_succ_of_ne_zero (by omega : fuel ≠ 0)
      have hload : m.load (.key k) = (m.leaf k).key := rfl
      rw [findLe, Prog.eval_get_bind, hload, T.leVal]
      split <;> rfl
  | node q hdr c ih =>
      intro fuel n h hbr hf
      obtain ⟨a, rfl, rfl, rfl, hc⟩ := rep_node.mp h
      obtain ⟨fuel, rfl⟩ := Nat.exists_eq_succ_of_ne_zero (by omega : fuel ≠ 0)
      have hpath : m.load (.path a) = (m.node a).path := rfl
      have hshift : m.load (.shift a) = (m.node a).shift := rfl
      have hchild : m.load (.child a (sliceIndex key (m.node a).shift)) =
          (m.node a).child (sliceIndex key (m.node a).shift) := rfl
      have hlt := fun i => Tree.height_child_lt (.node a) ⟨(m.node a).path, (m.node a).shift⟩ c i
      have ih := ih (sliceIndex key (m.node a).shift) fuel (hc _) (hbr.2 _)
        (by have := hlt (sliceIndex key (m.node a).shift); omega)
      rw [findLe, Prog.eval_get_bind, Prog.eval_get_bind, hpath, hshift, T.leVal]
      split
      · -- outside
        rw [Prog.eval_get_bind, hpath]
        split
        · obtain ⟨l, hl, heval⟩ := findSuccessor_eval fuel h hbr (by omega)
          rw [hl]
          exact heval
        · rfl
      · -- inside
        rw [Prog.eval_get_bind, hshift]
        simp only
        rw [Prog.eval_get_bind, hchild, Prog.eval_bind_ok ih]
        split
        · rfl
        · exact findLeft_eval hc hbr.2 fuel (fun i => by have := hlt i; omega) _

/-! ## The greatest key that is not greater -/

structure IsMax (t : T) (l : Leaf) : Prop where
  has : t.Has l
  le : ∀ l', t.Has l' → l'.key ≤ l.key

/-- The rightmost leaf is the greatest. -/
theorem T.last_isMax {t : T} {b : ℕ} (hfit : nibs.Fits t b) (hbr : Coding.Branching t) {l : Leaf}
    (h : t.last = some l) : IsMax t l := by
  induction t generalizing b with
  | nil => cases h
  | leaf p l' =>
      cases h
      exact ⟨rfl, by rintro l' rfl; exact BitVec.le_refl _⟩
  | node p n c ih =>
      obtain ⟨i, -, hi, hright⟩ := findSome?_greatest nibsDown_falling h
      have hmax := ih i (hfit.2.2.2.2 i) (hbr.2 i) hi
      refine ⟨⟨i, hmax.has⟩, ?_⟩
      rintro l' ⟨j, hl'⟩
      rcases lt_trichotomy j i with hj | rfl | hj
      · exact BitVec.le_of_lt (lt_of_child_lt hfit hl' hmax.has hj)
      · exact hmax.le l' hl'
      · rw [(T.last_eq_none (hbr.2 j)).mp (hright j (mem_nibsDown j) hj)] at hl'
        exact hl'.elim

/-- `l` is the leaf with the greatest key that is `≤ key`. -/
structure IsPredLeaf (t : T) (key : Word) (l : Leaf) : Prop where
  has : t.Has l
  le : l.key ≤ key
  greatest : ∀ l', t.Has l' → l'.key ≤ key → l'.key ≤ l.key

inductive LeResult (t : T) (key : Word) : ℕ → Prop
  | found {l : Leaf} (h : IsPredLeaf t key l) : LeResult t key l.value
  | none (h : ∀ l, t.Has l → key < l.key) : LeResult t key NULL

section

variable {p : Ptr} {n : Hdr} {c : Fin 16 → T} {b : ℕ} {key : Word}

/-- The key's own child has the predecessor. -/
theorem IsPredLeaf.inside (hfit : nibs.Fits (.node p n c) b) (hag : nibs.Agree (nibs.pos n) n.path key) {l : Leaf}
    (h : IsPredLeaf (c (nibs.dig key (nibs.pos n))) key l) : IsPredLeaf (.node p n c) key l := by
  refine ⟨⟨_, h.has⟩, h.le, ?_⟩
  rintro l' ⟨j, hl'⟩ hle
  rcases lt_trichotomy j (nibs.dig key (nibs.pos n)) with hj | rfl | hj
  · exact BitVec.le_of_lt (lt_of_child_lt hfit hl' h.has hj)
  · exact h.greatest l' hl' hle
  · exact absurd hle (BitVec.not_le.mpr (key_lt_of_lt hfit hag hl' hj))

/-- It does not: the nearest child to the left has it. -/
theorem leftLast_result (hfit : nibs.Fits (.node p n c) b) (hbr : ∀ i, Coding.Branching (c i))
    (hag : nibs.Agree (nibs.pos n) n.path key)
    (hnone : ∀ l, (c (nibs.dig key (nibs.pos n))).Has l → key < l.key) :
    LeResult (.node p n c) key ((leftLast c (nibs.dig key (nibs.pos n))).elim NULL (·.value)) := by
  have hnil : ∀ j, T.last (c j) = none → ∀ l, ¬ (c j).Has l := by
    intro j hj l hl
    rw [(T.last_eq_none (hbr j)).mp hj] at hl
    exact hl
  cases hleft : leftLast c (nibs.dig key (nibs.pos n)) with
  | none =>
      refine .none ?_
      rintro l' ⟨j, hl'⟩
      rcases lt_trichotomy j (nibs.dig key (nibs.pos n)) with hj | rfl | hj
      · exact absurd hl' (hnil j (List.findSome?_eq_none_iff.mp hleft j (mem_nibsLeft.mpr hj)) l')
      · exact hnone l' hl'
      · exact key_lt_of_lt hfit hag hl' hj
  | some l =>
      obtain ⟨i, hi, hl, hgap⟩ := findSome?_greatest (nibsLeft_falling _) hleft
      have hi := mem_nibsLeft.mp hi
      have hmax := T.last_isMax (hfit.2.2.2.2 i) (hbr i) hl
      refine .found ⟨⟨i, hmax.has⟩, BitVec.le_of_lt (lt_key_of_lt hfit hag hmax.has hi), ?_⟩
      rintro l' ⟨j, hl'⟩ hle
      rcases lt_trichotomy j i with hj | rfl | hj
      · exact BitVec.le_of_lt (lt_of_child_lt hfit hl' hmax.has hj)
      · exact hmax.le l' hl'
      · rcases lt_trichotomy j (nibs.dig key (nibs.pos n)) with hj' | rfl | hj'
        · exact absurd hl' (hnil j (hgap j (mem_nibsLeft.mpr hj') hj) l')
        · exact absurd hle (BitVec.not_le.mpr (hnone l' hl'))
        · exact absurd hle (BitVec.not_le.mpr (key_lt_of_lt hfit hag hl' hj'))

/-- Nothing is left of the least leaf. -/
theorem leftLast_of_least (hfit : nibs.Fits (.node p n c) b) (hbr : ∀ i, Coding.Branching (c i)) {i : Fin 16} {l : Leaf}
    (hl : (c i).Has l) (hleast : ∀ j l', (c j).Has l' → l.key ≤ l'.key) : leftLast c i = none := by
  refine List.findSome?_eq_none_iff.mpr fun j hj => ?_
  cases hlast : T.last (c j) with
  | none => rfl
  | some l' =>
      have hmax := T.last_isMax (hfit.2.2.2.2 j) (hbr j) hlast
      have hlt := lt_of_child_lt hfit hmax.has hl (mem_nibsLeft.mp hj)
      exact absurd (hleast j l' hmax.has) (BitVec.not_le.mpr hlt)

/-- The key is not inside: all leaves are on one side of it. -/
theorem outside_result (hfit : nibs.Fits (.node p n c) b) (hbr : Coding.Branching (.node p n c : T))
    (hag : ¬ nibs.Agree (nibs.pos n) n.path key) :
    LeResult (.node p n c) key
      (if n.path < key then (T.last (.node p n c)).elim NULL (·.value) else NULL) := by
  split
  · rename_i hlt
    cases hl : T.last (.node p n c) with
    | none => cases (T.last_eq_none hbr).mp hl
    | some l =>
        have hmax := T.last_isMax hfit hbr hl
        exact .found ⟨hmax.has, BitVec.le_of_lt ((lt_path_iff hfit hag hmax.has).1.mp hlt),
          fun l' hl' _ => hmax.le l' hl'⟩
  · rename_i hlt
    refine .none fun l hl => ?_
    obtain ⟨hiff, hne⟩ := lt_path_iff hfit hag hl
    exact BitVec.lt_of_le_ne (BitVec.not_lt.mp (mt hiff.mpr hlt)) (Ne.symm hne)

end

/-- A value that is not `NULL` cannot be taken for an empty subtree, and left of the least leaf there is nothing else. -/
theorem T.leVal_result {key : Word} {t : T} {b : ℕ} (hfit : nibs.Fits t b) (hbr : Coding.Branching t)
    (hnull : ∀ l, t.Has l → l.value = NULL → ∀ l', t.Has l' → l.key ≤ l'.key) : LeResult t key (t.leVal key) := by
  induction t generalizing b with
  | nil => exact .none fun _ h => h.elim
  | leaf p l =>
      rw [T.leVal]
      split
      · exact .found ⟨rfl, ‹_›, by rintro l' rfl _; exact BitVec.le_refl _⟩
      · exact .none (by rintro l rfl; exact BitVec.not_le.mp ‹_›)
  | node p n c ih =>
      have hxor := xor_shift_and_eq_zero_iff key n.path n.shift
      rw [← agree_pos_iff hfit.1] at hxor
      rw [T.leVal]
      by_cases hag : nibs.Agree (nibs.pos n) n.path key
      · rw [if_neg (not_not.mpr (hxor.mpr hag)), ← dig_pos hfit.1]
        have ih := ih (nibs.dig key (nibs.pos n)) (hfit.2.2.2.2 _) (hbr.2 _) fun l hl hn l' hl' =>
          hnull l ⟨_, hl⟩ hn l' ⟨_, hl'⟩
        generalize hv : T.leVal key (c (nibs.dig key (nibs.pos n))) = v at ih
        cases ih with
        | @found l hpred =>
            have hfound := LeResult.found (hpred.inside hfit hag)
            by_cases hn : l.value = NULL
            · rw [leftLast_of_least hfit hbr.2 hpred.has fun j l' hl' => hnull l ⟨_, hpred.has⟩ hn l' ⟨j, hl'⟩]
              simpa [hn] using hfound
            · simpa [hn] using hfound
        | none hnone =>
            simp only
            rw [if_neg (not_not.mpr rfl)]
            exact leftLast_result hfit hbr.2 hag hnone
      · rw [if_pos (mt hxor.mp hag)]
        exact outside_result hfit hbr hag

/-! ## The two lookups -/

/-- A lookup with its loop around it. -/
theorem untilFresh_eval {lookup : ℕ → R ℕ} {res N : ℕ}
    (h : ∀ fuel, N < fuel → (lookup fuel).eval m.load = .ok res) :
    (m.removeCount.toNat < 2 ^ 64 - 16 → Returns (fun fuel => (untilFresh (lookup fuel) fuel).eval m.load) res) ∧
      (2 ^ 64 - 16 ≤ m.removeCount.toNat → Diverges fun fuel => (untilFresh (lookup fuel) fuel).eval m.load) := by
  constructor
  · intro hc
    refine ⟨N + 1, fun fuel hf => untilFresh_fresh (by omega) ?_ (h fuel hf)⟩
    rw [add_le_self_iff]
    omega
  · intro hc
    exact ⟨N + 1, fun fuel hf => untilFresh_stale ((add_le_self_iff _).mpr hc) (h fuel hf) fuel⟩

theorem critnibGet_eval (h : Inv m g) (key : Word) :
    (m.removeCount.toNat < 2 ^ 64 - 16 →
      Returns (fun fuel => (critnibGet key fuel).eval m.load) (g.tree.map.val key)) ∧
    (2 ^ 64 - 16 ≤ m.removeCount.toNat → Diverges fun fuel => (critnibGet key fuel).eval m.load) :=
  untilFresh_eval fun _ hf => getLookup_eval h hf key

/-- The result of `find_le` in terms of the map. -/
theorem LeResult.leVal {t : T} {key : Word} {v : ℕ} (ht : nibs.Routed t) (h : LeResult t key v) :
    t.map.LeVal key v := by
  have hbound : ∀ k, t.map k ≠ .none → ∃ l, t.Has l ∧ l.key = k := fun k hk => (T.map_ne_none ht).mp hk
  cases h with
  | @found l h =>
      have hl : t.map l.key = some l.value := (T.map_eq_some ht).mpr ⟨l, h.has, rfl, rfl⟩
      refine .found ⟨by simp [hl], h.le, ?_⟩ hl
      intro k hk hle
      obtain ⟨l', hl', rfl⟩ := hbound k hk
      exact h.greatest l' hl' hle
  | none h =>
      refine .none fun k hk => ?_
      obtain ⟨l', hl', rfl⟩ := hbound k hk
      exact h l' hl'

theorem findLeLookup_eval (h : Inv m g) (hbr : Coding.Branching g.tree) (key : Word) (fuel : ℕ) (hf : 17 < fuel) :
    (findLeLookup key fuel).eval m.load = .ok (g.tree.leVal key) := by
  have hroot : m.load .root = m.root := rfl
  rw [findLeLookup, Prog.eval_get_bind, hroot]
  by_cases hr : m.root = .null
  · have hnil : g.tree = .nil := rep_null (hr ▸ h.rep)
    rw [if_pos hr, hnil]
    rfl
  · rw [if_neg hr]
    exact findLe_eval key fuel h.rep hbr (by have := h.height_le; omega)

theorem critnibFindLe_eval (h : Inv m g) (hbr : Coding.Branching g.tree) (key : Word) :
    (m.removeCount.toNat < 2 ^ 64 - 16 →
      Returns (fun fuel => (critnibFindLe key fuel).eval m.load) (g.tree.leVal key)) ∧
    (2 ^ 64 - 16 ≤ m.removeCount.toNat → Diverges fun fuel => (critnibFindLe key fuel).eval m.load) :=
  untilFresh_eval fun fuel hf => findLeLookup_eval h hbr key fuel hf

/-- The predecessor, if `NULL` is at most the value of the least key. -/
theorem Quiet.leVal (h : Quiet m g) (hnull : g.tree.map.NullLeast) (key : Word) :
    g.tree.map.LeVal key (g.tree.leVal key) :=
  (T.leVal_result h.fits h.wf.branching fun l hl hn l' hl' =>
    hnull l.key ((T.map_eq_some h.fits.routed).mpr ⟨l, hl, rfl, hn⟩) l'.key
      ((T.map_ne_none h.fits.routed).mpr ⟨l', hl', rfl⟩)).leVal h.fits.routed

end Ptok.Critnib
