import Ptok.Tcradix.Model

/-!
# Trees of nodes

A subtree of level `l` as a value of the type `T l`: its shape fits the level by construction. `Rep` says that a memory
holds it, `T.get` what a lookup finds in it, and `T.OK` is the representation invariant.
-/

namespace Ptok.Tcradix

open Lib

/-- A node without its slots. -/
structure Hdr where
  onlyKey : Word
  onlyVal : ℕ
  nchildren : ℕ

inductive T : ℕ → Type
  | nil {l : ℕ} : T l
  | last (a : Addr) (h : Hdr) (w : Fin 16 → Ptr) : T 0
  | node {l : ℕ} (a : Addr) (h : Hdr) (c : Fin 16 → T l) : T (l + 1)

variable {l : ℕ}

/-! ## Positions

The keys below a node of level `l` agree in the bits above its slice, and these bits are its position.
-/

def Under (l pos : ℕ) (k : Word) : Prop := k.toNat / 2 ^ (4 * l + 4) = pos

theorem under_top (k : Word) : Under TOP 0 k := Nat.div_eq_of_lt k.isLt

theorem under_child {pos : ℕ} {k : Word} (h : Under (l + 1) pos k) : Under l (16 * pos + (sl k (l + 1)).val) k := by
  have hd := div_eq_slice k (4 * (l + 1))
  unfold Under at *
  rw [show 4 * l + 4 = 4 * (l + 1) by ring, hd, h, Nat.mul_comm]
  rfl

theorem under_parent {pos : ℕ} {k : Word} {i : Fin 16} (h : Under l (16 * pos + i.val) k) :
    Under (l + 1) pos k ∧ sl k (l + 1) = i := by
  have hd := div_eq_slice k (4 * (l + 1))
  have hlt := (sliceIndex k (4 * (l + 1))).isLt
  have hi := i.isLt
  unfold Under at *
  rw [show 4 * l + 4 = 4 * (l + 1) by ring] at h
  refine ⟨by omega, Fin.ext ?_⟩
  show (sliceIndex k (4 * (l + 1))).val = _
  omega

theorem eq_of_sl {pos : ℕ} {k k' : Word} (h : Under 0 pos k) (h' : Under 0 pos k') (hs : sl k 0 = sl k' 0) : k = k' := by
  have hd := div_eq_slice k 0
  have hd' := div_eq_slice k' 0
  have hs : (sliceIndex k 0).val = (sliceIndex k' 0).val := congrArg Fin.val hs
  unfold Under at h h'
  apply BitVec.eq_of_toNat_eq
  simp at hd hd' h h'
  omega

/-! ## Slots -/

@[simp] theorem toVoid_ofVoid (v : ℕ) : toVoid (ofVoid v) = v := by
  unfold ofVoid
  split
  · simp_all [toVoid]
  · rfl

theorem ofVoid_of_ne {v : ℕ} (hv : v ≠ NULL) : ofVoid v = .val v := if_neg hv

/-- How many slots are not empty. -/
def used (w : Fin 16 → Ptr) : ℕ := (Finset.univ.filter fun i => w i ≠ .null).card

theorem used_eq_zero {w : Fin 16 → Ptr} : used w = 0 ↔ ∀ i, w i = .null := by
  simp [used, Finset.filter_eq_empty_iff]

theorem used_ne_zero {w : Fin 16 → Ptr} {i : Fin 16} (hi : w i ≠ .null) : used w ≠ 0 := fun h => hi (used_eq_zero.mp h i)

theorem used_fill {w : Fin 16 → Ptr} {i : Fin 16} {p : Ptr} (hi : w i = .null) (hp : p ≠ .null) :
    used (Function.update w i p) = used w + 1 := by
  have hset : (Finset.univ.filter fun j => Function.update w i p j ≠ .null) =
      Insert.insert i (Finset.univ.filter fun j => w j ≠ .null) := by
    ext j
    by_cases hj : j = i
    · subst hj
      simp [hp]
    · simp [hj]
  rw [used, hset, Finset.card_insert_of_notMem (by simp [hi])]
  rfl

theorem used_clear {w : Fin 16 → Ptr} {i : Fin 16} (hi : w i ≠ .null) :
    used (Function.update w i .null) + 1 = used w := by
  have h := used_fill (w := Function.update w i .null) (i := i) (p := w i) (by simp) hi
  simpa using h.symm

theorem used_keep {w : Fin 16 → Ptr} {i : Fin 16} {p : Ptr} (hi : w i ≠ .null) (hp : p ≠ .null) :
    used (Function.update w i p) = used w := by
  have h := used_fill (w := Function.update w i .null) (i := i) (p := p) (by simp) hp
  have h' := used_clear hi
  rw [Function.update_idem] at h
  omega

/-! ## Trees -/

namespace T

/-- The pointer to a tree. -/
def ptr : {l : ℕ} → T l → Ptr
  | _, .nil => .null
  | _, .last a _ _ => .node a
  | _, .node a _ _ => .node a

@[simp] theorem ptr_nil : (.nil : T l).ptr = .null := rfl

@[simp] theorem ptr_last (a : Addr) (h : Hdr) (w : Fin 16 → Ptr) : (T.last a h w).ptr = .node a := rfl

@[simp] theorem ptr_node (a : Addr) (h : Hdr) (c : Fin 16 → T l) : (T.node a h c).ptr = .node a := rfl

theorem ptr_eq_null {t : T l} : t.ptr = .null ↔ t = .nil := by
  cases t <;> simp

theorem ptr_cases (t : T l) : t = .nil ∨ ∃ a, t.ptr = .node a := by
  cases t <;> simp

/-- The pointers in the slots of a node. -/
def ptrs (c : Fin 16 → T l) : Fin 16 → Ptr := fun i => (c i).ptr

@[simp] theorem ptrs_apply (c : Fin 16 → T l) (i : Fin 16) : ptrs c i = (c i).ptr := rfl

theorem ptrs_update (c : Fin 16 → T l) (i : Fin 16) (u : T l) :
    ptrs (Function.update c i u) = Function.update (ptrs c) i u.ptr := by
  funext j
  by_cases hj : j = i
  · subst hj
    simp
  · simp [hj]

theorem ptrs_update_same {c : Fin 16 → T l} {i : Fin 16} {u : T l} (h : u.ptr = (c i).ptr) :
    ptrs (Function.update c i u) = ptrs c := by
  rw [ptrs_update, h]
  exact Function.update_eq_self i (ptrs c)

/-- The addresses of its nodes. -/
def addrs : {l : ℕ} → T l → Multiset Addr
  | _, .nil => 0
  | _, .last a _ _ => {a}
  | _, .node a _ c => a ::ₘ ∑ i, (c i).addrs

@[simp] theorem addrs_nil : (.nil : T l).addrs = 0 := rfl

@[simp] theorem addrs_last (a : Addr) (h : Hdr) (w : Fin 16 → Ptr) : (T.last a h w).addrs = {a} := rfl

@[simp] theorem addrs_node (a : Addr) (h : Hdr) (c : Fin 16 → T l) :
    (T.node a h c).addrs = a ::ₘ ∑ i, (c i).addrs := rfl

theorem sum_addrs_update (c : Fin 16 → T l) (i : Fin 16) (u : T l) :
    ∑ j, (Function.update c i u j).addrs + (c i).addrs = ∑ j, (c j).addrs + u.addrs := by
  rw [← Finset.add_sum_erase _ _ (Finset.mem_univ i), ← Finset.add_sum_erase _ (fun j => (c j).addrs) (Finset.mem_univ i),
    Function.update_self]
  have hrest : ∑ j ∈ Finset.univ.erase i, (Function.update c i u j).addrs = ∑ j ∈ Finset.univ.erase i, (c j).addrs :=
    Finset.sum_congr rfl fun j hj => by rw [Function.update_of_ne (Finset.ne_of_mem_erase hj)]
  rw [hrest]
  abel

theorem mem_addrs_child {a b : Addr} {h : Hdr} {c : Fin 16 → T l} {i : Fin 16} (hb : b ∈ (c i).addrs) :
    b ∈ (T.node a h c).addrs := by
  rw [addrs_node, Multiset.mem_cons]
  exact Or.inr (Multiset.mem_sum.mpr ⟨i, Finset.mem_univ i, hb⟩)

/-- No node is in two children. -/
theorem nodup_child {a b : Addr} {h : Hdr} {c : Fin 16 → T l} (hn : (T.node a h c).addrs.Nodup) {i j : Fin 16}
    (hij : i ≠ j) (hi : b ∈ (c i).addrs) : b ∉ (c j).addrs := by
  intro hj
  have hsum := (Multiset.nodup_cons.mp hn).2
  rw [← Finset.add_sum_erase _ _ (Finset.mem_univ i)] at hsum
  refine Multiset.disjoint_left.mp (Multiset.nodup_add.mp hsum).2.2 hi ?_
  exact Multiset.mem_sum.mpr ⟨j, Finset.mem_erase.mpr ⟨hij.symm, Finset.mem_univ j⟩, hj⟩

theorem not_mem_child {a : Addr} {h : Hdr} {c : Fin 16 → T l} (hn : (T.node a h c).addrs.Nodup) (i : Fin 16) :
    a ∉ (c i).addrs := fun ha =>
  (Multiset.nodup_cons.mp hn).1 (Multiset.mem_sum.mpr ⟨i, Finset.mem_univ i, ha⟩)

theorem addrs_child_le {a : Addr} {h : Hdr} (c : Fin 16 → T l) (i : Fin 16) : (c i).addrs ≤ (T.node a h c).addrs := by
  rw [addrs_node]
  refine le_trans ?_ (Multiset.le_cons_self _ _)
  exact Finset.single_le_sum (f := fun j => (c j).addrs) (fun j _ => Multiset.zero_le _) (Finset.mem_univ i)

/-! ### Lookups -/

/-- What a lookup of the key finds. -/
def get (k : Word) : {l : ℕ} → T l → ℕ
  | _, .nil => NULL
  | _, .last _ _ w => toVoid (w (sl k 0))
  | _, @T.node l _ h c => if h.onlyKey = 0 then get k (c (sl k (l + 1))) else if h.onlyKey = k then h.onlyVal else NULL

@[simp] theorem get_nil (k : Word) : (.nil : T l).get k = NULL := rfl

@[simp] theorem get_last (k : Word) (a : Addr) (h : Hdr) (w : Fin 16 → Ptr) :
    (T.last a h w).get k = toVoid (w (sl k 0)) := rfl

theorem get_node (k : Word) (a : Addr) (h : Hdr) (c : Fin 16 → T l) : (T.node a h c).get k =
    if h.onlyKey = 0 then (c (sl k (l + 1))).get k else if h.onlyKey = k then h.onlyVal else NULL := rfl

theorem get_open {k : Word} {a : Addr} {h : Hdr} {c : Fin 16 → T l} (h0 : h.onlyKey = 0) :
    (T.node a h c).get k = (c (sl k (l + 1))).get k := if_pos h0

theorem get_packed {k : Word} {a : Addr} {h : Hdr} {c : Fin 16 → T l} (h0 : h.onlyKey ≠ 0) :
    (T.node a h c).get k = if h.onlyKey = k then h.onlyVal else NULL := if_neg h0

/-! ### The representation invariant -/

/-- A copy of the only key and its value that are below a compressed node. -/
def Copy (k : Word) (v : ℕ) : {l : ℕ} → T l → Prop
  | _, .nil => True
  | _, .last _ _ w => ∀ i, w i = if i = sl k 0 then .val v else .null
  | _, .node _ h _ => h.onlyKey = k ∧ h.onlyVal = v

/-- What `nremove` finds empty. -/
def Bare : {l : ℕ} → T l → Prop
  | _, .nil => False
  | _, .last _ h _ => h.nchildren = 0 ∧ h.onlyKey = 0
  | _, .node _ h _ => h.nchildren = 0 ∧ h.onlyKey = 0

/-- It has children, or values in the last level. -/
def Full : {l : ℕ} → T l → Prop
  | _, .nil => False
  | _, .last _ h _ => h.nchildren ≠ 0
  | _, .node _ h _ => h.nchildren ≠ 0

/-- The key a lookup is compared with. -/
def only : {l : ℕ} → T l → Word
  | _, .nil => 0
  | _, .last _ _ _ => 0
  | _, .node _ h _ => h.onlyKey

/-- A compressed node. -/
structure Packed (pos : ℕ) (h : Hdr) (c : Fin 16 → T l) : Prop where
  under : Under (l + 1) pos h.onlyKey
  val : h.onlyVal ≠ NULL
  only : ∀ i ≠ sl h.onlyKey (l + 1), c i = .nil
  copy : (c (sl h.onlyKey (l + 1))).Copy h.onlyKey h.onlyVal

/-- The slots of the last level hold values, and `only_key`, where it is not cleared, is a key that is there. -/
structure LastOK (pos : ℕ) (h : Hdr) (w : Fin 16 → Ptr) : Prop where
  count : h.nchildren = used w
  val : ∀ i, w i = .null ∨ ∃ v ≠ NULL, w i = .val v
  key : h.onlyKey ≠ 0 → Under 0 pos h.onlyKey ∧ w (sl h.onlyKey 0) ≠ .null

/-- The invariant, but for the top node, which may be bare. -/
def OK (pos : ℕ) : {l : ℕ} → T l → Prop
  | _, .nil => True
  | _, .last _ h w => LastOK pos h w
  | _, .node _ h c => h.nchildren = used (ptrs c) ∧ (h.onlyKey ≠ 0 → Packed pos h c) ∧
      ∀ i, (c i).OK (16 * pos + i.val) ∧ ¬ (c i).Bare

@[simp] theorem bare_nil : ¬ (.nil : T l).Bare := id

@[simp] theorem ok_nil {pos : ℕ} : (.nil : T l).OK pos := by cases l <;> trivial

theorem Bare.eq_last {pos : ℕ} {a : Addr} {h : Hdr} {w : Fin 16 → Ptr} (hb : (T.last a h w).Bare)
    (hok : (T.last a h w).OK pos) : w = fun _ => .null :=
  funext (used_eq_zero.mp (hok.count.symm.trans hb.1))

theorem Bare.eq_node {pos : ℕ} {a : Addr} {h : Hdr} {c : Fin 16 → T l} (hb : (T.node a h c).Bare)
    (hok : (T.node a h c).OK pos) : c = fun _ => .nil := by
  funext i
  exact ptr_eq_null.mp (used_eq_zero.mp (hok.1.symm.trans hb.1) i)

theorem Bare.get {pos : ℕ} {t : T l} (hb : t.Bare) (hok : t.OK pos) (k : Word) : t.get k = NULL := by
  cases t with
  | nil => rfl
  | last a h w =>
      rw [hb.eq_last hok]
      rfl
  | node a h c => rw [get_open hb.2, hb.eq_node hok, get_nil]

/-- A copy has the value and nothing else. -/
theorem Copy.get_self {k : Word} {v : ℕ} {t : T l} (hc : t.Copy k v) (hk : k ≠ 0) (hne : t ≠ .nil) : t.get k = v := by
  cases t with
  | nil => exact absurd rfl hne
  | last a h w =>
      have hw := hc (sl k 0)
      rw [if_pos rfl] at hw
      rw [get_last, hw]
      rfl
  | node a h c =>
      obtain ⟨rfl, rfl⟩ := hc
      rw [get_packed hk, if_pos rfl]

theorem Copy.get_of_ne {pos : ℕ} {k k' : Word} {v : ℕ} {t : T l} (hc : t.Copy k v) (hk : k ≠ 0) (hne : k' ≠ k)
    (hu : Under l pos k) (hu' : Under l pos k') : t.get k' = NULL := by
  cases t with
  | nil => rfl
  | last a h w =>
      have hw := hc (sl k' 0)
      rw [if_neg fun hs => hne (eq_of_sl hu' hu hs)] at hw
      rw [get_last, hw]
      rfl
  | node a h c =>
      obtain ⟨rfl, rfl⟩ := hc
      rw [get_packed hk, if_neg hne.symm]

end T

/-! ## Memories -/

/-- A node with this header and these slots. -/
def Hdr.node (h : Hdr) (w : Fin 16 → Ptr) : Node := ⟨w, h.onlyKey, h.onlyVal, h.nchildren⟩

@[simp] theorem Hdr.node_nodes (h : Hdr) (w : Fin 16 → Ptr) : (h.node w).nodes = w := rfl

@[simp] theorem Hdr.node_onlyKey (h : Hdr) (w : Fin 16 → Ptr) : (h.node w).onlyKey = h.onlyKey := rfl

@[simp] theorem Hdr.node_onlyVal (h : Hdr) (w : Fin 16 → Ptr) : (h.node w).onlyVal = h.onlyVal := rfl

@[simp] theorem Hdr.node_nchildren (h : Hdr) (w : Fin 16 → Ptr) : (h.node w).nchildren = h.nchildren := rfl

/-- The tree is in the memory. -/
def Rep (m : Mem) : {l : ℕ} → T l → Prop
  | _, .nil => True
  | _, .last a h w => m.node a = h.node w
  | _, .node a h c => m.node a = h.node (T.ptrs c) ∧ ∀ i, Rep m (c i)

theorem Rep.congr {m m' : Mem} {t : T l} (h : Rep m t) (he : ∀ a ∈ t.addrs, m'.node a = m.node a) : Rep m' t := by
  induction t with
  | nil => trivial
  | last a hd w => exact (he a (by simp)).trans h
  | node a hd c ih => exact ⟨(he a (by simp)).trans h.1, fun i => ih i (h.2 i) fun b hb => he b (T.mem_addrs_child hb)⟩

end Ptok.Tcradix
