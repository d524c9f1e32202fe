import Ptok.Lib.Trie
import Ptok.Critnib.Model

/-!
# critnib's nodes as nodes of a compressed trie

The digits of a key are its nibbles, the most significant first. `shift` is the position counted from the other
end.
-/

namespace Ptok.Critnib

open Lib

/-- What a node says besides its children. -/
structure Hdr where
  path : Word
  shift : ℕ

abbrev T := Tree Ptr Leaf Hdr (Fin 16)

def Mem.cell (m : Mem) : Ptr → Cell Ptr Leaf Hdr (Fin 16)
  | .null => .nil
  | .node a => .node ⟨(m.node a).path, (m.node a).shift⟩ (m.node a).child
  | .leaf k => .leaf (m.leaf k)

/-- Upper halves of keys, in terms of nibbles. -/
theorem agree_iff_div {p : ℕ} (hp : p ≤ 16) (k k' : Word) :
    (∀ q < p, sliceIndex k (60 - 4 * q) = sliceIndex k' (60 - 4 * q)) ↔
      k.toNat / 2 ^ (64 - 4 * p) = k'.toNat / 2 ^ (64 - 4 * p) := by
  induction p with
  | zero =>
      have h : ∀ x : Word, x.toNat / 2 ^ 64 = 0 := fun x => Nat.div_eq_of_lt x.isLt
      exact ⟨fun _ => (h k).trans (h k').symm, fun _ q hq => absurd hq (Nat.not_lt_zero q)⟩
  | succ p ih =>
      have hs : 64 - 4 * p = (60 - 4 * p) + 4 := by omega
      have hs' : 64 - 4 * (p + 1) = 60 - 4 * p := by omega
      have ih := ih (by omega)
      rw [hs] at ih
      rw [hs']
      constructor
      · intro h
        exact (sliceIndex_eq_iff (ih.mp fun q hq => h q (by omega))).mp (h p (by omega))
      · intro h q hq
        have h₁ : k.toNat / 2 ^ (60 - 4 * p + 4) = k'.toNat / 2 ^ (60 - 4 * p + 4) := by
          rw [pow_add, ← Nat.div_div_eq_div_mul, ← Nat.div_div_eq_div_mul, h]
        rcases Nat.lt_succ_iff_lt_or_eq.mp hq with hlt | rfl
        · exact ih.mpr h₁ q hlt
        · exact (sliceIndex_eq_iff h₁).mpr h

/-- Keys as strings of nibbles. -/
def nibs : Coding Word (Fin 16) Hdr Leaf where
  len := 16
  dig k q := sliceIndex k (60 - 4 * q)
  ext k k' h := by
    have := (agree_iff_div le_rfl k k').mp h
    simpa [BitVec.toNat_inj] using this
  ok n := n.shift % 4 = 0 ∧ n.shift ≤ 60 ∧ n.path &&& pathMask n.shift = n.path
  pos n := (60 - n.shift) / 4
  path n := n.path
  key l := l.key

@[simp] theorem nibs_len : nibs.len = 16 := rfl
@[simp] theorem nibs_key (l : Leaf) : nibs.key l = l.key := rfl
@[simp] theorem nibs_path (n : Hdr) : nibs.path n = n.path := rfl

theorem nibs_pos {n : Hdr} (h : nibs.ok n) : 60 - 4 * nibs.pos n = n.shift := by
  obtain ⟨h₁, h₂, -⟩ := h
  simp only [nibs]
  omega

theorem nibs_pos_lt {n : Hdr} (h : nibs.ok n) : nibs.pos n < 16 := by
  have := h.2.1
  simp only [nibs]
  omega

/-- The digit a node branches on. -/
theorem dig_pos {n : Hdr} (h : nibs.ok n) (key : Word) : nibs.dig key (nibs.pos n) = sliceIndex key n.shift := by
  show sliceIndex key (60 - 4 * nibs.pos n) = _
  rw [nibs_pos h]

theorem agree_pos_iff {n : Hdr} (h : nibs.ok n) (k k' : Word) :
    nibs.Agree (nibs.pos n) k k' ↔ k.toNat / 2 ^ (n.shift + 4) = k'.toNat / 2 ^ (n.shift + 4) := by
  have hp := nibs_pos_lt h
  have hs : 64 - 4 * nibs.pos n = n.shift + 4 := by
    have := nibs_pos h
    omega
  rw [← hs]
  exact agree_iff_div hp.le k k'

/-- The walk of `critnib_insert`. -/
def insertSel (key : Word) : Hdr → (Fin 16 → T) → Option (Fin 16) := fun n _ =>
  if key &&& pathMask n.shift = n.path then some (sliceIndex key n.shift) else none

theorem insertSel_follows (key : Word) : Coding.Follows nibs key (insertSel key) := by
  intro n c hok
  rw [agree_pos_iff hok, nibs_path, ← and_pathMask_eq_iff hok.2.2, dig_pos hok]
  unfold insertSel
  by_cases h : key &&& pathMask n.shift = n.path
  · exact Or.inl ⟨h, if_pos h⟩
  · exact Or.inr ⟨h, if_neg h⟩

/-- What the node made by a split says. -/
def splitHdr (path key : Word) : Hdr :=
  ⟨key &&& pathMask (splitShift (path ^^^ key)), splitShift (path ^^^ key)⟩

theorem splitHdr_ok {path key : Word} (h : path ^^^ key ≠ 0#64) : nibs.ok (splitHdr path key) :=
  ⟨splitShift_mod h, (splitShift_eq h).2, and_pathMask_idem _ _⟩

/-- It stands where the two words differ first. -/
theorem splitHdr_agree {path key : Word} (h : path ^^^ key ≠ 0#64) :
    nibs.Agree (nibs.pos (splitHdr path key)) path key := by
  rw [agree_pos_iff (splitHdr_ok h)]
  exact div_eq_above_split h

theorem splitHdr_dig {path key : Word} (h : path ^^^ key ≠ 0#64) :
    nibs.dig path (nibs.pos (splitHdr path key)) ≠ nibs.dig key (nibs.pos (splitHdr path key)) := by
  rw [dig_pos (splitHdr_ok h), dig_pos (splitHdr_ok h)]
  intro he
  exact div_ne_at_split h ((sliceIndex_eq_iff (div_eq_above_split h)).mp he)

theorem splitHdr_path {path key : Word} (h : path ^^^ key ≠ 0#64) :
    nibs.Agree (nibs.pos (splitHdr path key)) (nibs.path (splitHdr path key)) key := by
  rw [agree_pos_iff (splitHdr_ok h)]
  exact (and_pathMask_eq_iff (and_pathMask_idem _ _)).mp rfl

/-! ## The map of a tree -/

/-- What a tree stands for. -/
def T.map (t : T) : KMap := fun key => (nibs.get key t).map (·.value)

theorem T.map_eq_some {t : T} (ht : nibs.Routed t) {key : Word} {v : ℕ} :
    t.map key = some v ↔ ∃ l, t.Has l ∧ l.key = key ∧ l.value = v :=
  Coding.mapOf_eq_some ht

theorem T.map_ne_none {t : T} (ht : nibs.Routed t) {key : Word} :
    t.map key ≠ none ↔ ∃ l, t.Has l ∧ l.key = key :=
  Coding.mapOf_ne_none ht

/-- A tree with the same leaves. -/
theorem T.map_congr {t t' : T} (ht : nibs.Routed t) (ht' : nibs.Routed t') (h : ∀ l, t'.Has l ↔ t.Has l) :
    t'.map = t.map :=
  Coding.mapOf_congr ht ht' h

/-- A tree with one more leaf. -/
theorem T.map_bind {t t' : T} (ht : nibs.Routed t) (ht' : nibs.Routed t') {l : Leaf}
    (h : ∀ l', t'.Has l' ↔ l' = l ∨ t.Has l') : t'.map = t.map.bind l.key l.value :=
  Coding.mapOf_update ht ht' h

/-- A tree with one leaf less. -/
theorem T.map_unbind {t t' : T} (ht : nibs.Routed t) (ht' : nibs.Routed t') {key : Word}
    (h : ∀ l, t'.Has l ↔ t.Has l ∧ l.key ≠ key) : t'.map = t.map.unbind key :=
  Coding.mapOf_erase ht ht' h

/-- Position and path determine what a node says. -/
theorem hdr_ext {n n' : Hdr} (h : nibs.ok n) (h' : nibs.ok n') (hpos : nibs.pos n = nibs.pos n')
    (hag : nibs.Agree (nibs.pos n) (nibs.path n) (nibs.path n')) : n = n' := by
  have hshift : n.shift = n'.shift := by rw [← nibs_pos h, ← nibs_pos h', hpos]
  have hdiv : n.path.toNat / 2 ^ (n.shift + 4) = n'.path.toNat / 2 ^ (n.shift + 4) := (agree_pos_iff h _ _).mp hag
  have hmod := mod_of_and_pathMask h.2.2
  have hmod' := mod_of_and_pathMask h'.2.2
  rw [← hshift] at hmod'
  have hpath : n.path = n'.path := by
    refine BitVec.eq_of_toNat_eq ?_
    rw [← Nat.div_add_mod n.path.toNat (2 ^ (n.shift + 4)), ← Nat.div_add_mod n'.path.toNat (2 ^ (n.shift + 4)),
      hdiv, hmod, hmod']
  cases n
  cases n'
  cases hshift
  cases hpath
  rfl

/-- A map has one tree. -/
theorem T.sameShape {t t' : T} (ht : nibs.WF t 0) (ht' : nibs.WF t' 0) (h : t.map = t'.map) : t.SameShape t' := by
  have hleaf : ∀ l l' : Leaf, nibs.key l = nibs.key l' → l.value = l'.value → l = l' := by
    rintro ⟨key, value⟩ ⟨key', value'⟩ hk hv
    cases hk
    cases hv
    rfl
  exact Coding.WF.sameShape (fun n n' => hdr_ext) ht ht'
    (Coding.has_iff_of_mapOf_eq hleaf ht.routed ht'.routed h)

/-! ## Unsigned order -/

/-- Keys below different children of a node are in the order of the children. -/
theorem lt_of_dig {p : ℕ} (hp : p < 16) {k k' : Word} (h : nibs.Agree p k k')
    (hd : nibs.dig k p < nibs.dig k' p) : k < k' := by
  rw [BitVec.lt_def]
  have h₁ := (agree_iff_div hp.le k k').mp h
  have hs : 64 - 4 * p = (60 - 4 * p) + 4 := by omega
  rw [hs] at h₁
  have hd' : (sliceIndex k (60 - 4 * p)).val < (sliceIndex k' (60 - 4 * p)).val := hd
  have hlt : k.toNat / 2 ^ (60 - 4 * p) < k'.toNat / 2 ^ (60 - 4 * p) := by
    rw [div_eq_slice k, div_eq_slice k', h₁]
    omega
  by_contra hle
  exact absurd (Nat.div_le_div_right (c := 2 ^ (60 - 4 * p)) (not_lt.mp hle)) (by omega)

end Ptok.Critnib
