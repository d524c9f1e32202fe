import Ptok.Lib.Trie
import Ptok.Critbit.Model

/-!
# critbit's nodes as nodes of a compressed trie

The digits of a key are its bits, the least significant first. `bit` is a power of two, its exponent the position.
-/

namespace Ptok.Critbit

open Lib

structure Leaf where
  key : Word
  value : ℕ

/-- What an inner node says besides its children. -/
structure Hdr where
  path : Word
  bit : Word

abbrev T := Tree Addr Leaf Hdr (Fin 2)

/-- What is found at an address. A leaf has `bit == 0`. -/
def Mem.cell (m : Mem) (n : Addr) : Cell Addr Leaf Hdr (Fin 2) :=
  if n = 0 then .nil
  else if (m.node n).bit = 0 then .leaf ⟨(m.node n).path, (m.node n).child 0⟩
  else .node ⟨(m.node n).path, (m.node n).bit⟩ (m.node n).child

/-! ## Single bits -/

theorem twoPow_ne_zero {i : ℕ} (hi : i < 64) : BitVec.twoPow 64 i ≠ 0#64 := by
  intro h
  have := congrArg (fun w => w.getLsbD i) h
  simp [hi] at this

/-- `bit - 1` masks the bits below. -/
theorem getLsbD_twoPow_sub_one {i j : ℕ} (hi : i < 64) : (BitVec.twoPow 64 i - 1#64).getLsbD j = decide (j < i) := by
  have hpow : 2 ^ i < 2 ^ 64 := Nat.pow_lt_pow_right (by omega) hi
  have hpos : 0 < 2 ^ i := by positivity
  have h : (BitVec.twoPow 64 i - 1#64).toNat = 2 ^ i - 1 := by
    rw [BitVec.toNat_sub, BitVec.toNat_twoPow_of_lt hi, BitVec.toNat_ofNat]
    omega
  rw [BitVec.getLsbD, h, Nat.testBit_two_pow_sub_one]

theorem and_sub_one_eq_iff {i : ℕ} (hi : i < 64) {key path : Word}
    (hp : path &&& (BitVec.twoPow 64 i - 1#64) = path) :
    key &&& (BitVec.twoPow 64 i - 1#64) = path ↔ ∀ j < i, path.getLsbD j = key.getLsbD j := by
  have hpath : ∀ j, ¬ j < i → path.getLsbD j = false := by
    intro j hj
    rw [← hp, BitVec.getLsbD_and, getLsbD_twoPow_sub_one hi]
    simp [hj]
  constructor
  · intro h j hj
    rw [← h, BitVec.getLsbD_and, getLsbD_twoPow_sub_one hi]
    simp [hj]
  · intro h
    refine BitVec.eq_of_getLsbD_eq fun j _ => ?_
    rw [BitVec.getLsbD_and, getLsbD_twoPow_sub_one hi]
    by_cases hj : j < i
    · simp [hj, h j hj]
    · simp [hj, hpath j hj]

/-- `x & -x` is the lowest bit set in `x`. -/
theorem and_neg_eq {x : Word} (hx : x ≠ 0#64) :
    ∃ i < 64, x &&& -x = BitVec.twoPow 64 i ∧ x.getLsbD i = true ∧ ∀ j < i, x.getLsbD j = false := by
  have hex : ∃ i, x.getLsbD i = true := by
    by_contra h
    refine hx (BitVec.eq_of_getLsbD_eq fun i _ => ?_)
    have := not_exists.mp h i
    simpa using this
  classical
  obtain ⟨i, hset, hmin⟩ : ∃ i, x.getLsbD i = true ∧ ∀ j < i, x.getLsbD j = false :=
    ⟨Nat.find hex, Nat.find_spec hex, fun j hj => by simpa using Nat.find_min hex hj⟩
  have hi : i < 64 := BitVec.lt_of_getLsbD hset
  refine ⟨i, hi, BitVec.eq_of_getLsbD_eq fun j hj => ?_, hset, hmin⟩
  rw [BitVec.getLsbD_and, BitVec.getLsbD_neg, BitVec.getLsbD_twoPow]
  rcases Nat.lt_trichotomy j i with h | rfl | h
  · have : i ≠ j := by omega
    simp [hmin j h, this]
  · have : ¬ ∃ k < j, x.getLsbD k = true := by
      rintro ⟨k, hk, hk'⟩
      rw [hmin k hk] at hk'
      cases hk'
    simp [hset, hj, this]
  · have hk : ∃ k < j, x.getLsbD k = true := ⟨i, h, hset⟩
    have : i ≠ j := by omega
    cases hb : x.getLsbD j <;> simp [hk, hj, this]

/-! ## Keys as strings of bits -/

def bitOf (key : Word) (i : ℕ) : Fin 2 := if key.getLsbD i then 1 else 0

theorem bitOf_eq_iff {k k' : Word} {i : ℕ} : bitOf k i = bitOf k' i ↔ k.getLsbD i = k'.getLsbD i := by
  unfold bitOf
  cases k.getLsbD i <;> cases k'.getLsbD i <;> simp

def bits : Coding Word (Fin 2) Hdr Leaf where
  len := 64
  dig := bitOf
  ext _ _ h := BitVec.eq_of_getLsbD_eq fun i hi => bitOf_eq_iff.mp (h i hi)
  ok n := ∃ i < 64, n.bit = BitVec.twoPow 64 i ∧ n.path &&& (n.bit - 1) = n.path
  pos n := n.bit.toNat.log2
  path n := n.path
  key l := l.key

@[simp] theorem bits_len : bits.len = 64 := rfl
@[simp] theorem bits_key (l : Leaf) : bits.key l = l.key := rfl
@[simp] theorem bits_path (n : Hdr) : bits.path n = n.path := rfl

theorem bits_ok_iff {n : Hdr} :
    bits.ok n ↔ bits.pos n < 64 ∧ n.bit = BitVec.twoPow 64 (bits.pos n) ∧ n.path &&& (n.bit - 1) = n.path := by
  constructor
  · rintro ⟨i, hi, hb, hp⟩
    have hpos : bits.pos n = i := by
      show n.bit.toNat.log2 = i
      rw [hb, BitVec.toNat_twoPow_of_lt hi, Nat.log2_two_pow]
    exact ⟨hpos ▸ hi, hpos ▸ hb, hp⟩
  · rintro ⟨hlt, hb, hp⟩
    exact ⟨_, hlt, hb, hp⟩

theorem bit_ne_zero {n : Hdr} (h : bits.ok n) : n.bit ≠ 0 := by
  obtain ⟨hlt, hb, -⟩ := bits_ok_iff.mp h
  rw [hb]
  exact twoPow_ne_zero hlt

/-- The digit a node branches on. -/
theorem dirOf_bit {n : Hdr} (h : bits.ok n) (key : Word) : dirOf (n.bit &&& key) = bits.dig key (bits.pos n) := by
  obtain ⟨hlt, hb, -⟩ := bits_ok_iff.mp h
  rw [hb, BitVec.twoPow_and]
  show dirOf _ = bitOf key (bits.pos n)
  unfold dirOf bitOf
  cases hk : key.getLsbD (bits.pos n)
  · simp
  · simp [twoPow_ne_zero hlt]

/-- The path test of the source. -/
theorem and_bit_eq_iff {n : Hdr} (h : bits.ok n) (key : Word) :
    key &&& (n.bit - 1) = n.path ↔ bits.Agree (bits.pos n) (bits.path n) key := by
  obtain ⟨hlt, hb, hp⟩ := bits_ok_iff.mp h
  rw [hb] at hp ⊢
  rw [show (1 : Word) = 1#64 from rfl, and_sub_one_eq_iff hlt hp]
  exact forall₂_congr fun j _ => bitOf_eq_iff.symm

theorem bit_lt {n n' : Hdr} (h : bits.ok n) (h' : bits.ok n') (hpos : bits.pos n < bits.pos n') : n.bit < n'.bit := by
  obtain ⟨hlt, hb, -⟩ := bits_ok_iff.mp h
  obtain ⟨hlt', hb', -⟩ := bits_ok_iff.mp h'
  rw [BitVec.lt_def, hb, hb', BitVec.toNat_twoPow_of_lt hlt, BitVec.toNat_twoPow_of_lt hlt']
  exact Nat.pow_lt_pow_right (by omega) hpos

theorem hdr_ext {n n' : Hdr} (h : bits.ok n) (h' : bits.ok n') (hpos : bits.pos n = bits.pos n')
    (hag : bits.Agree (bits.pos n) (bits.path n) (bits.path n')) : n = n' := by
  obtain ⟨hlt, hb, hp⟩ := bits_ok_iff.mp h
  obtain ⟨-, hb', hp'⟩ := bits_ok_iff.mp h'
  have hbit : n.bit = n'.bit := by rw [hb, hb', hpos]
  have hpath : n'.path = n.path := by
    rw [← hp', ← hbit]
    exact (and_bit_eq_iff h n'.path).mpr hag
  cases n
  cases n'
  cases hbit
  cases hpath
  rfl

/-! ## Insertion -/

/-- The walk of `critbit_insert`. -/
def insertSel (key : Word) : Hdr → (Fin 2 → T) → Option (Fin 2) := fun n _ =>
  if key &&& (n.bit - 1) = n.path then some (dirOf (n.bit &&& key)) else none

theorem insertSel_follows (key : Word) : Coding.Follows bits key (insertSel key) := by
  intro n c hok
  rw [← and_bit_eq_iff hok, ← dirOf_bit hok]
  unfold insertSel
  by_cases h : key &&& (n.bit - 1) = n.path
  · exact Or.inl ⟨h, if_pos h⟩
  · exact Or.inr ⟨h, if_neg h⟩

/-- `(path ^ key) & -(path ^ key)` -/
def splitBit (path key : Word) : Word := (path ^^^ key) &&& -(path ^^^ key)

/-- What the inner node of the block says. -/
def splitHdr (path key : Word) : Hdr := ⟨key &&& (splitBit path key - 1), splitBit path key⟩

section

variable {path key : Word} (h : path ≠ key)
include h

theorem splitHdr_ok : bits.ok (splitHdr path key) := by
  obtain ⟨i, hi, he, -⟩ := and_neg_eq (mt BitVec.xor_eq_zero_iff.mp h)
  refine ⟨i, hi, he, ?_⟩
  simp only [splitHdr, BitVec.and_assoc, BitVec.and_self]

/-- It stands where the two words differ first. -/
theorem splitHdr_first : bits.Agree (bits.pos (splitHdr path key)) path key ∧
    bits.dig path (bits.pos (splitHdr path key)) ≠ bits.dig key (bits.pos (splitHdr path key)) := by
  obtain ⟨i, hi, he, hset, hmin⟩ := and_neg_eq (mt BitVec.xor_eq_zero_iff.mp h)
  have hpos : bits.pos (splitHdr path key) = i := by
    show (splitBit path key).toNat.log2 = i
    rw [splitBit, he, BitVec.toNat_twoPow_of_lt hi, Nat.log2_two_pow]
  rw [hpos]
  refine ⟨fun j hj => bitOf_eq_iff.mpr ?_, mt bitOf_eq_iff.mp ?_⟩
  · have := hmin j hj
    rw [BitVec.getLsbD_xor] at this
    simpa using this
  · rw [BitVec.getLsbD_xor] at hset
    simpa using hset

theorem splitHdr_path : bits.Agree (bits.pos (splitHdr path key)) (bits.path (splitHdr path key)) key :=
  (and_bit_eq_iff (splitHdr_ok h) key).mp rfl

/-- `dir` of the source, and the other child. -/
theorem dirOf_splitBit : dirOf (key &&& splitBit path key) = bits.dig key (bits.pos (splitHdr path key)) ∧
    1 - dirOf (key &&& splitBit path key) = bits.dig path (bits.pos (splitHdr path key)) := by
  have hkey : dirOf (key &&& splitBit path key) = bits.dig key (bits.pos (splitHdr path key)) := by
    rw [BitVec.and_comm]
    exact dirOf_bit (splitHdr_ok h) key
  refine ⟨hkey, ?_⟩
  rw [hkey]
  have hother : ∀ i j : Fin 2, j ≠ i → 1 - i = j := by decide
  exact hother _ _ (splitHdr_first h).2

end

/-! ## The map of a tree -/

/-- What a tree stands for. -/
def T.map (t : T) : KMap := bits.mapOf (·.value) t

theorem T.get_of_map {t : T} (ht : bits.Routed t) {key : Word} {v : ℕ} (h : t.map key = some v) :
    bits.get key t = some ⟨key, v⟩ := by
  obtain ⟨⟨k, v'⟩, hl, hk, hv⟩ := (Coding.mapOf_eq_some ht).mp h
  cases hk
  cases hv
  exact (Coding.get_eq_some ht).mpr ⟨hl, rfl⟩

/-- A map has one tree. -/
theorem T.sameShape {t t' : T} (ht : bits.WF t 0) (ht' : bits.WF t' 0) (h : t.map = t'.map) : t.SameShape t' := by
  have hleaf : ∀ l l' : Leaf, bits.key l = bits.key l' → l.value = l'.value → l = l' := by
    rintro ⟨key, value⟩ ⟨key', value'⟩ hk hv
    cases hk
    cases hv
    rfl
  exact Coding.WF.sameShape (fun n n' => hdr_ext) ht ht'
    (Coding.has_iff_of_mapOf_eq hleaf ht.routed ht'.routed h)

end Ptok.Critbit
