import Mathlib

/-!
# 64-bit words cut into slices

All structures here take `uint64_t` keys. critnib and tcradix cut them into sixteen slices of four bits
(`SLICE`). The lemmas say what the masks and shifts of the source mean for the key as a number.
-/

namespace Ptok

/-- `uint64_t` -/
abbrev Word := BitVec 64

/-- `NIB`, that is `(1ULL << SLICE) - 1` -/
abbrev NIB : Word := 15#64

/-! A node has 16 children in critnib and tcradix and 2 in critbit: their indices have a 0. -/

instance neZero_two : NeZero 2 := ⟨by decide⟩

instance neZero_sixteen : NeZero 16 := ⟨by decide⟩

/-- `slice_index`: the index of the child at the given nib. -/
def sliceIndex (key : Word) (shift : ℕ) : Fin 16 := Fin.ofNat 16 ((key >>> shift) &&& NIB).toNat

/-- `path_mask`: the bit mask of a path above a subtree `shift` bits tall. -/
def pathMask (shift : ℕ) : Word := ~~~NIB <<< shift

/-- `util_mssb_index64`: the index of the most significant set bit. The source has it as `63 - __builtin_clzll`,
which is undefined for 0; no caller passes 0. -/
def utilMssbIndex64 (value : Word) : ℕ := value.toNat.log2

/-! ## Slices as digits -/

theorem sliceIndex_val (key : Word) (shift : ℕ) : (sliceIndex key shift).val = key.toNat / 2 ^ shift % 16 := by
  have h : ((key >>> shift) &&& NIB).toNat = key.toNat / 2 ^ shift % 16 := by
    rw [BitVec.toNat_and, BitVec.toNat_ushiftRight, Nat.shiftRight_eq_div_pow]
    exact Nat.and_two_pow_sub_one_eq_mod _ 4
  simp only [sliceIndex, Fin.val_ofNat, h]
  omega

/-- The bits from the shift on, in terms of the bits above the slice and the slice. -/
theorem div_eq_slice (key : Word) (shift : ℕ) :
    key.toNat / 2 ^ shift = key.toNat / 2 ^ (shift + 4) * 16 + (sliceIndex key shift).val := by
  rw [sliceIndex_val, pow_add, ← Nat.div_div_eq_div_mul]
  omega

theorem sliceIndex_eq_iff {k k' : Word} {shift : ℕ} (h : k.toNat / 2 ^ (shift + 4) = k'.toNat / 2 ^ (shift + 4)) :
    sliceIndex k shift = sliceIndex k' shift ↔ k.toNat / 2 ^ shift = k'.toNat / 2 ^ shift := by
  rw [div_eq_slice k, div_eq_slice k', h, Fin.ext_iff]
  omega

/-! ## Masked paths -/

theorem and_pathMask (key : Word) (shift : ℕ) : key &&& pathMask shift = (key >>> (shift + 4)) <<< (shift + 4) := by
  apply BitVec.eq_of_getLsbD_eq
  intro i hi
  have hnib : ∀ j, (~~~NIB).getLsbD j = (decide (j < 64) && decide (4 ≤ j)) := by
    intro j
    by_cases hj : j < 64
    · interval_cases j <;> rfl
    · simp [hj]
  simp only [pathMask, BitVec.getLsbD_and, BitVec.getLsbD_shiftLeft, BitVec.getLsbD_ushiftRight, hnib, hi]
  by_cases h : shift + 4 ≤ i
  · have h1 : shift + 4 + (i - (shift + 4)) = i := by omega
    have h2 : ¬ i < shift + 4 := by omega
    have h3 : ¬ i < shift := by omega
    have h4 : i - shift < 64 := by omega
    have h5 : 4 ≤ i - shift := by omega
    simp [h1, h2, h3, h4, h5]
  · have h2 : i < shift + 4 := by omega
    by_cases h3 : i < shift
    · simp [h2, h3]
    · have h5 : ¬ 4 ≤ i - shift := by omega
      simp [h2, h3, h5]

theorem and_pathMask_toNat (key : Word) (shift : ℕ) :
    (key &&& pathMask shift).toNat = key.toNat / 2 ^ (shift + 4) * 2 ^ (shift + 4) := by
  rw [and_pathMask, BitVec.toNat_shiftLeft, BitVec.toNat_ushiftRight, Nat.shiftLeft_eq, Nat.shiftRight_eq_div_pow]
  refine Nat.mod_eq_of_lt (lt_of_le_of_lt (Nat.div_mul_le_self _ _) key.isLt)

/-- The path test of the source compares the bits above the slice. -/
theorem and_pathMask_eq_iff {key path : Word} {shift : ℕ} (hp : path &&& pathMask shift = path) :
    key &&& pathMask shift = path ↔ path.toNat / 2 ^ (shift + 4) = key.toNat / 2 ^ (shift + 4) := by
  have : 0 < 2 ^ (shift + 4) := by positivity
  conv_lhs => rw [← hp]
  rw [← BitVec.toNat_inj, and_pathMask_toNat, and_pathMask_toNat, Nat.mul_left_inj this.ne']
  exact eq_comm

theorem and_pathMask_idem (key : Word) (shift : ℕ) :
    (key &&& pathMask shift) &&& pathMask shift = key &&& pathMask shift := by
  rw [BitVec.and_assoc, BitVec.and_self]

/-- A masked path is zero below the slice's upper edge. -/
theorem mod_of_and_pathMask {path : Word} {shift : ℕ} (hp : path &&& pathMask shift = path) :
    path.toNat % 2 ^ (shift + 4) = 0 := by
  rw [← hp, and_pathMask_toNat]
  exact Nat.mul_mod_left _ _

/-- `(key ^ path) >> shift & ~NIB` is not zero iff the bits above the slice differ. -/
theorem xor_shift_and_eq_zero_iff (key path : Word) (shift : ℕ) :
    ((key ^^^ path) >>> shift) &&& ~~~NIB = 0#64 ↔
      path.toNat / 2 ^ (shift + 4) = key.toNat / 2 ^ (shift + 4) := by
  have hmask : ∀ x : Word, x &&& ~~~NIB = 0#64 ↔ x >>> 4 = 0#64 := by
    intro x
    have h := and_pathMask x 0
    simp only [pathMask, BitVec.shiftLeft_zero, Nat.zero_add] at h
    rw [h]
    constructor
    · intro h0
      apply BitVec.eq_of_toNat_eq
      have := congrArg BitVec.toNat h0
      rw [BitVec.toNat_shiftLeft, BitVec.toNat_ushiftRight, Nat.shiftLeft_eq, Nat.shiftRight_eq_div_pow] at this
      rw [BitVec.toNat_ushiftRight, Nat.shiftRight_eq_div_pow]
      have hlt := x.isLt
      simp only [BitVec.toNat_ofNat] at this ⊢
      omega
    · intro h0
      rw [h0]
      rfl
  rw [hmask, ← BitVec.shiftRight_add, BitVec.ushiftRight_xor_distrib, BitVec.xor_eq_zero_iff,
    ← BitVec.toNat_inj, BitVec.toNat_ushiftRight, BitVec.toNat_ushiftRight, Nat.shiftRight_eq_div_pow,
    Nat.shiftRight_eq_div_pow]
  exact eq_comm

/-- Where the upper bits differ they decide the order. -/
theorem lt_iff_of_div_ne {k k' : Word} {e : ℕ} (h : k.toNat / 2 ^ e ≠ k'.toNat / 2 ^ e) :
    k < k' ↔ k.toNat / 2 ^ e < k'.toNat / 2 ^ e := by
  rw [BitVec.lt_def]
  constructor
  · intro hlt
    exact lt_of_le_of_ne (Nat.div_le_div_right hlt.le) h
  · intro hlt
    by_contra hle
    exact absurd (Nat.div_le_div_right (c := 2 ^ e) (not_lt.mp hle)) (not_le.mpr hlt)

/-! ## The first slice at which two words differ -/

/-- `util_mssb_index64(at) & (sh_t)~(SLICE - 1)` -/
def splitShift (at_ : Word) : ℕ := utilMssbIndex64 at_ &&& 252

theorem splitShift_eq {x : Word} (hx : x ≠ 0#64) : splitShift x = x.toNat.log2 / 4 * 4 ∧ splitShift x ≤ 60 := by
  have h0 : x.toNat ≠ 0 := by
    intro h
    exact hx (BitVec.eq_of_toNat_eq (by simpa using h))
  have hlt : x.toNat.log2 < 64 := (Nat.log2_lt h0).mpr x.isLt
  have key : ∀ m < 64, m &&& 252 = m / 4 * 4 := by decide
  refine ⟨key _ hlt, ?_⟩
  show utilMssbIndex64 x &&& 252 ≤ 60
  rw [utilMssbIndex64, key _ hlt]
  omega

theorem splitShift_mod {x : Word} (hx : x ≠ 0#64) : splitShift x % 4 = 0 := by
  rw [(splitShift_eq hx).1]
  omega

/-- Above the split slice the words agree. -/
theorem div_eq_above_split {k k' : Word} (h : k ^^^ k' ≠ 0#64) :
    k.toNat / 2 ^ (splitShift (k ^^^ k') + 4) = k'.toNat / 2 ^ (splitShift (k ^^^ k') + 4) := by
  have hlog : (k ^^^ k').toNat < 2 ^ (splitShift (k ^^^ k') + 4) := by
    refine lt_of_lt_of_le Nat.lt_log2_self (Nat.pow_le_pow_right (by omega) ?_)
    rw [(splitShift_eq h).1]
    omega
  have hz : (k ^^^ k') >>> (splitShift (k ^^^ k') + 4) = 0#64 := by
    apply BitVec.eq_of_toNat_eq
    rw [BitVec.toNat_ushiftRight, Nat.shiftRight_eq_div_pow, Nat.div_eq_of_lt hlog]
    rfl
  rw [BitVec.ushiftRight_xor_distrib, BitVec.xor_eq_zero_iff, ← BitVec.toNat_inj, BitVec.toNat_ushiftRight,
    BitVec.toNat_ushiftRight, Nat.shiftRight_eq_div_pow, Nat.shiftRight_eq_div_pow] at hz
  exact hz

/-- From the split slice on they differ. -/
theorem div_ne_at_split {k k' : Word} (h : k ^^^ k' ≠ 0#64) :
    k.toNat / 2 ^ splitShift (k ^^^ k') ≠ k'.toNat / 2 ^ splitShift (k ^^^ k') := by
  intro he
  have h0 : (k ^^^ k').toNat ≠ 0 := by
    intro h'
    exact h (BitVec.eq_of_toNat_eq (by simpa using h'))
  have hz : (k ^^^ k') >>> splitShift (k ^^^ k') = 0#64 := by
    rw [BitVec.ushiftRight_xor_distrib, BitVec.xor_eq_zero_iff]
    apply BitVec.eq_of_toNat_eq
    rw [BitVec.toNat_ushiftRight, BitVec.toNat_ushiftRight, Nat.shiftRight_eq_div_pow,
      Nat.shiftRight_eq_div_pow, he]
  have hdiv := congrArg BitVec.toNat hz
  rw [BitVec.toNat_ushiftRight, Nat.shiftRight_eq_div_pow] at hdiv
  have hle : 2 ^ splitShift (k ^^^ k') ≤ (k ^^^ k').toNat := by
    refine le_trans (Nat.pow_le_pow_right (by omega) ?_) (Nat.log2_self_le h0)
    rw [(splitShift_eq h).1]
    omega
  have := Nat.div_pos hle (by positivity)
  simp only [BitVec.toNat_ofNat] at hdiv
  omega

end Ptok
