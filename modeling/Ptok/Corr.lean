import Ptok.Hm

/-!
# test_le_brute of 1corr.c

The test inserts and removes keys that are drawn, notes in an array which ones are there, and compares every `find_le`
with a search of the array. It passes whatever numbers are drawn.
-/

namespace Ptok.Corr

open Lib Hmload
open Critnib (Op Ret)

/-- Two bits out of every four are zero. -/
def expandBits (x : Word) : Word :=
  (x &&& 0xc000#64) <<< 14 ||| (x &&& 0x3000#64) <<< 12 ||| (x &&& 0x0c00#64) <<< 10 ||| (x &&& 0x0300#64) <<< 8 |||
    (x &&& 0x00c0#64) <<< 6 ||| (x &&& 0x0030#64) <<< 4 ||| (x &&& 0x000c#64) <<< 2 ||| (x &&& 0x0003#64)

/-- `expand_bits(w)` for an index `w` of the array -/
def keyOf (w : ℕ) : Word := expandBits (BitVec.ofNat 64 w)

/-- `mrand48()&0xffff` -/
def index (r : Word) : ℕ := (r &&& 0xffff#64).toNat

/-- The loop down to the next key that is there; `none` is -1. -/
def lastSet (ws : ℕ → Bool) : ℕ → Option ℕ
  | 0 => if ws 0 then some 0 else none
  | v + 1 => if ws (v + 1) then some (v + 1) else lastSet ws v

/-- The inner loop: `n` searches with the numbers from the `d`-th one on. The first wrong result ends the test. -/
def searches (h : Hm) (mrand48 : ℕ → Word) (ws : ℕ → Bool) (m : h.Mem) (fuel : ℕ) : ℕ → ℕ → Except Stuck Bool
  | 0, _ => pure true
  | n + 1, d => do
    let w := index (mrand48 d)
    let res ← h.hmFindLe (keyOf w) m fuel
    let exp := (lastSet ws w).elim 0 fun v => (keyOf v).toNat
    if res = exp then searches h mrand48 ws m fuel n (d + 1) else pure false

/-- What the outer loop does before the searches. -/
def toggle (h : Hm) (ws : ℕ → Bool) (m : h.Mem) (w fuel : ℕ) : Except Stuck ((ℕ → Bool) × h.Mem) :=
  if ws w then do
    let r ← h.hmRemove (keyOf w) m fuel
    pure (Function.update ws w false, r.2)
  else do
    let r ← h.hmInsert (keyOf w) (keyOf w).toNat m fuel
    pure (Function.update ws w true, r.2)

/-- The outer loop. -/
def rounds (h : Hm) (mrand48 : ℕ → Word) (fuel : ℕ) : ℕ → ℕ → (ℕ → Bool) → h.Mem → Except Stuck Bool
  | 0, _, _, _ => pure true
  | n + 1, d, ws, m => do
    let s ← toggle h ws m (index (mrand48 d)) fuel
    if ← searches h mrand48 s.1 s.2 fuel 1024 (d + 1) then rounds h mrand48 fuel n (d + 1025) s.1 s.2 else pure false

/-- Whether every `CHECK` passes. -/
def testLeBrute (h : Hm) (heap : h.Heap) (mrand48 : ℕ → Word) (fuel : ℕ) : Except Stuck Bool :=
  rounds h mrand48 fuel 1024 0 (fun _ => false) (h.hmNew heap)

variable {h : Hm} {R : h.Mem → Abs → Prop} {m : h.Mem} {a : Abs} {f : KMap} {ws : ℕ → Bool}
  {w w' n : ℕ} {mrand48 : ℕ → Word}

/-! ## The keys -/

theorem index_lt (r : Word) : index r < 65536 := by
  have := Nat.and_le_right (n := r.toNat) (m := 0xffff)
  simp only [index, BitVec.toNat_and]
  exact Nat.lt_succ_of_le this

/-- Each bit goes its own way. -/
theorem expandBits_or (x y : Word) : expandBits (x ||| y) = expandBits x ||| expandBits y := by
  have hpart : ∀ (mask : Word) (n : ℕ), ((x ||| y) &&& mask) <<< n = (x &&& mask) <<< n ||| (y &&& mask) <<< n := by
    intro mask n
    rw [BitVec.and_comm, BitVec.and_or_distrib_left, BitVec.shiftLeft_or_distrib, BitVec.and_comm x, BitVec.and_comm y]
  have hlast : (x ||| y) &&& 0x0003#64 = x &&& 0x0003#64 ||| y &&& 0x0003#64 := by simpa using hpart 0x0003#64 0
  have hjoin : ∀ {a b c d e f : Word}, e = a ||| b → f = c ||| d → e ||| f = (a ||| c) ||| (b ||| d) := by
    rintro a b c d - - rfl rfl
    ac_rfl
  exact hjoin (hjoin (hjoin (hjoin (hjoin (hjoin (hjoin (hpart _ _) (hpart _ _)) (hpart _ _)) (hpart _ _)) (hpart _ _))
    (hpart _ _)) (hpart _ _)) hlast

/-- The high half of the index goes to the high half of the key, in order. -/
theorem keyOf_high : ∀ x < 256, (keyOf (2 ^ 8 * x)).toNat % 2 ^ 16 = 0 ∧
    (x < 255 → (keyOf (2 ^ 8 * x)).toNat + 2 ^ 16 ≤ (keyOf (2 ^ 8 * (x + 1))).toNat) := by
  decide +kernel

theorem keyOf_low : ∀ y < 256, (keyOf y).toNat < 2 ^ 16 ∧ (y < 255 → (keyOf y).toNat < (keyOf (y + 1)).toNat) := by
  decide +kernel

theorem keyOf_add {x y : ℕ} (hx : x < 256) (hy : y < 256) :
    (keyOf (2 ^ 8 * x + y)).toNat = (keyOf (2 ^ 8 * x)).toNat + (keyOf y).toNat := by
  have hor : keyOf (2 ^ 8 * x + y) = keyOf (2 ^ 8 * x) ||| keyOf y := by
    rw [keyOf, Nat.two_pow_add_eq_or_of_lt hy, BitVec.ofNat_or, expandBits_or]
    rfl
  obtain ⟨q, hq⟩ := Nat.dvd_of_mod_eq_zero (keyOf_high x hx).1
  rw [hor, BitVec.toNat_or, hq, Nat.two_pow_add_eq_or_of_lt (keyOf_low y hy).1]

theorem keyOf_succ {w : ℕ} (hw : w < 65535) : keyOf w < keyOf (w + 1) := by
  rw [BitVec.lt_def]
  have hx : w / 2 ^ 8 < 256 := by omega
  have hsplit := keyOf_add hx (y := w % 2 ^ 8) (by omega)
  rw [Nat.div_add_mod] at hsplit
  have hlow := keyOf_low (w % 2 ^ 8) (by omega)
  by_cases hy : w % 2 ^ 8 < 255
  · have hnext := keyOf_add hx (y := w % 2 ^ 8 + 1) (by omega)
    rw [← Nat.add_assoc, Nat.div_add_mod] at hnext
    have := hlow.2 hy
    omega
  · have hhigh := (keyOf_high (w / 2 ^ 8) hx).2 (by omega)
    rw [show 2 ^ 8 * (w / 2 ^ 8 + 1) = w + 1 by omega] at hhigh
    omega

theorem keyOf_lt (hw : w < w') (hw' : w' < 65536) : keyOf w < keyOf w' := by
  induction hw with
  | refl => exact keyOf_succ (by omega)
  | step _ ih => exact BitVec.lt_trans (ih (by omega)) (keyOf_succ (by omega))

theorem keyOf_le_iff (hw : w < 65536) (hw' : w' < 65536) : keyOf w ≤ keyOf w' ↔ w ≤ w' := by
  constructor
  · intro hle
    by_contra hlt
    exact BitVec.not_le.mpr (keyOf_lt (Nat.lt_of_not_le hlt) hw) hle
  · intro hle
    rcases Nat.lt_or_eq_of_le hle with hlt | rfl
    · exact BitVec.le_of_lt (keyOf_lt hlt hw')
    · exact BitVec.le_refl _

theorem keyOf_inj (hw : w < 65536) (hw' : w' < 65536) (he : keyOf w = keyOf w') : w = w' :=
  Nat.le_antisymm ((keyOf_le_iff hw hw').mp (he ▸ BitVec.le_refl _)) ((keyOf_le_iff hw' hw).mp (he ▸ BitVec.le_refl _))

/-! ## The array -/

/-- The map is what the array says. -/
def Noted (ws : ℕ → Bool) (f : KMap) : Prop :=
  ∀ k v, f k = some v ↔ ∃ w < 65536, ws w = true ∧ k = keyOf w ∧ v = k.toNat

theorem Noted.index_of_bound (hn : Noted ws f) {k : Word} (hk : f k ≠ none) :
    ∃ w < 65536, ws w = true ∧ k = keyOf w := by
  obtain ⟨v, hv⟩ := Option.ne_none_iff_exists'.mp hk
  obtain ⟨w, hw, hset, he, -⟩ := (hn _ _).mp hv
  exact ⟨w, hw, hset, he⟩

theorem Noted.bound_iff (hn : Noted ws f) (hw : w < 65536) : f (keyOf w) ≠ none ↔ ws w = true := by
  constructor
  · intro hf
    obtain ⟨w', hw', hset, hk⟩ := hn.index_of_bound hf
    rwa [keyOf_inj hw hw' hk]
  · intro hset hf
    have hv := (hn (keyOf w) _).mpr ⟨w, hw, hset, rfl, rfl⟩
    rw [hf] at hv
    cases hv

theorem Noted.empty : Noted (fun _ => false) KMap.empty := by
  intro k v
  constructor
  · intro hk
    cases hk
  · rintro ⟨w, -, hset, -⟩
    cases hset

/-- What is noted of the other keys. -/
theorem noted_update_of_ne {b : Bool} {k : Word} {v : ℕ} (hk : k ≠ keyOf w) :
    (∃ w' < 65536, Function.update ws w b w' = true ∧ k = keyOf w' ∧ v = k.toNat) ↔
      ∃ w' < 65536, ws w' = true ∧ k = keyOf w' ∧ v = k.toNat := by
  refine exists_congr fun w' => and_congr_right fun _ => ?_
  by_cases he : w' = w
  · subst he
    simp [hk]
  · rw [Function.update_of_ne he]

theorem Noted.bind (hn : Noted ws f) (hw : w < 65536) :
    Noted (Function.update ws w true) (f.bind (keyOf w) (keyOf w).toNat) := by
  intro k v
  by_cases hk : k = keyOf w
  · subst hk
    rw [KMap.bind_self]
    constructor
    · rintro ⟨⟩
      exact ⟨w, hw, by simp, rfl, rfl⟩
    · rintro ⟨-, -, -, -, rfl⟩
      rfl
  · rw [KMap.bind_of_ne _ _ hk, hn k v, noted_update_of_ne hk]

theorem Noted.unbind (hn : Noted ws f) (hw : w < 65536) : Noted (Function.update ws w false) (f.unbind (keyOf w)) := by
  intro k v
  by_cases hk : k = keyOf w
  · subst hk
    rw [KMap.unbind_self]
    constructor
    · intro hv
      cases hv
    · rintro ⟨w', hw', hset, he, -⟩
      obtain rfl := keyOf_inj hw hw' he
      simp at hset
  · rw [KMap.unbind_of_ne _ hk, hn k v, noted_update_of_ne hk]

/-- Only the key 0 is bound to `NULL`. -/
theorem Noted.nullLeast (hn : Noted ws f) : f.NullLeast := by
  intro k hk k' _
  obtain ⟨-, -, -, -, h0⟩ := (hn _ _).mp hk
  have hzero : k = 0#64 := BitVec.eq_of_toNat_eq h0.symm
  rw [hzero]
  exact BitVec.le_def.mpr (Nat.zero_le _)

/-- The greatest index up to `w` that is set. -/
inductive LastSet (ws : ℕ → Bool) (w : ℕ) : Option ℕ → Prop
  | found {v : ℕ} (hle : v ≤ w) (hset : ws v = true) (hgap : ∀ v', v < v' → v' ≤ w → ws v' = false) :
      LastSet ws w (some v)
  | none (h : ∀ v' ≤ w, ws v' = false) : LastSet ws w none

theorem lastSet_spec (ws : ℕ → Bool) (w : ℕ) : LastSet ws w (lastSet ws w) := by
  induction w with
  | zero =>
      rw [lastSet]
      by_cases hset : ws 0 = true
      · rw [if_pos hset]
        exact .found le_rfl hset fun v' hlt hle => by omega
      · rw [if_neg hset]
        exact .none fun v' hle => by simpa [Nat.le_zero.mp hle] using hset
  | succ w ih =>
      rw [lastSet]
      by_cases hset : ws (w + 1) = true
      · rw [if_pos hset]
        exact .found le_rfl hset fun v' hlt hle => by omega
      · rw [if_neg hset]
        have hlast : ∀ v', v' ≤ w + 1 → v' ≤ w ∨ ws v' = false := by
          intro v' hle
          rcases Nat.le_succ_iff.mp hle with hle | rfl
          · exact Or.inl hle
          · exact Or.inr (by simpa using hset)
        generalize lastSet ws w = r at ih ⊢
        cases ih with
        | found hle hv hgap =>
            exact .found (Nat.le_succ_of_le hle) hv fun v' hlt hle' => (hlast v' hle').elim (hgap v' hlt) id
        | none h => exact .none fun v' hle => (hlast v' hle).elim (h v') id

/-- The search of the array finds the predecessor. -/
theorem Noted.leVal (hn : Noted ws f) (hw : w < 65536) :
    f.LeVal (keyOf w) ((lastSet ws w).elim 0 fun v => (keyOf v).toNat) := by
  have hspec := lastSet_spec ws w
  generalize lastSet ws w = r at hspec ⊢
  cases hspec with
  | none h =>
      refine .none fun k hk => ?_
      obtain ⟨w', hw', hset, rfl⟩ := hn.index_of_bound hk
      refine keyOf_lt (Nat.lt_of_not_le fun hle => ?_) hw'
      rw [h w' hle] at hset
      cases hset
  | @found v hle hset hgap =>
      have hv : v < 65536 := Nat.lt_of_le_of_lt hle hw
      refine .found (p := keyOf v) ⟨(hn.bound_iff hv).mpr hset, (keyOf_le_iff hv hw).mpr hle, ?_⟩
        ((hn _ _).mpr ⟨v, hv, hset, rfl, rfl⟩)
      intro k hk hkle
      obtain ⟨w', hw', hset', rfl⟩ := hn.index_of_bound hk
      refine (keyOf_le_iff hw' hv).mpr (Nat.le_of_not_lt fun hlt => ?_)
      rw [hgap w' hlt ((keyOf_le_iff hw' hw).mp hkle)] at hset'
      cases hset'

/-! ## The calls -/

/-- `find_le` returns what the array says. -/
theorem findLe_returns (hr : Refines Answers (Suits 2) h.call R) (hR : R m a) (hn : Noted ws a.map)
    (hc : a.removes < 2 ^ 64 - 16) (hw : w < 65536) :
    Returns (h.hmFindLe (keyOf w) m) ((lastSet ws w).elim 0 fun v => (keyOf v).toNat) := by
  have hsuits : Suits 2 a (.findLe (keyOf w)) := ⟨by decide, hc, hn.nullLeast⟩
  obtain ⟨r, m', a', hcall, hans, -⟩ := hr.step hR hsuits
  obtain ⟨v, hv, he⟩ := hcall.of_map_injective fun v v' he => by simpa using he
  cases hans with
  | findLe hle =>
      cases he
      rwa [← hle.unique (hn.leVal hw)]

/-- The array follows the structure. -/
theorem toggle_returns (hr : Refines Answers (Suits 2) h.call R) (hR : R m a) (hn : Noted ws a.map) (hw : w < 65536) :
    ∃ s a', Returns (toggle h ws m w) s ∧ R s.2 a' ∧ Noted s.1 a'.map ∧ a'.removes ≤ a.removes + 1 := by
  unfold toggle
  by_cases hset : ws w = true
  · have hsuits : Suits 2 a (.remove (keyOf w)) := (hn.bound_iff hw).mpr hset
    obtain ⟨r, m', a', hcall, hans, hR'⟩ := hr.step hR hsuits
    obtain ⟨s, hs, he⟩ := hcall.of_map_injective fun s s' he => by simpa [Prod.ext_iff] using he
    cases he
    simp only [if_pos hset]
    generalize Ret.value s.1 = r at hans
    cases hans
    exact ⟨_, _, hs.bind ⟨0, fun _ _ => rfl⟩, hR', hn.unbind hw, le_rfl⟩
  · have hsuits : Suits 2 a (.insert (keyOf w) (keyOf w).toNat) := fun h => absurd h (by decide)
    obtain ⟨r, m', a', hcall, hans, hR'⟩ := hr.step hR hsuits
    obtain ⟨s, hs, he⟩ := hcall.of_map_injective fun s s' he => by simpa [Prod.ext_iff] using he
    cases he
    simp only [if_neg hset]
    generalize Ret.errno s.1 = r at hans
    cases hans with
    | insert => exact ⟨_, _, hs.bind ⟨0, fun _ _ => rfl⟩, hR', hn.bind hw, Nat.le_succ _⟩
    | again hb => exact absurd ((hn.bound_iff hw).mp hb) hset

/-! ## The loops -/

theorem searches_returns (hr : Refines Answers (Suits 2) h.call R) (hR : R m a) (hn : Noted ws a.map)
    (hc : a.removes < 2 ^ 64 - 16) (n d : ℕ) : Returns (fun fuel => searches h mrand48 ws m fuel n d) true := by
  induction n generalizing d with
  | zero => exact ⟨0, fun _ _ => rfl⟩
  | succ n ih =>
      have hfind := findLe_returns hr hR hn hc (index_lt (mrand48 d))
      refine hfind.bind (y := fun res fuel => if res = _ then searches h mrand48 ws m fuel n (d + 1) else pure false) ?_
      simpa only [if_true] using ih (d + 1)

theorem rounds_returns (hr : Refines Answers (Suits 2) h.call R) (hR : R m a) (hn : Noted ws a.map)
    (hc : a.removes + n < 2 ^ 64 - 16) (d : ℕ) : Returns (fun fuel => rounds h mrand48 fuel n d ws m) true := by
  induction n generalizing d ws m a with
  | zero => exact ⟨0, fun _ _ => rfl⟩
  | succ n ih =>
      obtain ⟨s, a', hs, hR', hn', hle⟩ := toggle_returns hr hR hn (index_lt (mrand48 d))
      have hsearches : Returns (fun fuel => searches h mrand48 s.1 s.2 fuel 1024 (d + 1)) true :=
        searches_returns hr hR' hn' (by omega) 1024 (d + 1)
      refine hs.bind (hsearches.bind ?_)
      exact ih hR' hn' (by omega) (d + 1025)

/-- Whatever numbers are drawn and whatever is on the heap, the test passes with every implementation that it is run
with. -/
theorem testLeBrute_passes (i : Fin 4) (hreq : (hms i).hmImmutable &&& 2 = 0) (heap : (hms i).Heap)
    (mrand48 : ℕ → Word) : Returns (testLeBrute (hms i) heap mrand48) true := by
  obtain ⟨R, hr, hR⟩ := hms_refine i hreq heap
  exact rounds_returns hr hR .empty (by decide) 0

theorem testLeBrute_passes_critnib : Returns
    (testLeBrute (hms 2) (fun _ => ⟨fun _ => .null, 0, 0⟩, fun _ => ⟨0, 0⟩) fun n => BitVec.ofNat 64 (7 * n)) true :=
  testLeBrute_passes 2 rfl _ _

end Ptok.Corr
