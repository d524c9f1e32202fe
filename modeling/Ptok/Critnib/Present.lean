import Ptok.Critnib.Theorems

/-!
# The two lookups of a bound key

`find_le` takes a `NULL` it finds for an empty subtree and goes on to the left. So `critnib_get` and `critnib_find_le`
agree on a key that is bound to anything else; on a key that is bound to `NULL` they agree if all keys to which the
search falls back are bound to `NULL` too.
-/

namespace Ptok.Critnib

open Lib

/-- Both have the same leading slices in common with `key`. -/
def LeaveTogether (key z z' : Word) : Prop := ∀ p, nibs.Agree p z key ↔ nibs.Agree p z' key

/-- The greatest bound key below `key` among those that leave it at one place. -/
structure Fallback (f : KMap) (key z : Word) : Prop where
  bound : f z ≠ none
  lt : z < key
  greatest : ∀ z', f z' ≠ none → z' < key → LeaveTogether key z z' → z' ≤ z

/-- Its leaf. -/
structure IsFallback (t : T) (key : Word) (l : Leaf) : Prop where
  has : t.Has l
  lt : l.key < key
  greatest : ∀ l', t.Has l' → l'.key < key → LeaveTogether key l.key l'.key → l'.key ≤ l.key

/-! ## At a node of the key -/

section

variable {p : Ptr} {n : Hdr} {c : Fin 16 → T} {b : ℕ} {key : Word} {l l' : Leaf}

theorem leVal_inside (hfit : nibs.Fits (.node p n c) b) (hag : nibs.Agree (nibs.pos n) n.path key) :
    T.leVal key (.node p n c) = if T.leVal key (c (nibs.dig key (nibs.pos n))) ≠ NULL
      then T.leVal key (c (nibs.dig key (nibs.pos n)))
      else (leftLast c (nibs.dig key (nibs.pos n))).elim NULL (·.value) := by
  have hxor := xor_shift_and_eq_zero_iff key n.path n.shift
  rw [← agree_pos_iff hfit.1] at hxor
  rw [T.leVal, if_neg (not_not.mpr (hxor.mpr hag)), ← dig_pos hfit.1]

/-- The rightmost leaf on the left of a slot. -/
theorem leftLast_some (hfit : nibs.Fits (.node p n c) b) (hbr : ∀ i, Coding.Branching (c i)) {i : Fin 16}
    (h : leftLast c i = some l) :
    (∃ j < i, (c j).Has l) ∧ ∀ j < i, ∀ l', (c j).Has l' → l'.key ≤ l.key := by
  obtain ⟨j, hj, hl, hgap⟩ := findSome?_greatest (nibsLeft_falling _) h
  have hj := mem_nibsLeft.mp hj
  have hmax := T.last_isMax (hfit.2.2.2.2 j) (hbr j) hl
  refine ⟨⟨j, hj, hmax.has⟩, fun j' hj' l' hl' => ?_⟩
  rcases lt_trichotomy j' j with hlt | rfl | hlt
  · exact BitVec.le_of_lt (lt_of_child_lt hfit hl' hmax.has hlt)
  · exact hmax.le l' hl'
  · rw [(T.last_eq_none (hbr j')).mp (hgap j' (mem_nibsLeft.mpr hj') hlt)] at hl'
    exact hl'.elim

theorem leftLast_none (hbr : ∀ i, Coding.Branching (c i)) {i : Fin 16} (h : leftLast c i = none) {j : Fin 16}
    (hj : j < i) (l : Leaf) : ¬ (c j).Has l := by
  intro hl
  rw [(T.last_eq_none (hbr j)).mp (List.findSome?_eq_none_iff.mp h j (mem_nibsLeft.mpr hj))] at hl
  exact hl

/-- Keys in other children than the key's own leave it at this node. -/
theorem agree_iff_of_ne (hfit : nibs.Fits (.node p n c) b) (hag : nibs.Agree (nibs.pos n) n.path key) {j : Fin 16}
    (hl : (c j).Has l) (hj : j ≠ nibs.dig key (nibs.pos n)) (q : ℕ) : nibs.Agree q l.key key ↔ q ≤ nibs.pos n := by
  obtain ⟨hpath, hd⟩ := hfit.2.2.2.1 j l hl
  have hne : nibs.dig l.key (nibs.pos n) ≠ nibs.dig key (nibs.pos n) := by
    rw [← nibs_key, hd]
    exact hj
  exact ⟨Coding.le_of_agree hne, fun hq => (hpath.symm.trans hag).mono hq⟩

theorem agree_of_self (hfit : nibs.Fits (.node p n c) b) (hag : nibs.Agree (nibs.pos n) n.path key)
    (hl : (c (nibs.dig key (nibs.pos n))).Has l) : nibs.Agree (nibs.pos n + 1) l.key key := by
  obtain ⟨hpath, hd⟩ := hfit.2.2.2.1 _ l hl
  exact (hpath.symm.trans hag).succ hd

/-- The search falls back to the keys below the key's own child, and to the rightmost one on its left. -/
theorem isFallback_node (hfit : nibs.Fits (.node p n c) b) (hbr : ∀ i, Coding.Branching (c i))
    (hag : nibs.Agree (nibs.pos n) n.path key) : IsFallback (.node p n c) key l ↔
      IsFallback (c (nibs.dig key (nibs.pos n))) key l ∨ leftLast c (nibs.dig key (nibs.pos n)) = some l := by
  have hapart : ∀ {j l l'}, (c (nibs.dig key (nibs.pos n))).Has l → (c j).Has l' → j ≠ nibs.dig key (nibs.pos n) →
      ¬ LeaveTogether key l.key l'.key ∧ ¬ LeaveTogether key l'.key l.key := by
    intro j l l' hl hl' hj
    have hself := agree_of_self hfit hag hl
    have hother := agree_iff_of_ne hfit hag hl' hj (nibs.pos n + 1)
    have hnot : ¬ nibs.Agree (nibs.pos n + 1) l'.key key := fun h => absurd (hother.mp h) (by omega)
    exact ⟨fun h => hnot ((h _).mp hself), fun h => hnot ((h _).mpr hself)⟩
  constructor
  · rintro ⟨⟨j, hl⟩, hlt, hgreat⟩
    rcases lt_trichotomy j (nibs.dig key (nibs.pos n)) with hj | rfl | hj
    · right
      cases hleft : leftLast c (nibs.dig key (nibs.pos n)) with
      | none => exact absurd hl (leftLast_none hbr hleft hj l)
      | some l₀ =>
          obtain ⟨⟨j₀, hj₀, hl₀⟩, hmax⟩ := leftLast_some hfit hbr hleft
          have htog : LeaveTogether key l.key l₀.key := fun q => by
            rw [agree_iff_of_ne hfit hag hl hj.ne, agree_iff_of_ne hfit hag hl₀ hj₀.ne]
          have hle := hgreat l₀ ⟨j₀, hl₀⟩ (lt_key_of_lt hfit hag hl₀ hj₀) htog
          have hkey := BitVec.le_antisymm hle (hmax j hj l hl)
          rw [Coding.has_unique hfit.routed ⟨j₀, hl₀⟩ ⟨j, hl⟩ hkey]
    · exact Or.inl ⟨hl, hlt, fun l' hl' => hgreat l' ⟨_, hl'⟩⟩
    · exact absurd hlt (BitVec.not_lt.mpr (BitVec.le_of_lt (key_lt_of_lt hfit hag hl hj)))
  · rintro (⟨hl, hlt, hgreat⟩ | hleft)
    · refine ⟨⟨_, hl⟩, hlt, ?_⟩
      rintro l' ⟨j, hl'⟩ hlt' htog
      by_cases hj : j = nibs.dig key (nibs.pos n)
      · subst hj
        exact hgreat l' hl' hlt' htog
      · exact absurd htog (hapart hl hl' hj).1
    · obtain ⟨⟨j, hj, hl⟩, hmax⟩ := leftLast_some hfit hbr hleft
      refine ⟨⟨j, hl⟩, lt_key_of_lt hfit hag hl hj, ?_⟩
      rintro l' ⟨j', hl'⟩ hlt' htog
      rcases lt_trichotomy j' (nibs.dig key (nibs.pos n)) with hj' | rfl | hj'
      · exact hmax j' hj' l' hl'
      · exact absurd htog (hapart hl' hl hj.ne).2
      · exact absurd hlt' (BitVec.not_lt.mpr (BitVec.le_of_lt (key_lt_of_lt hfit hag hl' hj')))

end

/-! ## The search -/

variable {t : T} {b : ℕ} {key : Word}

theorem leVal_of_has (hfit : nibs.Fits t b) {l : Leaf} (hl : t.Has l) (hval : l.value ≠ NULL) : t.leVal l.key = l.value := by
  induction t generalizing b with
  | nil => exact hl.elim
  | leaf p l' =>
      obtain rfl : l' = l := hl
      exact if_pos (BitVec.le_refl _)
  | node p n c ih =>
      obtain ⟨i, hl⟩ := hl
      obtain ⟨hag, hd⟩ := hfit.2.2.2.1 i l hl
      rw [nibs_key] at hag hd
      subst hd
      rw [leVal_inside hfit hag, ih _ (hfit.2.2.2.2 _) hl, if_pos hval]

/-- It returns `NULL` for a key that is bound to `NULL` if it finds nothing else on its way back. -/
theorem leVal_eq_null_iff (hfit : nibs.Fits t b) (hbr : Coding.Branching t) (hl : t.Has ⟨key, NULL⟩) :
    t.leVal key = NULL ↔ ∀ l, IsFallback t key l → l.value = NULL := by
  induction t generalizing b with
  | nil => exact hl.elim
  | leaf p l =>
      obtain rfl : l = ⟨key, NULL⟩ := hl
      refine iff_of_true (if_pos (BitVec.le_refl _)) fun l hf => ?_
      obtain rfl : ⟨key, NULL⟩ = l := hf.has
      rfl
  | node p n c ih =>
      obtain ⟨i, hl⟩ := hl
      obtain ⟨hag, hd⟩ := hfit.2.2.2.1 i _ hl
      have hag : nibs.Agree (nibs.pos n) n.path key := hag
      have hd : nibs.dig key (nibs.pos n) = i := hd
      subst hd
      have ih := ih _ (hfit.2.2.2.2 _) (hbr.2 _) hl
      rw [leVal_inside hfit hag]
      constructor
      · intro h l hf
        split at h
        · exact absurd h ‹_›
        · rcases (isFallback_node hfit hbr.2 hag).mp hf with hf | hf
          · exact ih.mp (not_not.mp ‹_›) l hf
          · rwa [hf] at h
      · intro h
        have hself := ih.mpr fun l hf => h l ((isFallback_node hfit hbr.2 hag).mpr (Or.inl hf))
        rw [if_neg (not_not.mpr hself)]
        cases hleft : leftLast c (nibs.dig key (nibs.pos n)) with
        | none => rfl
        | some l => exact h l ((isFallback_node hfit hbr.2 hag).mpr (Or.inr hleft))

theorem isFallback_iff (ht : nibs.Routed t) :
    (∀ l, IsFallback t key l → l.value = NULL) ↔ ∀ z, Fallback t.map key z → t.map z = some NULL := by
  constructor
  · rintro h z ⟨hz, hlt, hgreat⟩
    obtain ⟨l, hl, rfl⟩ := (T.map_ne_none ht).mp hz
    have hnull := h l ⟨hl, hlt, fun l' hl' hlt' htog => hgreat l'.key ((T.map_ne_none ht).mpr ⟨l', hl', rfl⟩) hlt' htog⟩
    exact (T.map_eq_some ht).mpr ⟨l, hl, rfl, hnull⟩
  · rintro h l ⟨hl, hlt, hgreat⟩
    have hz := h l.key ⟨(T.map_ne_none ht).mpr ⟨l, hl, rfl⟩, hlt, fun z' hz' hlt' htog => ?_⟩
    · obtain ⟨l', hl', hk, hv⟩ := (T.map_eq_some ht).mp hz
      rw [← Coding.has_unique ht hl' hl hk, hv]
    · obtain ⟨l', hl', rfl⟩ := (T.map_ne_none ht).mp hz'
      exact hgreat l' hl' hlt' htog

/-! ## Both lookups -/

/-- They return, and they return the same. -/
def LookupsAgree (m : Mem) (key : Word) : Prop :=
  ∃ u, Returns (fun fuel => (critnibGet key fuel).eval m.load) u ∧
    Returns (fun fuel => (critnibFindLe key fuel).eval m.load) u

theorem Quiet.lookups_iff {m : Mem} {g : Ghost} (h : Quiet m g) {v : ℕ} (hv : g.tree.map key = some v) :
    LookupsAgree m key ↔ m.removeCount.toNat < 2 ^ 64 - 16 ∧
      (v ≠ NULL ∨ ∀ z, Fallback g.tree.map key z → g.tree.map z = some NULL) := by
  obtain ⟨hget, hdiv⟩ := critnibGet_eval h.toInv key
  obtain ⟨hle, -⟩ := critnibFindLe_eval h.toInv h.wf.branching key
  rw [KMap.val, hv] at hget
  obtain ⟨l, hl, rfl, rfl⟩ := (T.map_eq_some h.fits.routed).mp hv
  have hval : T.leVal l.key g.tree = l.value ↔
      l.value ≠ NULL ∨ ∀ z, Fallback g.tree.map l.key z → g.tree.map z = some NULL := by
    by_cases hnull : l.value = NULL
    · have hl' : g.tree.Has ⟨l.key, NULL⟩ := hnull ▸ hl
      rw [hnull, leVal_eq_null_iff h.fits h.wf.branching hl', isFallback_iff h.fits.routed]
      simp
    · exact iff_of_true (leVal_of_has h.fits hl hnull) (Or.inl hnull)
  constructor
  · rintro ⟨u, hu, hu'⟩
    have hc : m.removeCount.toNat < 2 ^ 64 - 16 := by
      by_contra hc
      exact (hdiv (not_lt.mp hc)).not_returns _ hu
    refine ⟨hc, hval.mp ?_⟩
    exact ((hle hc).unique hu').trans (hu.unique (hget hc))
  · rintro ⟨hc, hor⟩
    exact ⟨_, hget hc, hval.mpr hor ▸ hle hc⟩

/-- `critnib_get` and `critnib_find_le` agree on a bound key, whatever the values, exactly if they are called in time and
the key's value is not `NULL`, or only `NULL` is found to the left. -/
theorem critnib_lookups_agree_iff {ok : ℕ → Bool} {ops : List Op} {m : Mem} {f : KMap} (h : Reached ok ops m f) {v : ℕ}
    (hv : f key = some v) : LookupsAgree m key ↔
      m.removeCount.toNat < 2 ^ 64 - 16 ∧ (v ≠ NULL ∨ ∀ z, Fallback f key z → f z = some NULL) := by
  obtain ⟨g, hq, rfl⟩ := h.quiet
  exact hq.lookups_iff hv

theorem critnib_lookups_agree_iff_single : LookupsAgree (single 5 0) 5 ↔ (single 5 0).removeCount.toNat < 2 ^ 64 - 16 ∧
    (0 ≠ NULL ∨ ∀ z, Fallback (KMap.empty.bind 5 0) 5 z → KMap.empty.bind 5 0 z = some NULL) :=
  critnib_lookups_agree_iff (single_reached 5 0) (by simp)

/-- `critnib_insert(c, 1, 10)` and `critnib_insert(c, 2, NULL)`: a get of 2 returns `NULL`, a search from 2 returns 10. -/
theorem critnib_lookups_differ : ∃ m f, Reached (fun _ => true) [.insert 1 10, .insert 2 0] m f ∧ f 2 = some NULL ∧
    ¬ LookupsAgree m 2 := by
  obtain ⟨g, hq, hmap⟩ := (single_reached 1 10).quiet
  obtain ⟨r, m', g', hr, hq', -, hans, hall⟩ := insert_returns hq (fun _ => true) 2 0
  obtain ⟨hl, hn⟩ := hall fun _ => rfl
  rw [hl, hn, hmap] at hans
  have hmap' : g'.tree.map = (KMap.empty.bind 1 10).bind 2 0 ∧ r = .errno .ok := by
    generalize g'.tree.map = f' at hans
    cases hans with
    | noLeaf hl => cases hl
    | bound _ hb => exact absurd (KMap.bind_of_ne _ _ (by decide)) hb
    | noNode _ _ hn => cases hn
    | bind => exact ⟨rfl, rfl⟩
  obtain ⟨hmap', rfl⟩ := hmap'
  refine ⟨m', _, (single_reached 1 10).call hr, by simp [effect], ?_⟩
  rw [hq'.lookups_iff (v := NULL) (by rw [hmap']; simp), hmap']
  rintro ⟨-, hc | hc⟩
  · exact hc rfl
  · have hone : (KMap.empty.bind 1 10).bind 2 0 1 = some 10 := by
      rw [KMap.bind_of_ne _ _ (by decide), KMap.bind_self]
    have hfall := hc 1 ⟨fun hn => Option.some_ne_none _ (hone.symm.trans hn), by decide, fun z' hz' hlt _ => ?_⟩
    · cases hone.symm.trans hfall
    · by_contra hgt
      refine hz' ?_
      rw [KMap.bind_of_ne _ _ (BitVec.ne_of_lt hlt), KMap.bind_of_ne]
      · rfl
      · rintro rfl
        exact hgt (BitVec.le_refl _)

end Ptok.Critnib
