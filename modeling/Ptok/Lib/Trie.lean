import Ptok.Lib.Tree

/-!
# Compressed tries

Keys are strings of digits. A node of the trie stands at one digit position and has one subtree for each value of
that digit; positions at which all keys below agree have no node. `Coding.WF` is what the nodes promise about the
keys below them. Insertion and removal are replacements of a subtree (`Tree.plug`), and they keep the promise.
-/

namespace Ptok.Lib

/-- How keys are cut into digits, and what is stored about them in nodes and leaves. -/
structure Coding (K D N L : Type) where
  /-- the number of digits -/
  len : ℕ
  dig : K → ℕ → D
  ext : ∀ k k', (∀ q < len, dig k q = dig k' q) → k = k'
  /-- the node's payload is one the code can have written -/
  ok : N → Prop
  /-- the position of the digit a node branches on -/
  pos : N → ℕ
  /-- a key that agrees with all keys below the node up to that position -/
  path : N → K
  key : L → K

namespace Coding

variable {K D N L P : Type} (S : Coding K D N L)

/-- The keys agree on all digits before position `p`. -/
def Agree (p : ℕ) (k k' : K) : Prop := ∀ q < p, S.dig k q = S.dig k' q

variable {S}

theorem Agree.symm {p : ℕ} {k k' : K} (h : S.Agree p k k') : S.Agree p k' k := fun q hq => (h q hq).symm

theorem Agree.trans {p : ℕ} {k k' k'' : K} (h : S.Agree p k k') (h' : S.Agree p k' k'') : S.Agree p k k'' :=
  fun q hq => (h q hq).trans (h' q hq)

theorem Agree.mono {p p' : ℕ} {k k' : K} (h : S.Agree p' k k') (hp : p ≤ p') : S.Agree p k k' :=
  fun q hq => h q (by omega)

theorem Agree.succ {p : ℕ} {k k' : K} (h : S.Agree p k k') (hd : S.dig k p = S.dig k' p) :
    S.Agree (p + 1) k k' := by
  intro q hq
  rcases Nat.lt_succ_iff_lt_or_eq.mp hq with hlt | rfl
  · exact h q hlt
  · exact hd

theorem Agree.eq {k k' : K} (h : S.Agree S.len k k') : k = k' := S.ext k k' h

/-- A position of first difference comes before any position up to which the keys disagree. -/
theorem lt_of_not_agree {p q : ℕ} {k k' : K} (hq : S.Agree q k k') (h : ¬ S.Agree p k k') : q < p := by
  by_contra hle
  exact h (hq.mono (by omega))

theorem le_of_agree {p q : ℕ} {k k' : K} (hq : S.dig k q ≠ S.dig k' q) (h : S.Agree p k k') : p ≤ q := by
  by_contra hlt
  exact hq (h q (by omega))

variable (S)

/-- The leaf for key `k`, found by looking at nothing but the digits of `k`. -/
def get [DecidableEq K] (k : K) : Tree P L N D → Option L
  | .nil => none
  | .leaf _ l => if S.key l = k then some l else none
  | .node _ n c => get k (c (S.dig k (S.pos n)))

/-- Every key is below the child its digit selects. -/
def Routed : Tree P L N D → Prop
  | .nil => True
  | .leaf _ _ => True
  | .node _ n c => ∀ i, (∀ l, (c i).Has l → S.dig (S.key l) (S.pos n) = i) ∧ Routed (c i)

/-- What the nodes at position `b` or later promise about the keys below them. -/
def Fits : Tree P L N D → ℕ → Prop
  | .nil, _ => True
  | .leaf _ _, _ => True
  | .node _ n c, b =>
    S.ok n ∧ b ≤ S.pos n ∧ S.pos n < S.len ∧
      (∀ i l, (c i).Has l → S.Agree (S.pos n) (S.path n) (S.key l) ∧ S.dig (S.key l) (S.pos n) = i) ∧
      ∀ i, Fits (c i) (S.pos n + 1)

/-- Every node has two children. Between the stores of a removal one node has a single child. -/
def Branching : Tree P L N D → Prop
  | .nil => True
  | .leaf _ _ => True
  | .node _ _ c => (∃ i j, i ≠ j ∧ c i ≠ .nil ∧ c j ≠ .nil) ∧ ∀ i, Branching (c i)

/-- A compressed trie. -/
structure WF (t : Tree P L N D) (b : ℕ) : Prop where
  fits : S.Fits t b
  branching : Branching t

variable {S}

theorem Fits.mono {t : Tree P L N D} {b b' : ℕ} (h : S.Fits t b') (hb : b ≤ b') : S.Fits t b := by
  cases t with
  | nil => trivial
  | leaf p l => trivial
  | node p n c => exact ⟨h.1, by have := h.2.1; omega, h.2.2⟩

theorem Fits.routed {t : Tree P L N D} {b : ℕ} (h : S.Fits t b) : S.Routed t := by
  induction t generalizing b with
  | nil => trivial
  | leaf p l => trivial
  | node p n c ih =>
      obtain ⟨-, -, -, hk, hc⟩ := h
      exact fun i => ⟨fun l hl => (hk i l hl).2, ih i (hc i)⟩

theorem WF.routed {t : Tree P L N D} {b : ℕ} (h : S.WF t b) : S.Routed t := h.fits.routed

/-- A tree whose nodes branch has a leaf unless it is empty. -/
theorem Branching.exists_has {t : Tree P L N D} (h : Branching t) (hne : t ≠ .nil) : ∃ l, t.Has l := by
  induction t with
  | nil => exact absurd rfl hne
  | leaf p l => exact ⟨l, rfl⟩
  | node p n c ih =>
      obtain ⟨⟨i, -, -, hi, -⟩, hc⟩ := h
      obtain ⟨l, hl⟩ := ih i (hc i) hi
      exact ⟨l, i, hl⟩

theorem Fits.height_le [Fintype D] {t : Tree P L N D} {b : ℕ} (h : S.Fits t b) : t.height ≤ S.len - b := by
  induction t generalizing b with
  | nil => exact Nat.zero_le _
  | leaf p l => exact Nat.zero_le _
  | node p n c ih =>
      obtain ⟨-, hb, hlen, -, hc⟩ := h
      have hsup : (Finset.univ.sup fun i => (c i).height) ≤ S.len - (S.pos n + 1) :=
        Finset.sup_le fun i _ => ih i (hc i)
      simp only [Tree.height]
      omega

theorem Fits.sub {u t : Tree P L N D} (hu : Tree.Sub u t) {b : ℕ} (h : S.Fits t b) : ∃ b', b ≤ b' ∧ S.Fits u b' := by
  induction hu generalizing b with
  | refl => exact ⟨b, le_rfl, h⟩
  | child _ ih =>
      obtain ⟨b', hb, hf⟩ := ih (h.2.2.2.2 _)
      exact ⟨b', by have := h.2.1; omega, hf⟩

theorem Branching.sub {u t : Tree P L N D} (hu : Tree.Sub u t) (h : Branching t) : Branching u := by
  induction hu with
  | refl => exact h
  | child _ ih => exact ih (h.2 _)

/-- Every node has a leaf below it. This is what is left of `Branching` between the stores of a removal. -/
def Fed : Tree P L N D → Prop
  | .nil => True
  | .leaf _ _ => True
  | .node _ _ c => (∃ i l, (c i).Has l) ∧ ∀ i, Fed (c i)

theorem Fed.exists_has {t : Tree P L N D} (h : Fed t) (hne : t ≠ .nil) : ∃ l, t.Has l := by
  cases t with
  | nil => exact absurd rfl hne
  | leaf p l => exact ⟨l, rfl⟩
  | node p n c =>
      obtain ⟨i, l, hl⟩ := h.1
      exact ⟨l, i, hl⟩

theorem Fed.sub {u t : Tree P L N D} (hu : Tree.Sub u t) (h : Fed t) : Fed u := by
  induction hu with
  | refl => exact h
  | child _ ih => exact ih (h.2 _)

theorem Branching.fed {t : Tree P L N D} (h : Branching t) : Fed t := by
  induction t with
  | nil => trivial
  | leaf p l => trivial
  | node p n c ih =>
      obtain ⟨⟨i, -, -, hi, -⟩, hc⟩ := h
      obtain ⟨l, hl⟩ := (hc i).exists_has hi
      exact ⟨⟨i, l, hl⟩, fun j => ih j (hc j)⟩

/-- A leaf whose key agrees with a node is below that node. -/
theorem Fits.has_of_agree {p : P} {n : N} {c : D → Tree P L N D} {t : Tree P L N D} {b : ℕ} (h : S.Fits t b)
    (hu : Tree.Sub (.node p n c) t) (hfed : Fed (.node p n c)) {l : L} (hl : t.Has l)
    (hag : S.Agree (S.pos n) (S.path n) (S.key l)) : (Tree.node p n c).Has l := by
  generalize he : Tree.node p n c = u at hu hfed
  induction hu generalizing b with
  | refl => exact hl
  | @child p' n' c' i hu ih =>
      obtain ⟨-, -, -, hkeys, hc⟩ := h
      obtain ⟨j, hj⟩ := hl
      have hij : j = i := by
        -- a leaf below the node has the same digit
        obtain ⟨b', hb, hfit⟩ := (hc i).sub hu
        subst he
        obtain ⟨i₀, l₀, hl₀⟩ := hfed.1
        have hlt : S.pos n' < S.pos n := by
          have := hfit.2.1
          omega
        have hag₀ := (hfit.2.2.2.1 i₀ l₀ hl₀).1
        rw [← (hkeys j l hj).2, ← (hkeys i l₀ (hu.has ⟨i₀, hl₀⟩)).2]
        exact (hag.symm.trans hag₀) _ hlt
      subst hij
      exact ih (hc j) hj

/-! ## Lookup -/

theorem get_eq_some [DecidableEq K] {t : Tree P L N D} (ht : S.Routed t) {k : K} {l : L} :
    S.get k t = some l ↔ t.Has l ∧ S.key l = k := by
  induction t with
  | nil => simp [get]
  | leaf p l' =>
      simp only [get, Tree.has_leaf]
      constructor
      · intro h
        split at h
        · cases h; exact ⟨rfl, ‹_›⟩
        · cases h
      · rintro ⟨rfl, hk⟩
        simp [hk]
  | node p n c ih =>
      simp only [get]
      rw [ih _ (ht _).2]
      constructor
      · rintro ⟨hl, hk⟩
        exact ⟨⟨_, hl⟩, hk⟩
      · rintro ⟨⟨i, hl⟩, rfl⟩
        rw [(ht i).1 l hl]
        exact ⟨hl, rfl⟩

theorem get_eq_none [DecidableEq K] {t : Tree P L N D} (ht : S.Routed t) {k : K} :
    S.get k t = none ↔ ∀ l, t.Has l → S.key l ≠ k := by
  rw [Option.eq_none_iff_forall_ne_some]
  constructor
  · intro h l hl hk
    exact h l ((get_eq_some ht).mpr ⟨hl, hk⟩)
  · intro h l hl
    obtain ⟨hl, hk⟩ := (get_eq_some ht).mp hl
    exact h l hl hk

/-- There is one leaf for a key. -/
theorem has_unique {t : Tree P L N D} (ht : S.Routed t) {l l' : L} (hl : t.Has l) (hl' : t.Has l')
    (hk : S.key l = S.key l') : l = l' := by
  classical
  have h := (get_eq_some ht).mpr ⟨hl, hk⟩
  have h' := (get_eq_some ht).mpr ⟨hl', rfl⟩
  exact Option.some.inj (h.symm.trans h')

/-! ## The map of a trie -/

section Map

variable [DecidableEq K] (S)

/-- What a trie stands for, if `val` is the value in a leaf. -/
def mapOf {V : Type} (val : L → V) (t : Tree P L N D) : K → Option V := fun k => (S.get k t).map val

variable {S} {V : Type} {val : L → V} {t t' : Tree P L N D}

theorem mapOf_eq_some (ht : S.Routed t) {k : K} {v : V} :
    S.mapOf val t k = some v ↔ ∃ l, t.Has l ∧ S.key l = k ∧ val l = v := by
  simp only [mapOf, Option.map_eq_some_iff, get_eq_some ht, and_assoc]

theorem mapOf_ne_none (ht : S.Routed t) {k : K} : S.mapOf val t k ≠ none ↔ ∃ l, t.Has l ∧ S.key l = k := by
  rw [Option.ne_none_iff_exists']
  constructor
  · rintro ⟨v, h⟩
    obtain ⟨l, hl, hk, -⟩ := (mapOf_eq_some ht).mp h
    exact ⟨l, hl, hk⟩
  · rintro ⟨l, hl, hk⟩
    exact ⟨val l, (mapOf_eq_some ht).mpr ⟨l, hl, hk, rfl⟩⟩

/-- A trie with the same leaves. -/
theorem mapOf_congr (ht : S.Routed t) (ht' : S.Routed t') (h : ∀ l, t'.Has l ↔ t.Has l) :
    S.mapOf val t' = S.mapOf val t := by
  funext k
  refine Option.ext fun v => ?_
  rw [mapOf_eq_some ht', mapOf_eq_some ht]
  exact exists_congr fun l => by rw [h l]

/-- A trie with one more leaf. -/
theorem mapOf_update (ht : S.Routed t) (ht' : S.Routed t') {l : L} (h : ∀ l', t'.Has l' ↔ l' = l ∨ t.Has l') :
    S.mapOf val t' = Function.update (S.mapOf val t) (S.key l) (some (val l)) := by
  funext k
  refine Option.ext fun v => ?_
  by_cases hk : k = S.key l
  · subst hk
    rw [Function.update_self, Option.some_inj, mapOf_eq_some ht']
    constructor
    · rintro ⟨l', hl', hk, rfl⟩
      rw [has_unique ht' hl' ((h l).mpr (Or.inl rfl)) hk]
    · rintro rfl
      exact ⟨l, (h l).mpr (Or.inl rfl), rfl, rfl⟩
  · rw [Function.update_of_ne hk, mapOf_eq_some ht', mapOf_eq_some ht]
    refine exists_congr fun l' => and_congr_left fun hl' => ?_
    rw [h l', or_iff_right]
    rintro rfl
    exact hk hl'.1.symm

/-- A trie with one leaf less. -/
theorem mapOf_erase (ht : S.Routed t) (ht' : S.Routed t') {k₀ : K} (h : ∀ l, t'.Has l ↔ t.Has l ∧ S.key l ≠ k₀) :
    S.mapOf val t' = Function.update (S.mapOf val t) k₀ none := by
  funext k
  refine Option.ext fun v => ?_
  by_cases hk : k = k₀
  · subst hk
    rw [Function.update_self, mapOf_eq_some ht']
    refine iff_of_false ?_ (by simp)
    rintro ⟨l, hl, hk, -⟩
    exact ((h l).mp hl).2 hk
  · rw [Function.update_of_ne hk, mapOf_eq_some ht', mapOf_eq_some ht]
    refine exists_congr fun l => and_congr_left fun hl => ?_
    rw [h l, and_iff_left]
    rw [hl.1]
    exact hk

/-- Tries of one map have the same leaves, if a leaf is its key and its value. -/
theorem has_iff_of_mapOf_eq (hval : ∀ l l', S.key l = S.key l' → val l = val l' → l = l') (ht : S.Routed t)
    (ht' : S.Routed t') (h : S.mapOf val t = S.mapOf val t') (l : L) : t.Has l ↔ t'.Has l := by
  have himp : ∀ {t t' : Tree P L N D}, S.Routed t → S.Routed t' → S.mapOf val t = S.mapOf val t' → t.Has l →
      t'.Has l := by
    intro t t' ht ht' h hl
    have hm := (mapOf_eq_some ht).mpr ⟨l, hl, rfl, (rfl : val l = val l)⟩
    rw [h] at hm
    obtain ⟨l', hl', hk, hv⟩ := (mapOf_eq_some ht').mp hm
    exact hval l' l hk hv ▸ hl'
  exact ⟨himp ht ht' h, himp ht' ht h.symm⟩

end Map

/-! ## What a subtree has in common -/

variable (S)

/-- A key that agrees with all keys of a tree before position `posOf`. -/
def pathOf (k₀ : K) : Tree P L N D → K
  | .nil => k₀
  | .leaf _ l => S.key l
  | .node _ n _ => S.path n

def posOf : Tree P L N D → ℕ
  | .node _ n _ => S.pos n
  | _ => S.len

variable {S}

theorem Fits.agree_pathOf {t : Tree P L N D} {b : ℕ} (h : S.Fits t b) {l : L} (hl : t.Has l) (k₀ : K) :
    S.Agree (S.posOf t) (S.pathOf k₀ t) (S.key l) := by
  cases t with
  | nil => exact hl.elim
  | leaf p l' => cases hl; exact fun q _ => rfl
  | node p n c =>
      obtain ⟨i, hl⟩ := hl
      exact (h.2.2.2.1 i l hl).1

theorem Fits.of_lt_posOf {t : Tree P L N D} {b q : ℕ} (h : S.Fits t b) (hq : q < S.posOf t) :
    S.Fits t (q + 1) := by
  cases t with
  | nil => trivial
  | leaf p l => trivial
  | node p n c => exact ⟨h.1, hq, h.2.2⟩

/-! ## Canonical form -/

theorem Fits.has_child_iff {p : P} {n : N} {c : D → Tree P L N D} {b : ℕ} (h : S.Fits (.node p n c) b) (i : D)
    (l : L) : (c i).Has l ↔ (Tree.node p n c).Has l ∧ S.dig (S.key l) (S.pos n) = i := by
  constructor
  · exact fun hl => ⟨⟨i, hl⟩, (h.2.2.2.1 i l hl).2⟩
  · rintro ⟨⟨j, hl⟩, hd⟩
    rw [← hd, (h.2.2.2.1 j l hl).2]
    exact hl

/-- A node has two leaves with different keys. -/
theorem WF.exists_two {p : P} {n : N} {c : D → Tree P L N D} {b : ℕ} (h : S.WF (.node p n c) b) :
    ∃ l l', (Tree.node p n c).Has l ∧ (Tree.node p n c).Has l' ∧
      S.dig (S.key l) (S.pos n) ≠ S.dig (S.key l') (S.pos n) := by
  obtain ⟨⟨i, j, hij, hi, hj⟩, hbr⟩ := h.branching
  obtain ⟨l, hl⟩ := (hbr i).exists_has hi
  obtain ⟨l', hl'⟩ := (hbr j).exists_has hj
  refine ⟨l, l', ⟨i, hl⟩, ⟨j, hl'⟩, ?_⟩
  rwa [(h.fits.2.2.2.1 i l hl).2, (h.fits.2.2.2.1 j l' hl').2]

/-- The keys of a tree that has them in two children of a node differ there. -/
theorem WF.pos_le {p p' : P} {n n' : N} {c c' : D → Tree P L N D} {b b' : ℕ} (h : S.WF (.node p n c) b)
    (h' : S.WF (.node p' n' c') b') (hl : ∀ l, (Tree.node p' n' c').Has l → (Tree.node p n c).Has l) :
    S.pos n ≤ S.pos n' := by
  obtain ⟨l, l', hl₁, hl₂, hne⟩ := h'.exists_two
  by_contra hlt
  obtain ⟨i, hi⟩ := hl l hl₁
  obtain ⟨j, hj⟩ := hl l' hl₂
  have h₁ := (h.fits.2.2.2.1 i l hi).1
  have h₂ := (h.fits.2.2.2.1 j l' hj).1
  exact hne ((h₁.symm.trans h₂) _ (not_le.mp hlt))

/-- The leaves determine the tree, if position and path determine a node's payload. -/
theorem WF.sameShape (hext : ∀ n n', S.ok n → S.ok n' → S.pos n = S.pos n' →
      S.Agree (S.pos n) (S.path n) (S.path n') → n = n') {t t' : Tree P L N D} {b b' : ℕ} (ht : S.WF t b)
    (ht' : S.WF t' b') (h : ∀ l, t.Has l ↔ t'.Has l) : t.SameShape t' := by
  induction t generalizing t' b b' with
  | nil =>
      cases t' with
      | nil => trivial
      | leaf p' l' => exact ((h l').mpr rfl).elim
      | node p' n' c' =>
          obtain ⟨l, hl⟩ := ht'.branching.exists_has (by simp)
          exact ((h l).mpr hl).elim
  | leaf p l =>
      cases t' with
      | nil => exact ((h l).mp rfl).elim
      | leaf p' l' => exact ((h l').mpr rfl)
      | node p' n' c' =>
          obtain ⟨l₁, l₂, h₁, h₂, hne⟩ := ht'.exists_two
          have e₁ : l = l₁ := (h l₁).mpr h₁
          have e₂ : l = l₂ := (h l₂).mpr h₂
          rw [← e₁, ← e₂] at hne
          exact absurd rfl hne
  | node p n c ih =>
      cases t' with
      | nil =>
          obtain ⟨l, hl⟩ := ht.branching.exists_has (by simp)
          exact ((h l).mp hl).elim
      | leaf p' l' =>
          obtain ⟨l₁, l₂, h₁, h₂, hne⟩ := ht.exists_two
          have e₁ : l' = l₁ := (h l₁).mp h₁
          have e₂ : l' = l₂ := (h l₂).mp h₂
          rw [← e₁, ← e₂] at hne
          exact absurd rfl hne
      | node p' n' c' =>
          have hpos : S.pos n = S.pos n' :=
            le_antisymm (ht.pos_le ht' fun l => (h l).mpr) (ht'.pos_le ht fun l => (h l).mp)
          have hn : n = n' := by
            refine hext n n' ht.fits.1 ht'.fits.1 hpos ?_
            obtain ⟨l, ⟨i, hl⟩⟩ := ht.branching.exists_has (by simp)
            obtain ⟨j, hl'⟩ := (h l).mp ⟨i, hl⟩
            have h₁ := (ht.fits.2.2.2.1 i l hl).1
            have h₂ := (ht'.fits.2.2.2.1 j l hl').1
            rw [← hpos] at h₂
            exact h₁.trans h₂.symm
          refine ⟨hn, fun i => ?_⟩
          refine ih i ⟨ht.fits.2.2.2.2 i, ht.branching.2 i⟩ ⟨ht'.fits.2.2.2.2 i, ht'.branching.2 i⟩ fun l => ?_
          rw [ht.fits.has_child_iff, ht'.fits.has_child_iff, h l, hpos]

/-! ## Insertion -/

/-- A walk that follows `k` as long as `k` agrees with the node's path. -/
def Follows (S : Coding K D N L) (k : K) (sel : N → (D → Tree P L N D) → Option D) : Prop :=
  ∀ n c, S.ok n → (S.Agree (S.pos n) (S.path n) k ∧ sel n c = some (S.dig k (S.pos n))) ∨
    (¬ S.Agree (S.pos n) (S.path n) k ∧ sel n c = none)

theorem has_of_focus {sel : N → (D → Tree P L N D) → Option D} {t : Tree P L N D} {l : L}
    (h : (Tree.focus sel t).Has l) : t.Has l := by
  induction t with
  | nil => exact h
  | leaf p l' => exact h
  | node p n c ih =>
      cases hsel : sel n c with
      | none => rwa [Tree.focus_none hsel] at h
      | some i =>
          rw [Tree.focus_some hsel] at h
          exact ⟨i, ih i h⟩

theorem Branching.focus {sel : N → (D → Tree P L N D) → Option D} {t : Tree P L N D} (ht : Branching t) : Branching (Tree.focus sel t) := by
  induction t with
  | nil => trivial
  | leaf p l => trivial
  | node p n c ih =>
      cases hs : sel n c with
      | none => rwa [Tree.focus_none hs]
      | some i => rw [Tree.focus_some hs]; exact ih i (ht.2 i)

theorem Fits.focus {t : Tree P L N D} {b : ℕ} (ht : S.Fits t b) (sel : N → (D → Tree P L N D) → Option D) :
    ∃ b', b ≤ b' ∧ S.Fits (Tree.focus sel t) b' := by
  induction t generalizing b with
  | nil => exact ⟨b, le_rfl, trivial⟩
  | leaf p l => exact ⟨b, le_rfl, trivial⟩
  | node p n c ih =>
      cases hs : sel n c with
      | none =>
          rw [Tree.focus_none hs]
          exact ⟨b, le_rfl, ht⟩
      | some i =>
          rw [Tree.focus_some hs]
          obtain ⟨b', hb, h⟩ := ih i (ht.2.2.2.2 i)
          exact ⟨b', by have := ht.2.1; omega, h⟩

theorem get_eq_focus_follows [DecidableEq K] {k : K} {sel : N → (D → Tree P L N D) → Option D}
    (hsel : Follows S k sel) {t : Tree P L N D} {b : ℕ} (ht : S.Fits t b) :
    S.get k t = S.get k (Tree.focus sel t) := by
  induction t generalizing b with
  | nil => rfl
  | leaf p l => rfl
  | node p n c ih =>
      rcases hsel n c ht.1 with ⟨-, hs⟩ | ⟨-, hs⟩
      · rw [Tree.focus_some hs]
        exact ih _ (ht.2.2.2.2 _)
      · rw [Tree.focus_none hs]

/-- Below a node whose path disagrees with the key there is no leaf for it. -/
theorem Fits.get_none [DecidableEq K] {p : P} {n : N} {c : D → Tree P L N D} {b : ℕ}
    (h : S.Fits (.node p n c) b) {k : K} (hk : ¬ S.Agree (S.pos n) (S.path n) k) :
    S.get k (.node p n c) = none := by
  rw [get_eq_none h.routed]
  rintro l ⟨i, hl⟩ rfl
  exact hk (h.2.2.2.1 i l hl).1

/-- The walk along a key that is there ends at its leaf. -/
theorem focus_follows_of_get [DecidableEq K] {k : K} {sel : N → (D → Tree P L N D) → Option D} (hsel : Follows S k sel)
    {t : Tree P L N D} {b : ℕ} (ht : S.Fits t b) {l : L} (hl : S.get k t = some l) :
    ∃ p, Tree.focus sel t = .leaf p l := by
  rw [get_eq_focus_follows hsel ht] at hl
  obtain ⟨b', -, hfit⟩ := ht.focus sel
  generalize hu : Tree.focus sel t = u at hl hfit
  cases u with
  | nil => cases hl
  | leaf p l' =>
      simp only [get] at hl
      split at hl
      · cases hl
        exact ⟨p, rfl⟩
      · cases hl
  | node p n c =>
      rcases hsel n c hfit.1 with ⟨-, hs⟩ | ⟨hag, -⟩
      · cases (Tree.focus_eq_node hu).symm.trans hs
      · cases hl.symm.trans (hfit.get_none hag)

section Plug

variable [DecidableEq D] {sel : N → (D → Tree P L N D) → Option D} {u : Tree P L N D}

theorem plug_ne_nil (hu : u ≠ .nil) (t : Tree P L N D) : Tree.plug sel u t ≠ .nil := by
  cases t with
  | nil => exact hu
  | leaf p l => exact hu
  | node p n c =>
      cases hsel : sel n c with
      | none => rwa [Tree.plug_none hsel]
      | some i => rw [Tree.plug_some hsel]; simp

theorem has_plug_of {X : L → Prop} {t : Tree P L N D}
    (hu : ∀ l, u.Has l ↔ X l ∨ (Tree.focus sel t).Has l) (l : L) :
    (Tree.plug sel u t).Has l ↔ X l ∨ t.Has l := by
  induction t with
  | nil => exact hu l
  | leaf p l' => exact hu l
  | node p n c ih =>
      cases hsel : sel n c with
      | none =>
          rw [Tree.plug_none hsel]
          rw [Tree.focus_none hsel] at hu
          exact hu l
      | some i =>
          rw [Tree.plug_some hsel]
          rw [Tree.focus_some hsel] at hu
          have := ih i hu
          simp only [Tree.has_node]
          constructor
          · rintro ⟨j, hj⟩
            by_cases he : j = i
            · subst he
              rw [Function.update_self, this] at hj
              exact hj.imp id fun h => ⟨j, h⟩
            · rw [Function.update_of_ne he] at hj
              exact Or.inr ⟨j, hj⟩
          · rintro (hx | ⟨j, hj⟩)
            · exact ⟨i, by rw [Function.update_self]; exact this.mpr (Or.inl hx)⟩
            · by_cases he : j = i
              · subst he
                exact ⟨j, by rw [Function.update_self]; exact this.mpr (Or.inr hj)⟩
              · exact ⟨j, by rwa [Function.update_of_ne he]⟩

theorem has_plug_sub {t : Tree P L N D} {l : L} (h : (Tree.plug sel u t).Has l) : u.Has l ∨ t.Has l := by
  induction t with
  | nil => exact Or.inl h
  | leaf p l' => exact Or.inl h
  | node p n c ih =>
      cases hsel : sel n c with
      | none =>
          rw [Tree.plug_none hsel] at h
          exact Or.inl h
      | some i =>
          rw [Tree.plug_some hsel] at h
          obtain ⟨j, hj⟩ := h
          by_cases he : j = i
          · subst he
            rw [Function.update_self] at hj
            exact (ih j hj).imp id fun h => ⟨j, h⟩
          · rw [Function.update_of_ne he] at hj
            exact Or.inr ⟨j, hj⟩

theorem Branching.plug {t : Tree P L N D} (ht : Branching t) (hu : Branching u) (hne : u ≠ .nil) :
    Branching (Tree.plug sel u t) := by
  induction t with
  | nil => exact hu
  | leaf p l => exact hu
  | node p n c ih =>
      cases hs : sel n c with
      | none => rwa [Tree.plug_none hs]
      | some i =>
          rw [Tree.plug_some hs]
          obtain ⟨⟨i₁, j₁, hij, hi, hj⟩, hc⟩ := ht
          -- a child that was there is still there
          have hkeep : ∀ j, c j ≠ .nil → Function.update c i (Tree.plug sel u (c i)) j ≠ .nil := by
            intro j hj
            by_cases he : j = i
            · rw [he, Function.update_self]
              exact plug_ne_nil hne _
            · rwa [Function.update_of_ne he]
          refine ⟨⟨i₁, j₁, hij, hkeep i₁ hi, hkeep j₁ hj⟩, fun j => ?_⟩
          by_cases he : j = i
          · rw [he, Function.update_self]
            exact ih i (hc i)
          · rw [Function.update_of_ne he]
            exact hc j

theorem Fed.plug {t : Tree P L N D} (ht : Fed t) (hu : Fed u) (hne : u ≠ .nil) : Fed (Tree.plug sel u t) := by
  induction t with
  | nil => exact hu
  | leaf p l => exact hu
  | node p n c ih =>
      cases hs : sel n c with
      | none => rwa [Tree.plug_none hs]
      | some i =>
          rw [Tree.plug_some hs]
          have hfed : ∀ j, Fed (Function.update c i (Tree.plug sel u (c i)) j) := by
            intro j
            by_cases he : j = i
            · rw [he, Function.update_self]
              exact ih i (ht.2 i)
            · rw [Function.update_of_ne he]
              exact ht.2 j
          refine ⟨⟨i, ?_⟩, hfed⟩
          refine (hfed i).exists_has ?_
          rw [Function.update_self]
          exact plug_ne_nil hne _

/-- One leaf less leaves every node of a branching tree with another one. -/
theorem Branching.fed_plug_nil {t : Tree P L N D} (ht : Branching t) : Fed (Tree.plug sel .nil t) := by
  induction t with
  | nil => trivial
  | leaf p l => trivial
  | node p n c ih =>
      cases hs : sel n c with
      | none =>
          rw [Tree.plug_none hs]
          trivial
      | some i =>
          rw [Tree.plug_some hs]
          obtain ⟨⟨i₁, i₂, hne, h₁, h₂⟩, hc⟩ := ht
          obtain ⟨j, hj, hji⟩ : ∃ j, c j ≠ .nil ∧ j ≠ i := by
            by_cases he : i₁ = i
            · exact ⟨i₂, h₂, fun h => hne (he.trans h.symm)⟩
            · exact ⟨i₁, h₁, he⟩
          obtain ⟨l, hl⟩ := (hc j).exists_has hj
          refine ⟨⟨j, l, by rwa [Function.update_of_ne hji]⟩, fun j => ?_⟩
          by_cases he : j = i
          · rw [he, Function.update_self]
            exact ih i (hc i)
          · rw [Function.update_of_ne he]
            exact (hc j).fed

/-- The part of `plug` that insertion and removal share: what remains to be shown is that the new subtree fits
at the place of the old one. -/
theorem Fits.update {p : P} {n : N} {c : D → Tree P L N D} {b : ℕ} (h : S.Fits (.node p n c) b) {i : D}
    {u : Tree P L N D} (hu : S.Fits u (S.pos n + 1))
    (hk : ∀ l, u.Has l → S.Agree (S.pos n) (S.path n) (S.key l) ∧ S.dig (S.key l) (S.pos n) = i) :
    S.Fits (.node p n (Function.update c i u)) b := by
  obtain ⟨hok, hb, hlen, hkeys, hc⟩ := h
  refine ⟨hok, hb, hlen, fun j l hl => ?_, fun j => ?_⟩
  · by_cases he : j = i
    · subst he
      rw [Function.update_self] at hl
      exact hk l hl
    · rw [Function.update_of_ne he] at hl
      exact hkeys j l hl
  · by_cases he : j = i
    · rw [he, Function.update_self]; exact hu
    · rw [Function.update_of_ne he]; exact hc j

/-- Replacing the subtree where a walk along `k` ends by one that adds at most the key `k`. -/
theorem Fits.plug_insert {k : K} (hsel : Follows S k sel) {t : Tree P L N D} {b : ℕ} (ht : S.Fits t b)
    (hagree : ∀ l, t.Has l → S.Agree b k (S.key l))
    (hkeys : ∀ l, u.Has l → S.key l = k ∨ (Tree.focus sel t).Has l)
    (hu : ∀ b', S.Fits (Tree.focus sel t) b' → (∀ l, (Tree.focus sel t).Has l → S.Agree b' k (S.key l)) →
      S.Fits u b') : S.Fits (Tree.plug sel u t) b := by
  induction t generalizing b with
  | nil => exact hu b ht hagree
  | leaf p l => exact hu b ht hagree
  | node p n c ih =>
      rcases hsel n c ht.1 with ⟨hpath, hs⟩ | ⟨-, hs⟩
      · rw [Tree.plug_some hs]
        rw [Tree.focus_some hs] at hkeys hu
        obtain ⟨-, -, -, hk, hc⟩ := id ht
        have hag : ∀ l, (c (S.dig k (S.pos n))).Has l → S.Agree (S.pos n + 1) k (S.key l) := by
          intro l hl
          obtain ⟨h₁, h₂⟩ := hk _ l hl
          exact (hpath.symm.trans h₁).succ h₂.symm
        refine ht.update (ih _ (hc _) hag hkeys hu) fun l hl => ?_
        have hl' : S.key l = k ∨ (c (S.dig k (S.pos n))).Has l := by
          rcases has_plug_sub hl with h | h
          · exact (hkeys l h).imp id has_of_focus
          · exact Or.inr h
        rcases hl' with rfl | hl'
        · exact ⟨hpath, rfl⟩
        · exact hk _ l hl'
      · rw [Tree.plug_none hs]
        rw [Tree.focus_none hs] at hu
        exact hu b ht hagree

/-- Replacing the subtree where any walk ends by one without new keys. -/
theorem Fits.plug_sub {t : Tree P L N D} {b : ℕ} (ht : S.Fits t b)
    (hkeys : ∀ l, u.Has l → (Tree.focus sel t).Has l)
    (hu : ∀ b', S.Fits (Tree.focus sel t) b' → S.Fits u b') : S.Fits (Tree.plug sel u t) b := by
  induction t generalizing b with
  | nil => exact hu b ht
  | leaf p l => exact hu b ht
  | node p n c ih =>
      cases hs : sel n c with
      | none =>
          rw [Tree.plug_none hs]
          rw [Tree.focus_none hs] at hu
          exact hu b ht
      | some i =>
          rw [Tree.plug_some hs]
          rw [Tree.focus_some hs] at hkeys hu
          obtain ⟨-, -, -, hk, hc⟩ := id ht
          refine ht.update (ih i (hc i) hkeys hu) fun l hl => hk i l ?_
          rcases has_plug_sub hl with h | h
          · exact has_of_focus (hkeys l h)
          · exact h

/-- Taking out a subtree. -/
theorem Fits.plug_nil {t : Tree P L N D} {b : ℕ} (ht : S.Fits t b) : S.Fits (Tree.plug sel .nil t) b :=
  ht.plug_sub (fun _ h => h.elim) fun _ _ => trivial

end Plug

/-- A node with two children: the new leaf for key `k` and an old tree that differs from `k` at the node's
position for the first time. -/
theorem WF.split [DecidableEq D] {old : Tree P L N D} {b : ℕ} (hold : S.WF old b) (hne : old ≠ .nil) {k k₀ : K}
    (hb : ∀ l, old.Has l → S.Agree b k (S.key l)) {n : N} (hok : S.ok n) (hlen : S.pos n < S.len)
    (hpath : S.Agree (S.pos n) (S.path n) k) (hag : S.Agree (S.pos n) (S.pathOf k₀ old) k)
    (hd : S.dig (S.pathOf k₀ old) (S.pos n) ≠ S.dig k (S.pos n)) (hpos : S.pos n < S.posOf old) {l : L}
    (hl : S.key l = k) (p p' : P) :
    S.WF (.node p n (Function.update (Function.update (fun _ => .nil) (S.dig k (S.pos n)) (.leaf p' l))
      (S.dig (S.pathOf k₀ old) (S.pos n)) old)) b := by
  have hold' : ∀ l, old.Has l → S.Agree (S.pos n) k (S.key l) ∧
      S.dig (S.key l) (S.pos n) = S.dig (S.pathOf k₀ old) (S.pos n) := by
    intro l hl
    have h := hold.fits.agree_pathOf hl k₀
    exact ⟨hag.symm.trans (h.mono hpos.le), (h _ hpos).symm⟩
  obtain ⟨l₀, hl₀⟩ := hold.branching.exists_has hne
  refine ⟨⟨hok, ?_, hlen, ?_, ?_⟩, ⟨_, _, hd, ?_, ?_⟩, ?_⟩
  · refine le_of_agree ?_ (hb l₀ hl₀)
    rw [(hold' l₀ hl₀).2]
    exact hd.symm
  · intro i l' hl'
    by_cases hi : i = S.dig (S.pathOf k₀ old) (S.pos n)
    · subst hi
      rw [Function.update_self] at hl'
      exact ⟨hpath.trans (hold' l' hl').1, (hold' l' hl').2⟩
    · rw [Function.update_of_ne hi] at hl'
      by_cases hi' : i = S.dig k (S.pos n)
      · subst hi'
        rw [Function.update_self] at hl'
        cases hl'
        exact ⟨hl ▸ hpath, by rw [hl]⟩
      · rw [Function.update_of_ne hi'] at hl'
        exact hl'.elim
  · intro i
    by_cases hi : i = S.dig (S.pathOf k₀ old) (S.pos n)
    · subst hi
      rw [Function.update_self]
      exact hold.fits.of_lt_posOf hpos
    · rw [Function.update_of_ne hi]
      by_cases hi' : i = S.dig k (S.pos n)
      · subst hi'
        rw [Function.update_self]
        trivial
      · rw [Function.update_of_ne hi']
        trivial
  · rwa [Function.update_self]
  · rw [Function.update_of_ne hd.symm, Function.update_self]
    simp
  · intro i
    by_cases hi : i = S.dig (S.pathOf k₀ old) (S.pos n)
    · rw [hi, Function.update_self]
      exact hold.branching
    · rw [Function.update_of_ne hi]
      by_cases hi' : i = S.dig k (S.pos n)
      · rw [hi', Function.update_self]
        trivial
      · rw [Function.update_of_ne hi']
        trivial

/-! ## Removal -/

/-- The walk that looks at nothing but the digits of `k`. -/
def along (S : Coding K D N L) (k : K) : N → (D → Tree P L N D) → Option D :=
  fun n _ => some (S.dig k (S.pos n))

/-- The same walk, but it stays in the last node. -/
def toParent (S : Coding K D N L) (k : K) : N → (D → Tree P L N D) → Option D := fun n c =>
  match c (S.dig k (S.pos n)) with
  | .node _ _ _ => some (S.dig k (S.pos n))
  | _ => none

theorem toParent_node {k : K} {n : N} {c : D → Tree P L N D} {p : P} {n' : N} {c' : D → Tree P L N D}
    (h : c (S.dig k (S.pos n)) = .node p n' c') : toParent S k n c = some (S.dig k (S.pos n)) := by
  simp only [toParent, h]

theorem toParent_of_not_node {k : K} {n : N} {c : D → Tree P L N D}
    (h : ∀ p n' c', c (S.dig k (S.pos n)) ≠ .node p n' c') : toParent S k n c = none := by
  unfold toParent
  split
  · exact absurd ‹_› (h _ _ _)
  · rfl

theorem get_eq_focus [DecidableEq K] (k : K) (t : Tree P L N D) :
    S.get k t = S.get k (Tree.focus (along S k) t) := by
  induction t with
  | nil => rfl
  | leaf p l => rfl
  | node p n c ih => exact ih _

theorem focus_along_not_node (k : K) (t : Tree P L N D) {p : P} {n : N} {c : D → Tree P L N D} :
    Tree.focus (along S k) t ≠ .node p n c := by
  induction t with
  | nil => simp [Tree.focus]
  | leaf p l => simp [Tree.focus]
  | node p n c ih => exact ih _

/-- The walk along a key that is there ends at its leaf. -/
theorem focus_along_of_sub {t : Tree P L N D} (ht : S.Routed t) {p : P} {l : L} (h : Tree.Sub (.leaf p l) t) :
    Tree.focus (along S (S.key l)) t = .leaf p l := by
  induction h with
  | refl => rfl
  | @child p' n c i hi ih =>
      have hd : S.dig (S.key l) (S.pos n) = i := (ht i).1 l (hi.has rfl)
      show Tree.focus _ (c (S.dig (S.key l) (S.pos n))) = _
      rw [hd]
      exact ih (ht i).2

section Remove

variable [DecidableEq D]

/-- The tree without the leaf where the walk along its key ends. -/
theorem has_unlink {k : K} {t : Tree P L N D} (ht : S.Routed t) {p : P} {l₀ : L}
    (hf : Tree.focus (along S k) t = .leaf p l₀) (hk : S.key l₀ = k) (l : L) :
    (Tree.plug (along S k) .nil t).Has l ↔ t.Has l ∧ S.key l ≠ k := by
  induction t with
  | nil => cases hf
  | leaf p' l' =>
      cases hf
      simp only [Tree.plug, Tree.has_nil, Tree.has_leaf, false_iff, not_and, not_not]
      rintro rfl
      exact hk
  | node p' n c ih =>
      have hf' : Tree.focus (along S k) (c (S.dig k (S.pos n))) = .leaf p l₀ := hf
      have ih := ih _ (ht _).2 hf'
      show (∃ i, (Function.update c _ _ i).Has l) ↔ (∃ i, (c i).Has l) ∧ _
      constructor
      · rintro ⟨i, hi⟩
        by_cases he : i = S.dig k (S.pos n)
        · subst he
          rw [Function.update_self] at hi
          exact ⟨⟨_, (ih.mp hi).1⟩, (ih.mp hi).2⟩
        · rw [Function.update_of_ne he] at hi
          refine ⟨⟨i, hi⟩, ?_⟩
          rintro rfl
          exact he ((ht i).1 l hi).symm
      · rintro ⟨⟨i, hi⟩, hne⟩
        by_cases he : i = S.dig k (S.pos n)
        · subst he
          exact ⟨_, by rw [Function.update_self]; exact ih.mpr ⟨hi, hne⟩⟩
        · exact ⟨i, by rwa [Function.update_of_ne he]⟩

/-- The node that holds the slot where the walk along `k` ends, and what taking the leaf out of that slot does
to it. -/
structure LastNode (S : Coding K D N L) (k : K) (t : Tree P L N D) (p : P) (n : N) (c : D → Tree P L N D) :
    Prop where
  focus : Tree.focus (toParent S k) t = .node p n c
  child : c (S.dig k (S.pos n)) = Tree.focus (along S k) t
  slot : ∀ s, Tree.slotOf (along S k) s t = .child p (S.dig k (S.pos n))
  unlink : Tree.plug (along S k) .nil t =
    Tree.plug (toParent S k) (.node p n (Function.update c (S.dig k (S.pos n)) .nil)) t
  focus_unlink : Tree.focus (toParent S k) (Tree.plug (along S k) .nil t) =
    .node p n (Function.update c (S.dig k (S.pos n)) .nil)
  slot_unlink : ∀ s, Tree.slotOf (toParent S k) s (Tree.plug (along S k) .nil t) = Tree.slotOf (toParent S k) s t
  plug_unlink : ∀ u, Tree.plug (toParent S k) u (Tree.plug (along S k) .nil t) = Tree.plug (toParent S k) u t

/-- The walk ends in a slot of this node. -/
theorem LastNode.here {k : K} {p : P} {n : N} {c : D → Tree P L N D}
    (h : ∀ p' n' c', c (S.dig k (S.pos n)) ≠ .node p' n' c') : LastNode S k (.node p n c) p n c := by
  have hs := toParent_of_not_node h
  have hends : Tree.focus (along S k) (c (S.dig k (S.pos n))) = c (S.dig k (S.pos n)) ∧
      (∀ s, Tree.slotOf (along S k) s (c (S.dig k (S.pos n))) = s) ∧
      Tree.plug (along S k) .nil (c (S.dig k (S.pos n))) = .nil := by
    cases hc : c (S.dig k (S.pos n)) with
    | nil => exact ⟨rfl, fun _ => rfl, rfl⟩
    | leaf p' l => exact ⟨rfl, fun _ => rfl, rfl⟩
    | node p' n' c' => exact absurd hc (h p' n' c')
  have hplug : Tree.plug (along S k) .nil (.node p n c) = .node p n (Function.update c (S.dig k (S.pos n)) .nil) := by
    show Tree.node p n (Function.update c _ (Tree.plug _ _ (c _))) = _
    rw [hends.2.2]
  have hs' : toParent S k n (Function.update c (S.dig k (S.pos n)) .nil) = none :=
    toParent_of_not_node (by simp)
  refine ⟨Tree.focus_none hs, hends.1.symm, fun s => ?_, ?_, ?_, fun s => ?_, fun u => ?_⟩
  · exact hends.2.1 (.child p (S.dig k (S.pos n)))
  · rw [hplug, Tree.plug_none hs]
  · rw [hplug, Tree.focus_none hs']
  · rw [hplug, Tree.slotOf_none hs', Tree.slotOf_none hs]
  · rw [hplug, Tree.plug_none hs', Tree.plug_none hs]

/-- It goes on below the child. -/
theorem LastNode.below {k : K} {p : P} {n : N} {c : D → Tree P L N D} {p₀ : P} {n₀ : N} {c₀ : D → Tree P L N D}
    {p' : P} {n' : N} {c' : D → Tree P L N D} (hc : c (S.dig k (S.pos n)) = .node p₀ n₀ c₀)
    (h : LastNode S k (.node p₀ n₀ c₀) p' n' c') : LastNode S k (.node p n c) p' n' c' := by
  have hs := toParent_node hc
  have hplug : Tree.plug (along S k) .nil (.node p n c) =
      .node p n (Function.update c (S.dig k (S.pos n)) (Tree.plug (along S k) .nil (.node p₀ n₀ c₀))) := by
    show Tree.node p n (Function.update c _ (Tree.plug _ _ (c _))) = _
    rw [hc]
  have hs' : toParent S k n (Function.update c (S.dig k (S.pos n))
      (Tree.plug (along S k) .nil (.node p₀ n₀ c₀))) = some (S.dig k (S.pos n)) :=
    toParent_node (Function.update_self (S.dig k (S.pos n)) (Tree.plug (along S k) .nil (.node p₀ n₀ c₀)) c)
  refine ⟨?_, ?_, fun s => ?_, ?_, ?_, fun s => ?_, fun u => ?_⟩
  · rw [Tree.focus_some hs, hc, h.focus]
  · show _ = Tree.focus (along S k) (c _)
    rw [hc, h.child]
  · show Tree.slotOf (along S k) _ (c _) = _
    rw [hc, h.slot]
  · rw [hplug, h.unlink, Tree.plug_some hs, hc]
  · rw [hplug, Tree.focus_some hs', Function.update_self, h.focus_unlink]
  · rw [hplug, Tree.slotOf_some hs', Function.update_self, h.slot_unlink, Tree.slotOf_some hs, hc]
  · rw [hplug, Tree.plug_some hs', Function.update_self, h.plug_unlink, Tree.plug_some hs, hc,
      Function.update_idem]

theorem exists_lastNode (k : K) (p : P) (n : N) (c : D → Tree P L N D) :
    ∃ p' n' c', LastNode S k (.node p n c) p' n' c' := by
  induction h : c (S.dig k (S.pos n)) generalizing p n c with
  | nil => exact ⟨p, n, c, .here (by simp [h])⟩
  | leaf p₀ l₀ => exact ⟨p, n, c, .here (by simp [h])⟩
  | node p₀ n₀ c₀ ih =>
      obtain ⟨p', n', c', hl⟩ := ih _ p₀ n₀ c₀ rfl
      exact ⟨p', n', c', .below h hl⟩

/-- The tree in which a leaf's only sibling takes the place of the node above both. -/
theorem has_splice {k : K} {t : Tree P L N D} (ht : S.Routed t) {p : P} {n : N} {c : D → Tree P L N D}
    (hfoc : Tree.focus (toParent S k) t = .node p n c) {q : P} {l₀ : L} (hleaf : c (S.dig k (S.pos n)) = .leaf q l₀)
    (hk : S.key l₀ = k) {o : D} (ho : o ≠ S.dig k (S.pos n)) (honly : ∀ i, i ≠ S.dig k (S.pos n) → i ≠ o → c i = .nil)
    (l : L) : (Tree.plug (toParent S k) (c o) t).Has l ↔ t.Has l ∧ S.key l ≠ k := by
  obtain ⟨p', n', c', hlast⟩ : ∃ p' n' c', LastNode S k t p' n' c' := by
    cases t with
    | nil => cases hfoc
    | leaf p l => cases hfoc
    | node p n c => exact exists_lastNode k p n c
  cases hfoc.symm.trans hlast.focus
  rw [← has_unlink ht (hlast.child.symm.trans hleaf) hk, ← hlast.plug_unlink]
  refine (has_plug_of (X := fun _ => False) (fun l => ?_) l).trans (by simp)
  rw [hlast.focus_unlink, Tree.has_node, false_or]
  constructor
  · intro hl
    exact ⟨o, by rwa [Function.update_of_ne ho]⟩
  · rintro ⟨i, hi⟩
    by_cases hd : i = S.dig k (S.pos n)
    · subst hd
      rw [Function.update_self] at hi
      exact hi.elim
    · rw [Function.update_of_ne hd] at hi
      by_cases hio : i = o
      · exact hio ▸ hi
      · rw [honly i hd hio] at hi
        exact hi.elim

end Remove

end Coding

end Ptok.Lib
