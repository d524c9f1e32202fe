import Ptok.Tcradix.Invariant

/-!
# Inserts that fail

`tcradix_insert` stores the value in the nodes on the way before it knows that there is memory for the rest. If it fails,
a key that was bound has the new value, and so has the first key of a structure.
-/

namespace Ptok.Tcradix

open Lib

variable {Q : Word → ℕ → Prop} {m m' : Mem} {g g' : Ghost TOP} {ok : ℕ → Bool} {ops : List Op} {key : Word} {value : ℕ}

/-- A call returns the same in both memories. -/
def SameReturn (ok : ℕ → Bool) (op : Op) (m m' : Mem) : Prop :=
  ∀ r, (∃ m₁, Returns (call ok op m) (r, m₁)) ↔ ∃ m₁, Returns (call ok op m') (r, m₁)

/-- Whatever is looked up or removed next, the result is the same. -/
def SameAnswers (ok : ℕ → Bool) (m m' : Mem) : Prop :=
  ∀ k, SameReturn ok (.get k) m m' ∧ SameReturn ok (.remove k) m m'

/-- A lookup finds `v`. -/
def Found (m : Mem) (key : Word) (v : ℕ) : Prop := (tcradixGet key 0).eval m.load = .ok v

/-- Where a failed insert has stored nothing that readers find. -/
def Harmless (m : Mem) (key : Word) (value : ℕ) : Prop :=
  if m.topEmpty then key = 0 ∧ (m.node 0).onlyVal = NULL ∨ key = TOP_EMPTY ∧ (m.node 0).onlyVal = value
  else Found m key NULL ∨ Found m key value

/-! ## What calls return -/

/-- Lookups and removes return what is in the tree. -/
theorem Quiet.returns_iff (h : Quiet ok Q m g) {op : Op} {k : Word} (hop : op = .get k ∨ op = .remove k) (r : Ret) :
    (∃ m₁, Returns (call ok op m) (r, m₁)) ↔ r = .value (g.tree.get k) := by
  obtain ⟨r₀, m₀, g₀, hr, -, he⟩ := h.call_returns op fun _ _ hf => by
    subst hf
    rcases hop with h | h <;> cases h
  have hr₀ : r₀ = .value (g.tree.get k) := by
    generalize g₀.tree = t₀ at he
    rcases hop with rfl | rfl <;> cases he <;> rfl
  subst hr₀
  constructor
  · rintro ⟨m₁, hr₁⟩
    exact congrArg Prod.fst (hr₁.unique hr)
  · rintro rfl
    exact ⟨m₀, hr⟩

theorem sameAnswers_iff (h : Quiet ok Q m g) (h' : Quiet ok Q m' g') :
    SameAnswers ok m m' ↔ ∀ k, g'.tree.get k = g.tree.get k := by
  have hget := fun k => h.returns_iff (.inl (.refl (Op.get k)))
  have hget' := fun k => h'.returns_iff (.inl (.refl (Op.get k)))
  have hremove := fun k => h.returns_iff (.inr (.refl (Op.remove k)))
  have hremove' := fun k => h'.returns_iff (.inr (.refl (Op.remove k)))
  simp only [SameAnswers, SameReturn, hget, hget', hremove, hremove', and_self]
  constructor
  · intro hs k
    exact (Ret.value.inj ((hs k _).mp rfl)).symm
  · intro hs k r
    rw [hs k]

theorem Found_iff (h : Quiet ok Q m g) (v : ℕ) : Found m key v ↔ g.tree.get key = v := by
  rw [Found, tcradixGet_eval h key 0, Except.ok.injEq]

/-! ## The result -/

/-- A failed insert changes the value of a key that was bound. -/
theorem Inserted.same_iff {t t' : T TOP} (h : Inserted 0 key value .ENOMEM t t') :
    (∀ k, t'.get k = t.get k) ↔ t.get key = NULL ∨ t.get key = value := by
  have hself : t'.get key = if t.get key ≠ NULL then value else NULL := by
    rw [h.self]
    simp
  constructor
  · intro hs
    rw [hs key] at hself
    by_cases h0 : t.get key = NULL
    · exact Or.inl h0
    · rw [if_pos h0] at hself
      exact Or.inr hself
  · intro hk k
    by_cases hne : k = key
    · subst hne
      rw [hself]
      rcases hk with hk | hk
      · rw [if_neg (not_not.mpr hk), hk]
      · rw [hk]
        split
        · rfl
        · rename_i h0
          exact (not_not.mp h0).symm
    · exact h.keep k hne (under_top k)

/-- A root that is used for the first time keeps the key and the value, unless the key is 0. -/
theorem Inserted.first_iff {v : ℕ} {t' : T TOP} (hv : value ≠ NULL)
    (h : Inserted 0 key value .ENOMEM (.node 0 ⟨key, value, 0⟩ fun _ => .nil) t') :
    (∀ k, t'.get k = (mark v).get k) ↔ key = 0 ∧ v = NULL ∨ key = TOP_EMPTY ∧ v = value := by
  have hget : ∀ k, t'.get k = if key ≠ 0 ∧ k = key then value else NULL := by
    intro k
    by_cases h0 : key = 0
    · have hopen : ∀ k, (T.node (l := 14) 0 ⟨key, value, 0⟩ fun _ => .nil).get k = NULL := fun k => T.get_open h0
      by_cases hk : k = key
      · subst hk
        rw [h.self, hopen]
        simp [h0]
      · rw [h.keep k hk (under_top k), hopen]
        simp [h0]
    · have hpacked : ∀ k, (T.node (l := 14) 0 ⟨key, value, 0⟩ fun _ => .nil).get k = if key = k then value else NULL :=
        fun k => T.get_packed h0
      by_cases hk : k = key
      · subst hk
        rw [h.self, hpacked, if_pos rfl, if_pos (Or.inr hv), if_pos ⟨h0, rfl⟩]
      · rw [h.keep k hk (under_top k), hpacked, if_neg (Ne.symm hk), if_neg fun hf => hk hf.2]
  simp only [hget, mark_get]
  have hne : TOP_EMPTY ≠ 0 := by decide
  constructor
  · intro hs
    by_cases h0 : key = 0
    · have hv := hs TOP_EMPTY
      simp [h0] at hv
      exact Or.inl ⟨h0, hv.symm⟩
    · have hk := hs key
      rw [if_pos ⟨h0, rfl⟩] at hk
      split at hk
      · exact Or.inr ⟨Eq.symm ‹_›, hk.symm⟩
      · exact absurd hk hv
  · rintro (⟨rfl, rfl⟩ | ⟨rfl, rfl⟩) k
    · simp
    · simp only [hne, ne_eq, not_false_eq_true, true_and, eq_comm]

/-- An insert that fails leaves every answer as it was exactly where it is harmless. -/
theorem tcradix_insert_atomic_iff (h : Reached ok ops m) (hv : value ≠ NULL)
    (hr : Returns (call ok (.insert key value) m) (.errno .ENOMEM, m')) : SameAnswers ok m m' ↔ Harmless m key value := by
  obtain ⟨g, hq⟩ := h.quiet (Q := fun _ _ => True) fun _ _ _ => trivial
  obtain ⟨r, m₁, g', hr', hq', he⟩ := hq.call_returns (.insert key value) fun _ _ _ => trivial
  cases hr.unique hr'
  rw [sameAnswers_iff hq hq', Harmless]
  have hiff := topEmpty_iff hq.rep hq.ptr hq.root
  cases he with
  | insert _ hs hins =>
      generalize ht : g.tree = t at hs hiff
      cases hs with
      | mark v =>
          have hval : (m.node 0).onlyVal = v := by
            have hrep := hq.rep
            rw [ht] at hrep
            rw [hrep.1]
            rfl
          rw [if_pos (hiff.mpr ⟨v, rfl⟩), hval]
          exact hins.first_iff hv
      | same hne =>
          rw [if_neg fun hm => (hiff.mp hm).elim hne, Found_iff hq, Found_iff hq, ht]
          exact hins.same_iff

/-! ## A run -/

/-- What `tcradix_insert(c, 5, 7)` leaves of a new structure if malloc fails. -/
def failedLog : List Event :=
  [.writeStatus 1, .onlyVal 0 7, .onlyKey 0 5, .onlyVal 0 7, .zalloc false, .writeStatus 2]

theorem failed_returns :
    Returns (call (fun _ => false) (.insert 5 7) blank) (.errno .ENOMEM, storeAll blank failedLog) := ⟨0, fun _ _ => rfl⟩

/-- The key is found although it could not be inserted. -/
theorem tcradix_insert_visible : Reached (fun _ => false) [] blank ∧
    Returns (call (fun _ => false) (.insert 5 7) blank) (.errno .ENOMEM, storeAll blank failedLog) ∧
    ¬ SameAnswers (fun _ => false) blank (storeAll blank failedLog) := by
  refine ⟨.new _, failed_returns, fun hs => ?_⟩
  have hbefore : ∀ fuel, call (fun _ => false) (.get 5) blank fuel = .ok (.value NULL, blank) := fun _ => rfl
  have hafter : ∀ fuel, call (fun _ => false) (.get 5) (storeAll blank failedLog) fuel =
      .ok (.value 7, storeAll blank failedLog) := fun _ => rfl
  obtain ⟨m₁, hr⟩ := ((hs 5).1 (.value NULL)).mp ⟨_, 0, fun fuel _ => hbefore fuel⟩
  cases hr.unique ⟨0, fun fuel _ => hafter fuel⟩

theorem tcradix_insert_atomic_iff_first :
    SameAnswers (fun _ => false) blank (storeAll blank failedLog) ↔ Harmless blank 5 7 :=
  tcradix_insert_atomic_iff (.new _) (by decide) failed_returns

end Ptok.Tcradix
