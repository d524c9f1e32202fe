import Ptok.Lib.Ghost

/-!
# One order of calls

Each call of a writer changes what the memory shows with one of its stores. So at every moment of a run the memory shows
what some of the calls leave: those that are done, and maybe the one that is at work.
-/

namespace Ptok.Lib

/-! ## Partial maps -/

section

variable {α β : Type} {f f₁ f' : α → Option β}

theorem map_antisymm (h : ∀ k v, f k = some v → f' k = some v) (h' : ∀ k v, f' k = some v → f k = some v) : f = f' := by
  funext k
  exact Option.ext fun v => ⟨h k v, h' k v⟩

/-- A map between two maps that differ at one key is one of them. -/
theorem eq_or_eq_of_between {key : α} (h : ∀ k v, f k = some v → f₁ k = some v) (h' : ∀ k v, f₁ k = some v → f' k = some v)
    (hne : ∀ k, k ≠ key → f k = f' k) : f₁ = f ∨ f₁ = f' := by
  have hother : ∀ k, k ≠ key → f₁ k = f k ∧ f₁ k = f' k := by
    intro k hk
    cases hf : f k with
    | some v => exact ⟨h k v hf, by rw [← hne k hk, hf]; exact h k v hf⟩
    | none =>
        have hf₁ : f₁ k = none := by
          refine Option.eq_none_iff_forall_ne_some.mpr fun v hv => ?_
          rw [hne k hk] at hf
          cases hf.symm.trans (h' k v hv)
        exact ⟨hf₁, by rw [← hne k hk, hf, hf₁]⟩
  cases hkey : f₁ key with
  | none =>
      left
      funext k
      by_cases hk : k = key
      · subst hk
        rw [hkey]
        exact (Option.eq_none_iff_forall_ne_some.mpr fun v hv => by cases hkey.symm.trans (h k v hv)).symm
      · exact (hother k hk).1
  | some v =>
      right
      funext k
      by_cases hk : k = key
      · subst hk
        rw [hkey, h' k v hkey]
      · exact (hother k hk).2

end

variable {M E Op R A : Type} [Storable M E] {Shows : M → A → Prop} {m : M} {a a' : A} {log log' l l' : List E}

/-! ## One call -/

/-- The memory shows one thing until some store, and another one from then on. -/
def Turns (Shows : M → A → Prop) (m : M) (log : List E) (a a' : A) (s : ℕ) : Prop :=
  ∀ l l', log = l ++ l' → Shows (storeAll m l) (if l.length < s then a else a')

/-- It does if there is nothing in between, and no way back. -/
theorem exists_turns {r : A → A → Prop} (hanti : ∀ {a a'}, r a a' → r a' a → a = a') (ha : Shows m a)
    (hends : ∀ {l l'}, log = l ++ l' → Shows (storeAll m l) a ∨ Shows (storeAll m l) a')
    (hdir : ∀ {l c l' b b'}, log = l ++ (c ++ l') → Shows (storeAll m l) b → Shows (storeAll m (l ++ c)) b' → r b b') :
    ∃ s, Turns Shows m log a a' s := by
  classical
  let P : ℕ → Prop := fun t => ∃ l l', log = l ++ l' ∧ l.length = t ∧ Shows (storeAll m l) a'
  by_cases hex : ∃ t, P t
  · refine ⟨Nat.find hex, fun l l' hlog => ?_⟩
    split
    · rename_i hlt
      exact (hends hlog).resolve_right fun h => Nat.find_min hex hlt ⟨l, l', hlog, rfl, h⟩
    · rename_i hge
      obtain ⟨l₀, l₁, hlog₀, hlen, h₀⟩ := Nat.find_spec hex
      obtain ⟨c, rfl⟩ : l₀ <+: l := by
        have hpre : l₀ <+: log := ⟨l₁, hlog₀.symm⟩
        exact List.prefix_of_prefix_length_le hpre ⟨l', hlog.symm⟩ (by omega)
      -- a way back would make both the same
      rcases hends hlog with h | h
      · have hback := hdir (by simpa using hlog) h₀ h
        have hfwd := hdir (l := []) (c := l₀) (by simpa using hlog₀) ha h₀
        rwa [← hanti hfwd hback]
      · exact h
  · refine ⟨log.length + 1, fun l l' hlog => ?_⟩
    rw [if_pos (by simp [hlog])]
    exact (hends hlog).resolve_right fun h => hex ⟨_, l, l', hlog, rfl, h⟩

/-! ## A run -/

variable {pre : M → Op → Prop} {run : Op → ℕ → Wr M E R} {op : Op} {ops ops₁ : List Op} {r : R}

/-- The calls that count when these stores have been made: all that are done, and of the others only what has begun. -/
structure Counted (pre : M → Op → Prop) (run : Op → ℕ → Wr M E R) (m : M) (ops : List Op) (l : List E)
    (ops₁ : List Op) : Prop where
  calls : ops₁ <+: ops
  done : ∀ ops₀ log₀, ops₀ <+: ops → Runs pre run m ops₀ log₀ → log₀ <+: l → ops₀ <+: ops₁
  begun : ∀ ops₀ op log₀, ops₀ ++ [op] <+: ops₁ → Runs pre run m ops₀ log₀ → log₀ <+: l

/-- So many calls count when so many stores have been made, and the memory shows what they leave. -/
structure Ordered (pre : M → Op → Prop) (run : Op → ℕ → Wr M E R) (I Shows : M → A → Prop) (m : M) (ops : List Op)
    (log : List E) (count : ℕ → ℕ) : Prop where
  mono : Monotone count
  counted : ∀ l l', log = l ++ l' → Counted pre run m ops l (ops.take (count l.length))
  shows : ∀ l l', log = l ++ l' → ∃ log₁ a, Runs pre run m (ops.take (count l.length)) log₁ ∧ I (storeAll m log₁) a ∧
    Shows (storeAll m l) a

theorem Runs.uncons (hr : Returns (fun fuel => run op fuel m) (r, log)) (h : Runs pre run m (op :: ops) l) :
    ∃ l', l = log ++ l' ∧ Runs pre run (storeAll m log) ops l' := by
  cases h with
  | cons _ hr' t =>
      cases hr.unique hr'
      exact ⟨_, rfl, t⟩

/-- The first call is at work. -/
theorem Counted.head (hr : Returns (fun fuel => run op fuel m) (r, l ++ l')) (hl : l' ≠ []) (h₁ : ops₁ <+: [op]) :
    Counted pre run m (op :: ops) l ops₁ where
  calls := h₁.trans (List.prefix_append [op] ops)
  done ops₀ log₀ hops hw hlog := by
    cases ops₀ with
    | nil => exact List.nil_prefix
    | cons op' ops₀ =>
        obtain ⟨rfl, -⟩ := List.cons_prefix_cons.mp hops
        obtain ⟨c, rfl, -⟩ := hw.uncons hr
        have hlen := hlog.length_le
        have := List.length_pos_iff.mpr hl
        simp only [List.length_append] at hlen
        omega
  begun ops₀ op' log₀ hops hw := by
    have hlen := (hops.trans h₁).length_le
    have hnil : ops₀ = [] := List.eq_nil_of_length_eq_zero (by simpa using hlen)
    subst hnil
    cases hw
    exact List.nil_prefix

/-- The first call is done. -/
theorem Counted.cons (hr : Returns (fun fuel => run op fuel m) (r, log))
    (h : Counted pre run (storeAll m log) ops l ops₁) : Counted pre run m (op :: ops) (log ++ l) (op :: ops₁) where
  calls := List.cons_prefix_cons.mpr ⟨rfl, h.calls⟩
  done ops₀ log₀ hops hw hlog := by
    cases ops₀ with
    | nil => exact List.nil_prefix
    | cons op' ops₀ =>
        obtain ⟨rfl, hrest⟩ := List.cons_prefix_cons.mp hops
        obtain ⟨c, rfl, hw'⟩ := hw.uncons hr
        exact List.cons_prefix_cons.mpr ⟨rfl, h.done ops₀ c hrest hw' ((List.prefix_append_right_inj log).mp hlog)⟩
  begun ops₀ op' log₀ hops hw := by
    cases ops₀ with
    | nil =>
        cases hw
        exact List.nil_prefix
    | cons op'' ops₀ =>
        obtain ⟨rfl, hrest⟩ := List.cons_prefix_cons.mp hops
        obtain ⟨c, rfl, hw'⟩ := hw.uncons hr
        exact (List.prefix_append_right_inj log).mpr (h.begun ops₀ op' c hrest hw')

theorem Ordered.cons {I : M → A → Prop} {s : ℕ} {count : ℕ → ℕ} (hpre : pre m op)
    (hr : Returns (fun fuel => run op fuel m) (r, log)) (ha : I m a) (ha' : I (storeAll m log) a')
    (hs : Turns Shows m log a a' s) (h : Ordered pre run I Shows (storeAll m log) ops log' count) :
    Ordered pre run I Shows m (op :: ops) (log ++ log')
      (fun t => if t < log.length then if t < s then 0 else 1 else count (t - log.length) + 1) where
  mono := by
    intro t t' ht
    have hmono : count (t - log.length) ≤ count (t' - log.length) := h.mono (by omega)
    dsimp only
    by_cases hlt : t' < log.length
    · rw [if_pos hlt, if_pos (ht.trans_lt hlt)]
      split <;> split <;> omega
    · rw [if_neg hlt]
      split
      · split <;> omega
      · omega
  counted l c he := by
    rcases List.append_eq_append_iff.mp he with ⟨c', rfl, rfl⟩ | ⟨c', rfl, rfl⟩
    · simpa using Counted.cons hr (h.counted c' c rfl)
    · by_cases hc : c' = []
      · subst hc
        simp only [List.append_nil] at hr h ⊢
        simpa using Counted.cons (l := []) hr (h.counted [] log' rfl)
      · have hlt : l.length < (l ++ c').length := by simpa using List.length_pos_iff.mpr hc
        simp only [if_pos hlt]
        refine .head hr hc ?_
        split <;> simp
  shows l c he := by
    have hdone : ∀ {c c'}, log' = c ++ c' → ∃ log₁ b, Runs pre run m ((op :: ops).take (count c.length + 1)) log₁ ∧
        I (storeAll m log₁) b ∧ Shows (storeAll m (log ++ c)) b := by
      intro c c' hc
      obtain ⟨log₁, b, hw, hb, hshows⟩ := h.shows c c' hc
      exact ⟨log ++ log₁, b, .cons hpre hr hw, by rwa [storeAll_append], by rwa [storeAll_append]⟩
    rcases List.append_eq_append_iff.mp he with ⟨c', rfl, rfl⟩ | ⟨c', rfl, rfl⟩
    · simpa using hdone (c := c') rfl
    · by_cases hc : c' = []
      · subst hc
        simpa using hdone (c := []) rfl
      · have hlt : l.length < (l ++ c').length := by simpa using List.length_pos_iff.mpr hc
        have hshows := hs l c' rfl
        simp only [if_pos hlt]
        by_cases hbefore : l.length < s
        · rw [if_pos hbefore] at hshows ⊢
          exact ⟨[], a, .nil m, ha, hshows⟩
        · rw [if_neg hbefore] at hshows ⊢
          have hone : Runs pre run m [op] ((l ++ c') ++ []) := .cons hpre hr (.nil _)
          rw [List.append_nil] at hone
          exact ⟨_, a', hone, ha', hshows⟩

/-- Every call turns what the memory shows, so every run has such an order. -/
theorem Runs.ordered {I : M → A → Prop} (hshows : ∀ {m a}, I m a → Shows m a)
    (hop : ∀ {m a op}, I m a → pre m op → ∃ r log a' s, Returns (fun fuel => run op fuel m) (r, log) ∧
      I (storeAll m log) a' ∧ Turns Shows m log a a' s)
    (h : Runs pre run m ops log) (ha : I m a) : ∃ count, Ordered pre run I Shows m ops log count := by
  induction h generalizing a with
  | nil m =>
      refine ⟨fun _ => 0, monotone_const, fun l l' _ => ⟨List.nil_prefix, ?_, ?_⟩, fun l l' he => ?_⟩
      · exact fun ops₀ _ hops _ _ => hops
      · intro ops₀ op log₀ hops
        simpa using hops.length_le
      · obtain ⟨rfl, rfl⟩ := List.append_eq_nil_iff.mp he.symm
        exact ⟨[], a, .nil m, ha, hshows ha⟩
  | cons hpre hr _ ih =>
      obtain ⟨r', log, a', s, hr', ha', hs⟩ := hop ha hpre
      cases hr.unique hr'
      obtain ⟨count, ho⟩ := ih ha'
      exact ⟨_, ho.cons hpre hr ha ha' hs⟩

end Ptok.Lib
