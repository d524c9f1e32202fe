import Ptok.Critnib.History
import Ptok.Critnib.Concurrent.Seek

/-!
# critnib_find_le among writers

`find_le` puts together what it sees at different moments. What it returns was the map's answer at some moment of the
call as long as the map changes calmly; else it need not be.
-/

namespace Ptok.Critnib

open Lib

attribute [local instance] keyOrder

variable {m : Mem} {g g' : Ghost} {key x : Word} {c i j n v fuel fuel₀ : ℕ} {mem : ℕ → Mem} {gh : ℕ → Ghost}
  {log rest : List Event} {ok : ℕ → Bool} {ops : List Op}

/-! ## The answer of a memory -/

/-- A leaf of the key is linked. -/
def Mem.HasKey (m : Mem) (key : Word) : Prop := ∃ k, m.Live (.leaf k) ∧ (m.leaf k).key = key

/-- The map, changed at the store that links or unlinks a leaf, has this value for the greatest key up to `key`. -/
def GivesLe (m : Mem) (key : Word) (v : ℕ) : Prop :=
  (∃ k, m.Live (.leaf k) ∧ (m.leaf k).key ≤ key ∧ (m.leaf k).value = v ∧
      ∀ x, m.HasKey x → x ≤ key → x ≤ (m.leaf k).key) ∨
    v = NULL ∧ ∀ x, m.HasKey x → ¬ x ≤ key

theorem Inv.exists_live (h : Inv m g) {l : Leaf} (hl : g.tree.Has l) : ∃ k, m.Live (.leaf k) ∧ m.leaf k = l := by
  obtain ⟨p, hp, hcell⟩ := h.rep.reaches_leaf hl
  cases p with
  | null => cases hcell
  | node a => cases hcell
  | leaf k =>
      cases hcell
      exact ⟨k, hp, rfl⟩

theorem Inv.hasKey_iff (h : Inv m g) : m.HasKey x ↔ g.tree.map x ≠ none := by
  rw [T.map_ne_none h.fits.routed]
  constructor
  · rintro ⟨k, hk, rfl⟩
    exact ⟨_, (sub_leaf_of_reaches h.rep hk).has rfl, rfl⟩
  · rintro ⟨l, hl, rfl⟩
    obtain ⟨k, hk, rfl⟩ := h.exists_live hl
    exact ⟨k, hk, rfl⟩

theorem Inv.givesLe_iff (h : Inv m g) : GivesLe m key v ↔ g.tree.map.LeVal key v := by
  constructor
  · rintro (⟨k, hk, hle, rfl, hmax⟩ | ⟨rfl, hnone⟩)
    · have hv : g.tree.map (m.leaf k).key = some (m.leaf k).value :=
        (T.map_eq_some h.fits.routed).mpr ⟨_, (sub_leaf_of_reaches h.rep hk).has rfl, rfl, rfl⟩
      exact .found ⟨by simp [hv], hle, fun x hx => hmax x (h.hasKey_iff.mpr hx)⟩ hv
    · exact .none fun x hx => BitVec.not_le.mp (hnone x (h.hasKey_iff.mpr hx))
  · intro hv
    cases hv with
    | @found z v hz hv =>
        obtain ⟨l, hl, rfl, rfl⟩ := (T.map_eq_some h.fits.routed).mp hv
        obtain ⟨k, hk, rfl⟩ := h.exists_live hl
        exact Or.inl ⟨k, hk, hz.2.1, rfl, fun x hx => hz.2.2 x (h.hasKey_iff.mp hx)⟩
    | none hnone => exact Or.inr ⟨rfl, fun x hx => BitVec.not_le.mpr (hnone x (h.hasKey_iff.mp hx))⟩

/-! ## Rounds of the loop -/

/-- Writers at work: the memory and the ghost between any two of the first `n` stores. -/
structure Moments (mem : ℕ → Mem) (gh : ℕ → Ghost) (n : ℕ) : Prop where
  step : ∀ t < n, ∃ e, Step (mem t) (gh t) e (gh (t + 1)) ∧ mem (t + 1) = (mem t).store e
  inv : ∀ t, Inv (mem t) (gh t)
  fed : ∀ t, Coding.Fed (gh t).tree
  count : ∀ t, (mem t).removeCount.toNat < 2 ^ 64 - 16

namespace Moments

theorem change (h : Moments mem gh n) {t : ℕ} (ht : t < n) : Change (maps gh t) (maps gh (t + 1)) := by
  obtain ⟨e, hs, -⟩ := h.step t ht
  exact hs.change (h.inv t)

theorem count_step (h : Moments mem gh n) {t : ℕ} (ht : t < n) :
    (mem t).removeCount.toNat ≤ (mem (t + 1)).removeCount.toNat := by
  obtain ⟨e, hs, hm⟩ := h.step t ht
  have := h.count t
  rw [hm, hs.removeCount]
  split
  · rw [BitVec.toNat_add]
    simp
    omega
  · exact le_rfl

theorem count_mono (h : Moments mem gh n) {s t : ℕ} (hst : s ≤ t) (ht : t ≤ n) :
    (mem s).removeCount.toNat ≤ (mem t).removeCount.toNat := by
  induction t, hst using Nat.le_induction with
  | base => exact le_rfl
  | succ t hst ih => exact (ih (by omega)).trans (h.count_step ht)

/-- What comes between two loads of `remove_count` of a round that is not repeated. -/
theorem within (h : Moments mem gh n) (hj : j ≤ n) (hc : c ≤ (mem i).removeCount.toNat)
    (hlife : (mem j).removeCount.toNat ≤ c + 15) : Within c mem gh i j where
  step := by
    intro t hi ht
    obtain ⟨e, hs, hm⟩ := h.step t (by omega)
    refine ⟨e, hs, hm, ⟨?_, ?_⟩⟩
    · rw [← hm]
      exact (h.count_mono (by omega) hj).trans hlife
    · rw [← hm]
      exact h.count_step (by omega)
  inv t _ _ := h.inv t
  fed t _ _ := h.fed t
  count t hi ht := hc.trans (h.count_mono hi (ht.trans hj))

end Moments

theorem findLeLookup_seek (hw : Within c mem gh i n) (hval : ∀ s, i ≤ s → s ≤ n → ∀ y, maps gh s y ≠ some NULL)
    (hj : j ≤ n) (hx : Prog.Timed Mem.load mem i (findLeLookup key fuel) (.ok v) j) :
    Outcome (maps gh) (· ≤ key) i j v := by
  obtain ⟨s, his, hx⟩ := hx.of_get_bind
  have hsj := hx.le
  have hcov := (hw.inv s his (hsj.trans hj)).covers_root
  have hgrow : Outcome (maps gh) (fun y => True ∧ y ≤ key) s j v → Outcome (maps gh) (· ≤ key) i j v := fun h =>
    h.grow his (fun y hy => hy.2) (fun y hy => Or.inl ⟨trivial, hy⟩) hsj
  by_cases hroot : Mem.load (mem s) .root = .null
  · rw [if_pos hroot] at hx
    cases hx.of_ret
    rw [show (mem s).root = .null from hroot] at hcov
    cases hcov with
    | null hnone => exact hgrow (Or.inr ⟨rfl, fun y hy => ⟨s, le_rfl, hsj, hnone y trivial⟩⟩)
  · rw [if_neg hroot] at hx
    exact hgrow (findLe_seek (hw.mono his) (fun r hr => hval r (his.trans hr)) hcov hj hx)

/-- The round that is not repeated. -/
theorem Moments.untilFresh (h : Moments mem gh n) (hval : ∀ t y, maps gh t y ≠ some NULL) (hj : j ≤ n)
    (hx : Prog.Timed Mem.load mem i (untilFresh (findLeLookup key fuel₀) fuel) (.ok v) j) :
    ∃ i' j', i ≤ i' ∧ j' ≤ j ∧ Outcome (maps gh) (· ≤ key) i' j' v := by
  induction fuel generalizing i with
  | zero => cases hx.of_ret
  | succ fuel ih =>
      obtain ⟨s₁, h₁, hx⟩ := hx.of_get_bind
      obtain ⟨res, s₂, hround, hx⟩ := hx.bind_ok
      obtain ⟨s₃, h₃, hx⟩ := hx.of_get_bind
      by_cases hstale : Mem.load (mem s₁) .removeCount + DELETED_LIFE ≤ Mem.load (mem s₃) .removeCount
      · rw [if_pos hstale] at hx
        obtain ⟨i', j', hi, hj', hends⟩ := ih hx
        exact ⟨i', j', (h₁.trans (hround.le.trans h₃)).trans hi, hj', hends⟩
      · rw [if_neg hstale] at hx
        cases hx.of_ret
        have hs₃ := hx.le
        have hcount := h.count s₁
        have hadd : ((mem s₁).removeCount + DELETED_LIFE).toNat = (mem s₁).removeCount.toNat + 16 := by
          rw [BitVec.toNat_add]
          exact Nat.mod_eq_of_lt (by simp; omega)
        have hfresh : ¬ ((mem s₁).removeCount + DELETED_LIFE).toNat ≤ (mem s₃).removeCount.toNat := hstale
        rw [hadd] at hfresh
        have hw : Within (mem s₁).removeCount.toNat mem gh s₁ s₃ := h.within (hs₃.trans hj) le_rfl (by omega)
        exact ⟨s₁, s₂, h₁, h₃.trans hs₃, findLeLookup_seek hw (fun r _ _ => hval r) h₃ hround⟩

/-- In calm times the answer was right at some moment. -/
theorem Moments.current (h : Moments mem gh n) (hval : ∀ t y, maps gh t y ≠ some NULL) (hj : j ≤ n)
    (hx : Prog.Timed Mem.load mem i (critnibFindLe key fuel) (.ok v) j)
    (hcalm : ∀ t < n, Calm (fun t => (mem t).HasKey) key t) : ∃ t ≤ j, GivesLe (mem t) key v := by
  have hbound : (fun t => (mem t).HasKey) = Bound (maps gh) := by
    funext t x
    exact propext (h.inv t).hasKey_iff
  rw [hbound] at hcalm
  have hchange : ∀ t < n, Change (maps gh t) (maps gh (t + 1)) := fun t ht => h.change ht
  obtain ⟨i', j', -, hj', (hfound | ⟨hlost, -⟩) | ⟨rfl, hnone⟩⟩ := h.untilFresh hval hj hx
  · obtain ⟨t, ht, z, hv, hle, hmax⟩ := hfound.current hchange hcalm (hj'.trans hj)
    refine ⟨t, ht.trans hj', (h.inv t).givesLe_iff.mpr (.found ⟨?_, hle, fun k hk hkq => hmax k hkq hk⟩ hv)⟩
    rw [show (gh t).tree.map z = some v from hv]
    simp
  · exact absurd hlost (Calm.not_lost hchange hcalm (hj'.trans hj))
  · obtain ⟨t, ht, hnone⟩ := hnone.current hchange hcalm (hj'.trans hj)
    refine ⟨t, ht.trans hj', (h.inv t).givesLe_iff.mpr (.none fun k hk => ?_)⟩
    exact BitVec.not_le.mp fun hle => hk (hnone k hle)

/-! ## The whole call -/

/-- The ghosts of a path. -/
theorem Path.ghosts (hp : Path m g log g') (h : Inv m g) :
    ∃ gh : ℕ → Ghost, gh 0 = g ∧ (∀ t, Inv (storeAll m (log.take t)) (gh t)) ∧ ∀ t < log.length,
      ∃ e, Step (storeAll m (log.take t)) (gh t) e (gh (t + 1)) ∧
        storeAll m (log.take (t + 1)) = (storeAll m (log.take t)).store e := by
  induction hp with
  | nil m g => exact ⟨fun _ => g, rfl, by simpa using h, by simp⟩
  | @cons m g g₁ g' e log hs _ ih =>
      obtain ⟨gh, hzero, hinv, hstep⟩ := ih (hs.inv h)
      refine ⟨fun t => t.casesOn g gh, rfl, fun t => ?_, fun t ht => ?_⟩
      · cases t with
        | zero => exact h
        | succ t => exact hinv t
      · cases t with
        | zero =>
            refine ⟨e, ?_, rfl⟩
            simpa [hzero] using hs
        | succ t => exact hstep t (by simpa using ht)

/-- Part of a run of inserts and removes from a new structure. -/
theorem Writes.moments {node : Addr → Node} {leaf : Addr → Leaf} {l : List Event}
    (hw : Writes ok (critnibNew node leaf) ops (l ++ log ++ rest)) (hops : ops.countP Op.IsRemove < 2 ^ 64 - 16) :
    ∃ gh, Moments (fun t => storeAll (critnibNew node leaf) (l ++ log.take t)) gh log.length ∧
      ((∀ op ∈ ops, op.NonNull) → ∀ t y, maps gh t y ≠ some NULL) := by
  have hnew := quiet_new node leaf
  obtain ⟨g', hp⟩ := hnew.path hw
  have hdraws := hw.draws_le
  rw [draws_append] at hdraws
  obtain ⟨g₂, hp, -⟩ := hp.split
  obtain ⟨g₁, hp₁, hp₂⟩ := hp.split
  obtain ⟨gh, -, hinv, hstep⟩ := hp₂.ghosts (hp₁.inv hnew.toInv)
  simp only [← storeAll_append] at hinv hstep
  -- the tree at each moment is the one that stands for some of the calls
  have hmoment : ∀ t, ∃ g, Moment ok (critnibNew node leaf) ops (l ++ log.take t) g ∧ g.tree = (gh t).tree := by
    intro t
    have hsplit : l ++ log ++ rest = (l ++ log.take t) ++ (log.drop t ++ rest) := by
      rw [List.append_assoc l, List.append_assoc, ← List.append_assoc (log.take t), List.take_append_drop]
    obtain ⟨g, hg⟩ := hnew.moment (hsplit ▸ hw)
    exact ⟨g, hg, hg.inv.rep.unique (hinv t).rep⟩
  refine ⟨gh, ⟨hstep, hinv, fun t => ?_, fun t => ?_⟩, fun hval t y => ?_⟩
  · obtain ⟨g, hg, ht⟩ := hmoment t
    exact ht ▸ hg.fed
  · have hsplit : l ++ log = (l ++ log.take t) ++ log.drop t := by simp
    rw [hsplit] at hp hdraws
    obtain ⟨g, hp₃, -⟩ := hp.split
    rw [draws_append] at hdraws
    have hzero : (critnibNew node leaf).removeCount.toNat = 0 := rfl
    rw [hp₃.removeCount (by omega)]
    omega
  · obtain ⟨g, hg, ht⟩ := hmoment t
    obtain ⟨ops₁, log₁, g₂, hu, hw₁, hq, hmap⟩ := hg.upto
    obtain ⟨f, hf⟩ := (Reached.new node leaf).calls hw₁.toCalls
    obtain ⟨g₃, hq₃, rfl⟩ := hf.quiet
    have hnull := hf.nonNull (fun op hop => hval op (hu.calls.subset (by simpa using hop)))
    rw [maps, ← ht, hmap, hq.rep.unique hq₃.rep]
    exact hnull y

/-- Readers among the stores of a run, of which so far some prefix was made. Reader `i` calls `critnib_find_le`; if it
has returned, and while it was at work the stores changed the map calmly, then the map gave its answer at some moment
since the call. -/
theorem critnib_findLe_current {node : Addr → Node} {leaf : Addr → Leaf}
    (hw : Writes ok (critnibNew node leaf) ops (log ++ rest)) (hops : ops.countP Op.IsRemove < 2 ^ 64 - 16)
    (hval : ∀ op ∈ ops, op.NonNull) {ι : Type} [DecidableEq ι] {ps ps' : ι → R ℕ}
    {before during : List (Sys.Act ι Event Loc Loc.Val ℕ)} {i : ι}
    (hx : Sys.Exec Mem.load (critnibNew node leaf) ps (before ++ .call i (critnibFindLe key fuel) :: during) ps')
    (hlog : Sys.stores (before ++ .call i (critnibFindLe key fuel) :: during) = log)
    (hcall : ∀ p, .call i p ∉ during) (hret : ps' i = .ret (.ok v))
    (hcalm : ∀ t < (Sys.stores during).length, Calm
      (fun t => (storeAll (critnibNew node leaf) (Sys.stores before ++ (Sys.stores during).take t)).HasKey) key t) :
    ∃ s t, during = s ++ t ∧ GivesLe (storeAll (critnibNew node leaf) (Sys.stores before ++ Sys.stores s)) key v := by
  subst hlog
  obtain ⟨s, t, tr, rfl, hexec, hstores⟩ := hx.lookup hcall hret
  rw [Sys.stores_append, Sys.stores] at hw
  obtain ⟨gh, hmoments, hnull⟩ := hw.moments hops
  have htimed : Prog.Timed Mem.load
      (fun k => storeAll (critnibNew node leaf) (Sys.stores before ++ (Sys.stores (s ++ t)).take k)) 0
      (critnibFindLe key fuel) (.ok v) (0 + (stores tr).length) := by
    refine hexec.timed fun k hk => ?_
    rw [hstores] at hk ⊢
    rw [Nat.zero_add, storeAll_append, Sys.stores_append, List.take_append_of_le_length hk]
  rw [Nat.zero_add, hstores] at htimed
  have hlen : (Sys.stores s).length ≤ (Sys.stores (s ++ t)).length := by
    rw [Sys.stores_append, List.length_append]
    exact Nat.le_add_right _ _
  obtain ⟨k, hk, hgives⟩ := hmoments.current (hnull hval) hlen htimed hcalm
  rw [Sys.stores_append, List.take_append_of_le_length hk] at hgives
  obtain ⟨s₁, s₂, rfl, hs₁⟩ := Sys.stores_split (List.take_append_drop k (Sys.stores s)).symm
  exact ⟨s₁, s₂ ++ t, by simp, hs₁ ▸ hgives⟩

/-- A single store is calm. -/
theorem calm_zero {B : ℕ → Word → Prop} : Calm B key 0 := by
  have hold : ∀ y, ¬ New B 0 y := fun y h => h.2 fun s hs => by rw [Nat.le_zero.mp hs]; exact h.1
  exact ⟨fun _ _ _ _ y _ hy => absurd hy (hold y), fun _ _ _ _ y _ hy => absurd hy (hold y)⟩

/-- A search for 9 while 5 is linked. -/
theorem insert_findLe : Sys.Exec Mem.load blank (fun _ => .ret (.ok 0))
    (insertBefore ++ .call () (critnibFindLe 9 2) :: insertDuring) fun _ => .ret (.ok 7) :=
  .store (.store (.store (.call rfl (.load rfl (.store (.load rfl (.load rfl (.load rfl (.load rfl (.nil _ _))))))))))

theorem critnib_findLe_current_insert : ∃ s t, insertDuring = s ++ t ∧
    GivesLe (storeAll blank (Sys.stores insertBefore ++ Sys.stores s)) 9 7 := by
  refine critnib_findLe_current insert_writes (by decide) (by simp [Op.NonNull]) insert_findLe rfl
    (by simp [insertDuring]) rfl fun t ht => ?_
  obtain rfl : t = 0 := by simpa [insertDuring, Sys.stores] using ht
  exact calm_zero

/-! ## When the map does not change calmly -/

/-- Keys 1 and 2 share a node. A search for 5 goes past slot 4, then 4 is inserted; it goes past slot 3, then 2 is
removed; and so it comes to 1. -/
def staleSched (log : List Event) : List (Act Loc Event) :=
  [.load .removeCount, .load .root, .load (.path 0), .load (.shift 0), .load (.shift 0), .load (.child 0 5),
    .load (.child 0 4)] ++ (log.take 4).map .store ++ [.load (.child 0 3)] ++ (log.drop 4).map .store ++
    [.load (.child 0 2), .load (.child 0 1), .load (.value 1), .load .removeCount]

theorem stores_staleSched (log : List Event) : stores (staleSched log) = log := by
  simp only [staleSched, stores_append, Prog.stores_map_store, stores_load, stores_nil, List.nil_append,
    List.append_nil]
  exact List.take_append_drop 4 log

/-- The map before the two calls. -/
def staleMap : KMap := (KMap.empty.bind 1 1).bind 2 2

theorem not_leVal {f : KMap} {p : Word} (hp : f p ≠ none) (hle : p ≤ 5) (h : ∀ k, f k = some 1 → k < p) :
    ¬ f.LeVal 5 1 := by
  intro hv
  cases hv with
  | found hz hv => exact BitVec.not_le.mpr (h _ hv) (hz.2.2 p hp hle)

/-- Before and after the two calls, and in between. -/
theorem stale_maps {ops : List Op} (h : ops <+: [.insert 4 4, .remove 2]) :
    ¬ (ops.foldl Critnib.after staleMap).LeVal 5 1 := by
  have hstart : ∀ k, staleMap k = some 1 → k = 1 := by
    intro k hk
    by_cases h2 : k = 2
    · simp [h2, staleMap] at hk
    · by_contra h1
      rw [staleMap, KMap.bind_of_ne _ _ h2, KMap.bind_of_ne _ _ h1] at hk
      cases hk
  have hmid : ∀ k, staleMap.bind 4 4 k = some 1 → k = 1 := by
    intro k hk
    by_cases h4 : k = 4
    · simp [h4] at hk
    · rw [KMap.bind_of_ne _ _ h4] at hk
      exact hstart k hk
  have hlast : ∀ k, ((staleMap.bind 4 4).unbind 2) k = some 1 → k = 1 := by
    intro k hk
    by_cases h2 : k = 2
    · simp [h2] at hk
    · rw [KMap.unbind_of_ne _ h2] at hk
      exact hmid k hk
  rcases List.prefix_cons_iff.mp h with rfl | ⟨ops₁, rfl, hrest⟩
  · refine not_leVal (p := 2) (by decide) (by decide) fun k hk => ?_
    rw [hstart k hk]
    decide
  · rcases List.prefix_cons_iff.mp hrest with rfl | ⟨ops₂, rfl, hnil⟩
    · refine not_leVal (p := 4) (by decide) (by decide) fun k hk => ?_
      rw [hmid k hk]
      decide
    · obtain rfl := List.prefix_nil.mp hnil
      refine not_leVal (p := 4) (by decide) (by decide) fun k hk => ?_
      rw [hlast k hk]
      decide

/-- The value that `critnib_find_le` returns here is not the answer at any moment. -/
theorem critnib_findLe_stale : ∃ m f s rest, Reached (fun _ => true) [.insert 1 1, .insert 2 2] m f ∧
    Writes (fun _ => true) m [.insert 4 4, .remove 2] (stores s ++ rest) ∧
    Prog.Exec Mem.load m s (critnibFindLe 5 3) (.ok 1) ∧
    ∀ l l', stores s = l ++ l' → ¬ GivesLe (storeAll m l) 5 1 := by
  have hrun : (runAll (fun _ => true) 17 [.insert 1 1, .insert 2 2] blank).bind (fun m =>
      (storesOf (fun _ => true) 17 [.insert 4 4, .remove 2] m).bind fun log =>
        Prog.run Mem.load m (staleSched log) (critnibFindLe 5 3)) = some (.ok 1) := by
    decide +kernel
  obtain ⟨m, hm, hrun⟩ := Option.bind_eq_some_iff.mp hrun
  obtain ⟨log, hlog, hrun⟩ := Option.bind_eq_some_iff.mp hrun
  have hops : ∀ op ∈ [Op.insert 1 1, .insert 2 2], op.IsUpdate := by simp [Op.IsUpdate]
  have hcalls := calls_of_runAll (by decide) hops (.new _ _) hm
  obtain ⟨f, hf⟩ := (Reached.new _ _).calls hcalls
  obtain ⟨g, hq, hstart⟩ := (quiet_new _ _).calls hcalls
  have hwrites := hq.writes_of_run (by decide) hlog
  refine ⟨m, f, staleSched log, [], hf, ?_, Prog.exec_of_run hrun, ?_⟩
  · rw [stores_staleSched, List.append_nil]
    exact hwrites
  · intro l l' hl
    rw [stores_staleSched] at hl
    subst hl
    obtain ⟨g₁, hg⟩ := hq.moment hwrites
    obtain ⟨ops₁, log₁, g₂, hu, hw, hq₂, hmap⟩ := hg.upto
    obtain ⟨g₃, hq₃, hafter⟩ := hq.calls hw.toCalls
    rw [hg.inv.givesLe_iff, hmap, hq₂.rep.unique hq₃.rep, hafter, hstart]
    exact stale_maps hu.calls

end Ptok.Critnib
