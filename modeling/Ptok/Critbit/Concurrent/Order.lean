import Ptok.Lib.Order
import Ptok.Critbit.Concurrent.Current

/-!
# One order of all calls of critbit

An insert counts from the store that links its leaf, a remove from the one that unlinks it. Each lookup that is not
misled by a link can be put at a moment of its own call, and it returned what the calls before it had left.
-/

namespace Ptok.Critbit

open Lib

variable {m : Mem} {g g₁ g₂ g' : Ghost} {e : Event} {Q : Leaf → Prop} {log l : List Event} {key : Word} {value v : ℕ}
  {ok : ℕ → Bool} {f : KMap} {ws : List Write}

/-! ## The stores of a call -/

def Event.IsPush : Event → Bool
  | .deletedNode _ => true
  | _ => false

def Event.IsMalloc : Event → Bool
  | .zalloc _ => true
  | _ => false

theorem linkSplit_noPush (key : Word) (k : Addr) (s : Slot Addr (Fin 2)) (n : Addr) :
    Wr.Emits (fun e => e.IsPush = false) (linkSplit key k s n) :=
  .bind (.query _) fun _ => .bind (.emit rfl) fun _ => .bind (.emit rfl) fun _ => .bind (.emit rfl) fun _ =>
    .bind (.emit rfl) fun _ => .emit rfl

/-- An insert puts nothing into the list of removed leaves. -/
theorem critbitInsert_noPush (ok : ℕ → Bool) (fuel : ℕ) (key : Word) (value : ℕ) :
    Wr.Emits (fun e => e.IsPush = false) (critbitInsert ok fuel key value) := by
  refine .bind (.bind (.read _) fun _ => .bind (.read _) fun _ => .bind (.emit rfl) fun _ => .pure _) fun k => ?_
  split
  · exact .pure _
  · refine .bind (.emit rfl) fun _ => .bind (.emit rfl) fun _ => .bind (.read _) fun root => ?_
    split
    · exact .bind (.emit rfl) fun _ => .pure _
    · refine .bind (.query _) fun r => ?_
      split
      exact .bind (linkSplit_noPush _ _ _ _) fun _ => .pure _

theorem freeNode_noMalloc (n : Addr) : Wr.Emits (fun e => e.IsMalloc = false) (freeNode n) :=
  .bind (.read _) fun _ => .bind (.emit rfl) fun _ => .emit rfl

/-- A remove mallocs nothing. -/
theorem critbitRemove_noMalloc (fuel : ℕ) (key : Word) :
    Wr.Emits (fun e => e.IsMalloc = false) (critbitRemove fuel key) := by
  refine .bind (.read _) fun n => ?_
  split
  · exact .pure _
  · refine .bind (.query _) fun x => ?_
    split
    · split
      · exact .bind (.emit rfl) fun _ => .bind (.read _) fun _ => .bind (freeNode_noMalloc _) fun _ => .pure _
      · exact .pure _
    · refine .bind (.query _) fun r => ?_
      split
      refine .bind (.query _) fun x => ?_
      split
      · exact .pure _
      · refine .bind (.query _) fun x => ?_
        split
        · exact .bind (.emit rfl) fun _ => .bind (.read _) fun _ => .bind (freeNode_noMalloc _) fun _ => .pure _
        · exact .bind (.emit rfl) fun _ => .bind (.read _) fun _ => .bind (freeNode_noMalloc _) fun _ => .pure _

theorem Step.cut_le (hs : Step Q m g e g') (he : e.IsPush = false) : g.cut ≤ g'.cut := by
  cases hs with
  | unlinkRoot => exact Multiset.le_cons_self _ _
  | splice => exact Multiset.le_cons_self _ _
  | push => cases he
  | _ => exact le_rfl

theorem Step.made_zero (hs : Step Q m g e g') (he : e.IsMalloc = false) (hm : g.made = 0) : g'.made = 0 := by
  cases hs with
  | zalloc => cases he
  | linkRoot _ _ hmade => simp [hm] at hmade
  | linkSplit _ _ _ _ _ hmade => simp [hm] at hmade
  | _ => exact hm

/-- No leaf is unlinked. -/
theorem Step.has_mono (hs : Step Q m g e g') (hcut : g'.cut = 0) (l : Leaf) (hl : g.tree.Has l) : g'.tree.Has l := by
  cases hs with
  | linkRoot _ hnil =>
      rw [hnil] at hl
      exact hl.elim
  | @linkSplit key path k a made fresh hq hne hkey hpath hat =>
      exact (Coding.has_plug_of (X := (· = m.leafAt k)) (fun l => splitTree_has hat l) l).mpr (Or.inr hl)
  | unlinkRoot => simp at hcut
  | splice => simp at hcut
  | _ => exact hl

/-- No leaf is linked. -/
theorem Step.has_anti (hs : Step Q m g e g') (h : Inv m g) (hm : g.made = 0) (l : Leaf) (hl : g'.tree.Has l) :
    g.tree.Has l := by
  cases hs with
  | linkRoot _ _ hmade => simp [hm] at hmade
  | linkSplit _ _ _ _ _ hmade => simp [hm] at hmade
  | unlinkRoot => exact hl.elim
  | splice hfoc hleaf hkey => exact ((splice_has hfoc hleaf h.wf.routed hkey l).mp hl).1
  | _ => exact hl

theorem Path.cut_le (hp : Path (Step Q) m g log g') (he : ∀ e ∈ log, e.IsPush = false) : g.cut ≤ g'.cut := by
  induction hp with
  | nil m g => exact le_rfl
  | cons hs _ ih =>
      exact (hs.cut_le (he _ List.mem_cons_self)).trans (ih fun e hm => he e (List.mem_cons_of_mem _ hm))

theorem Path.has_mono (hp : Path (Step Q) m g log g') (he : ∀ e ∈ log, e.IsPush = false) (hcut : g'.cut = 0) (l : Leaf)
    (hl : g.tree.Has l) : g'.tree.Has l := by
  induction hp with
  | nil m g => exact hl
  | cons hs t ih =>
      have he' := fun e hm => he e (List.mem_cons_of_mem _ hm)
      have hle := Path.cut_le t he'
      rw [hcut] at hle
      exact ih he' hcut (hs.has_mono (Multiset.le_zero.mp hle) l hl)

theorem Path.has_anti (hp : Path (Step Q) m g log g') (he : ∀ e ∈ log, e.IsMalloc = false) (h : Inv m g)
    (hm : g.made = 0) : g'.made = 0 ∧ ∀ l, g'.tree.Has l → g.tree.Has l := by
  induction hp with
  | nil m g => exact ⟨hm, fun _ hl => hl⟩
  | cons hs _ ih =>
      obtain ⟨hm', hback⟩ := ih (fun e he' => he e (List.mem_cons_of_mem _ he')) (hs.inv h)
        (hs.made_zero (he _ List.mem_cons_self) hm)
      exact ⟨hm', fun l hl => hs.has_anti h hm l (hback l hl)⟩

theorem T.map_le {t t' : T} (ht : bits.Routed t) (ht' : bits.Routed t') (h : ∀ l, t.Has l → t'.Has l) (k : Word) (v : ℕ)
    (hv : t.map k = some v) : t'.map k = some v := by
  obtain ⟨l, hl, hk⟩ := (Coding.mapOf_eq_some ht).mp hv
  exact (Coding.mapOf_eq_some ht').mpr ⟨l, h l hl, hk⟩

/-! ## The map changes once -/

/-- The map that a memory stands for. -/
def Shows (m : Mem) (f : KMap) : Prop := ∃ g, Inv m g ∧ g.tree.map = f

/-- While nobody is at work. -/
def Rests (m : Mem) (f : KMap) : Prop := ∃ g, Quiet m g ∧ g.tree.map = f

theorem Rests.shows (h : Rests m f) : Shows m f := by
  obtain ⟨g, hq, hf⟩ := h
  exact ⟨g, hq.toInv, hf⟩

theorem Shows.unique {f' : KMap} (h : Shows m f) (h' : Shows m f') : f = f' := by
  obtain ⟨g, hg, rfl⟩ := h
  obtain ⟨g', hg', rfl⟩ := h'
  rw [hg.rep.unique hg'.rep]

theorem Shows.binds_iff (h : Shows m f) : Binds m key v ↔ f key = some v := by
  obtain ⟨g, hg, rfl⟩ := h
  exact hg.binds_iff

/-- The map goes from one to the other in steps that all have one direction, and there is nothing in between. -/
theorem Path.turns (hp : Path (Step Q) m g log g') (h : Inv m g) {r : KMap → KMap → Prop}
    (hanti : ∀ {f f'}, r f f' → r f' f → f = f')
    (hends : ∀ {f}, r g.tree.map f → r f g'.tree.map → f = g.tree.map ∨ f = g'.tree.map)
    (hdir : ∀ {l c l' g₁ g₂}, log = l ++ (c ++ l') → Path (Step Q) m g l g₁ → Path (Step Q) (storeAll m l) g₁ c g₂ →
      Path (Step Q) (storeAll (storeAll m l) c) g₂ l' g' → r g₁.tree.map g₂.tree.map) :
    ∃ s, Turns Shows m log g.tree.map g'.tree.map s := by
  refine exists_turns hanti ⟨g, h, rfl⟩ ?_ ?_
  · rintro l l' rfl
    obtain ⟨g₁, hp₁, hp₂⟩ := hp.split
    have hfrom : r g.tree.map g₁.tree.map := hdir (l := []) rfl (.nil m g) hp₁ hp₂
    have hto : r g₁.tree.map g'.tree.map := hdir (by simp : l ++ l' = l ++ (l' ++ [])) hp₁ hp₂ (.nil _ _)
    exact (hends hfrom hto).imp (fun he => ⟨g₁, hp₁.inv Step.inv h, he⟩) fun he => ⟨g₁, hp₁.inv Step.inv h, he⟩
  · rintro l c l' b b' rfl hb hb'
    obtain ⟨g₁, hp₁, hp₂⟩ := hp.split
    obtain ⟨g₂, hp₂, hp₃⟩ := hp₂.split
    have hinv := hp₁.inv Step.inv h
    rw [hb.unique ⟨g₁, hinv, rfl⟩, hb'.unique ⟨g₂, storeAll_append m l c ▸ hp₂.inv Step.inv hinv, rfl⟩]
    exact hdir rfl hp₁ hp₂ hp₃

theorem Quiet.insert_turns (h : Quiet m g) (ok : ℕ → Bool) (value : ℕ) (hnew : g.tree.map key = none) :
    ∃ e log f' s, Returns (fun fuel => critbitInsert ok fuel key value m) (e, log) ∧ Rests (storeAll m log) f' ∧
      Turns Shows m log g.tree.map f' s := by
  obtain ⟨e, log, g', hdo, hq, hins⟩ := critbitInsert_spec h ok value hnew
  have hlast := hdo _ (Nat.lt_succ_self _)
  have hpush := critbitInsert_noPush ok _ key value m _ _ hlast.run
  have hne : ∀ k, k ≠ key → g.tree.map k = g'.tree.map k := by
    intro k hk
    generalize g'.tree.map = f' at hins
    generalize ok m.mallocs = b at hins
    cases hins with
    | fail => rfl
    | new => rw [KMap.bind_of_ne _ _ hk]
  obtain ⟨s, hs⟩ := Path.turns hlast.path h.toInv (r := fun f f' => ∀ k v, f k = some v → f' k = some v) map_antisymm
    (fun h h' => eq_or_eq_of_between h h' hne) (by
      rintro l c l' g₁ g₂ rfl hp₁ hp₂ hp₃
      have hcut : g₂.cut = 0 := by
        have hle := Path.cut_le hp₃ fun e he => hpush e (by simp [he])
        rwa [hq.cut, Multiset.le_zero] at hle
      have hinv := hp₁.inv Step.inv h.toInv
      exact T.map_le hinv.wf.routed (hp₂.inv Step.inv hinv).wf.routed
        (Path.has_mono hp₂ (fun e he => hpush e (by simp [he])) hcut))
  exact ⟨e, log, _, s, ⟨_, fun fuel hf => (hdo fuel hf).run⟩, ⟨g', hq, rfl⟩, hs⟩

theorem Quiet.remove_turns (h : Quiet m g) (key : Word) :
    ∃ v log f' s, Returns (fun fuel => critbitRemove fuel key m) (v, log) ∧ Rests (storeAll m log) f' ∧
      Turns Shows m log g.tree.map f' s := by
  obtain ⟨log, g', hdo, hq, hmap⟩ := critbitRemove_spec (Q := fun _ => False) h key
  have hlast := hdo _ (Nat.lt_succ_self _)
  have hmalloc := critbitRemove_noMalloc _ key m _ _ hlast.run
  have hne : ∀ k, k ≠ key → g'.tree.map k = g.tree.map k := by
    intro k hk
    rw [hmap, KMap.unbind_of_ne _ hk]
  obtain ⟨s, hs⟩ := Path.turns hlast.path h.toInv (r := fun f f' => ∀ k v, f' k = some v → f k = some v)
    (fun h h' => map_antisymm h' h) (fun h h' => (eq_or_eq_of_between h' h hne).symm) (by
      rintro l c l' g₁ g₂ rfl hp₁ hp₂ -
      have hinv := hp₁.inv Step.inv h.toInv
      obtain ⟨hmade, -⟩ := Path.has_anti hp₁ (fun e he => hmalloc e (by simp [he])) h.toInv h.made
      obtain ⟨-, hback⟩ := Path.has_anti hp₂ (fun e he => hmalloc e (by simp [he])) hinv hmade
      exact T.map_le (hp₂.inv Step.inv hinv).wf.routed hinv.wf.routed hback)
  exact ⟨_, log, _, s, ⟨_, fun fuel hf => (hdo fuel hf).run⟩, ⟨g', hq, rfl⟩, hs⟩

/-- Code that only wraps the result up has the same log. -/
theorem returns_wrap {α β : Type} {x : ℕ → W α} {a : α} (b : α → β) (h : Returns (fun fuel => x fuel m) (a, log)) :
    Returns (fun fuel => (x fuel >>= fun a => (pure (b a) : W β)) m) (b a, log) := by
  obtain ⟨N, hN⟩ := h
  exact ⟨N, fun fuel hf => Wr.bind_ok.mpr ⟨a, log, [], hN fuel hf, rfl, by simp⟩⟩

theorem Rests.write_turns {w : Write} (h : Rests m f) (habs : w.Absent m) : ∃ r log f' s,
    Returns (fun fuel => write ok w fuel m) (r, log) ∧ Rests (storeAll m log) f' ∧ Turns Shows m log f f' s := by
  obtain ⟨g, hq, rfl⟩ := h
  cases w with
  | insert key value =>
      have hnew : g.tree.map key = none :=
        Option.eq_none_iff_forall_ne_some.mpr fun v hv => habs v (hq.binds_iff.mpr hv)
      obtain ⟨e, log, f', s, hr, hf', hs⟩ := hq.insert_turns ok value hnew
      exact ⟨_, log, f', s, returns_wrap _ hr, hf', hs⟩
  | remove key =>
      obtain ⟨v, log, f', s, hr, hf', hs⟩ := hq.remove_turns key
      exact ⟨_, log, f', s, returns_wrap _ hr, hf', hs⟩

/-! ## The result -/

/-- The map has this value for the key after these calls on a structure, one at a time. -/
def ValueAfter (ok : ℕ → Bool) (m : Mem) (ws : List Write) (key : Word) (v : ℕ) : Prop :=
  ∃ log, Writes ok m ws log ∧
    (Binds (storeAll m log) key v ∨ v = NULL ∧ ∀ u, ¬ Binds (storeAll m log) key u)

/-- Any number of readers among the stores of a run. There is one order of the calls: the inserts and removes as they
hold the mutex, each at a moment of its own, and every lookup at a moment of its own, unless it takes a removed leaf's
link for its value. What it returns is the value after the calls before it. -/
theorem critbit_linearizable {node : Addr → Node} (hw : Writes ok (critbitNew node) ws log) :
    ∃ count : ℕ → ℕ, Monotone count ∧
      (∀ l l', log = l ++ l' → Counted Write.Absent (write ok) (critbitNew node) ws l (ws.take (count l.length))) ∧
      ∀ before s rest key fuel r, log = before ++ (stores s ++ rest) →
        Prog.Exec Mem.load (storeAll (critbitNew node) before) s (critbitGet key fuel) r → 64 < fuel →
        Unchained (storeAll (critbitNew node) before) s →
        ∃ v l l', r = .ok v ∧ stores s = l ++ l' ∧
          ValueAfter ok (critbitNew node) (ws.take (count (before ++ l).length)) key v := by
  obtain ⟨count, ho⟩ := hw.ordered (I := Rests) Rests.shows (fun h habs => h.write_turns habs)
    ⟨.new, quiet_new node, rfl⟩
  refine ⟨count, ho.mono, ho.counted, ?_⟩
  rintro before s rest key fuel r rfl hx hf hs
  obtain ⟨v, l, l', rfl, hl, hv⟩ := critbit_get_current hw hx hf hs
  refine ⟨v, l, l', rfl, hl, ?_⟩
  obtain ⟨log₁, f, hw₁, hrest, hshows⟩ := ho.shows (before ++ l) (l' ++ rest) (by rw [hl]; simp)
  refine ⟨log₁, hw₁, ?_⟩
  simp only [hrest.shows.binds_iff, hshows.binds_iff] at hv ⊢
  exact hv

theorem critbit_linearizable_four : ∃ count : ℕ → ℕ, Monotone count ∧
    (∀ l l', pairLog ++ ([.slot .root 4] ++ removeLog) = l ++ l' →
      Counted Write.Absent (write fun _ => true) blank fourCalls l (fourCalls.take (count l.length))) ∧
    ∀ before s rest key fuel r, pairLog ++ ([.slot .root 4] ++ removeLog) = before ++ (stores s ++ rest) →
      Prog.Exec Mem.load (storeAll blank before) s (critbitGet key fuel) r → 64 < fuel →
      Unchained (storeAll blank before) s →
      ∃ v l l', r = .ok v ∧ stores s = l ++ l' ∧
        ValueAfter (fun _ => true) blank (fourCalls.take (count (before ++ l).length)) key v :=
  critbit_linearizable four_writes

end Ptok.Critbit
