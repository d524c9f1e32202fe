import Ptok.Lib.Interleave
import Ptok.Critnib.Theorems

/-!
# The stores of a run

Inserts and removes hold the mutex one after the other. Readers see their stores one by one, so what counts is the
log of a whole run and its prefixes.
-/

namespace Ptok.Critnib

open Lib

/-- The inserts and removes of a list return one after the other, and this is the log of their stores. -/
inductive Writes (ok : ℕ → Bool) : Mem → List Op → List Event → Prop
  | nil (m : Mem) : Writes ok m [] []
  | insert {m : Mem} {key : Word} {value : ℕ} {e : Errno} {ops : List Op} {log log' : List Event}
      (hr : Returns (fun fuel => critnibInsert ok fuel key value m) (e, log))
      (t : Writes ok (storeAll m log) ops log') : Writes ok m (.insert key value :: ops) (log ++ log')
  | remove {m : Mem} {key : Word} {v : ℕ} {ops : List Op} {log log' : List Event}
      (hr : Returns (fun fuel => critnibRemove fuel key m) (v, log))
      (t : Writes ok (storeAll m log) ops log') : Writes ok m (.remove key :: ops) (log ++ log')

def Op.IsRemove : Op → Bool
  | .remove _ => true
  | _ => false

def Event.IsDraw : Event → Bool
  | .removeCount _ => true
  | _ => false

/-- How many numbers were drawn from `remove_count`. -/
def draws (log : List Event) : ℕ := log.countP Event.IsDraw

@[simp] theorem draws_append (l l' : List Event) : draws (l ++ l') = draws l + draws l' := List.countP_append

theorem draws_removeCount (w : Word) (log : List Event) : draws (.removeCount w :: log) = draws log + 1 :=
  List.countP_cons_of_pos rfl

theorem not_isDraw_of_draws {e : Event} {log : List Event} (h : draws log = 0) (he : e ∈ log) : e.IsDraw = false := by
  simpa using List.countP_eq_zero.mp h e he

/-! ## Paths -/

theorem Path.split {l l' : List Event} {m : Mem} {g g' : Ghost} (h : Path m g (l ++ l') g') :
    ∃ g₁, Path m g l g₁ ∧ Path (storeAll m l) g₁ l' g' := by
  induction l generalizing m g with
  | nil => exact ⟨g, .nil m g, h⟩
  | cons e l ih =>
      cases h with
      | cons hs t =>
          obtain ⟨g₁, h₁, h₂⟩ := ih t
          exact ⟨g₁, .cons hs h₁, h₂⟩

theorem Does.of_returns {α : Type} {run : ℕ → W α} {m : Mem} {g : Ghost} {a b : α} {log log' : List Event} {g' : Ghost}
    (h : ∀ fuel, g.tree.height < fuel → Does (run fuel) m g a log g')
    (hr : Returns (fun fuel => run fuel m) (b, log')) : log' = log ∧ Path m g log g' := by
  have hret : Returns (fun fuel => run fuel m) (a, log) := ⟨g.tree.height + 1, fun fuel hf => (h fuel hf).run⟩
  cases hr.unique hret
  exact ⟨rfl, (h _ (Nat.lt_succ_self _)).path⟩

/-- The invariant holds between any two stores of a run. -/
theorem Quiet.path {ok : ℕ → Bool} {m : Mem} {g : Ghost} {ops : List Op} {log : List Event} (h : Quiet m g)
    (hw : Writes ok m ops log) : ∃ g', Path m g log g' := by
  induction hw generalizing g with
  | nil m => exact ⟨g, .nil m g⟩
  | insert hr t ih =>
      obtain ⟨e, log, g₁, hdo, hq, -⟩ := critnibInsert_spec h ok _ _
      obtain ⟨rfl, hp⟩ := Does.of_returns hdo hr
      obtain ⟨g', hp'⟩ := ih hq
      exact ⟨g', hp.append hp'⟩
  | remove hr t ih =>
      obtain ⟨v, log, g₁, hdo, hq, -⟩ := critnibRemove_spec h _
      obtain ⟨rfl, hp⟩ := Does.of_returns hdo hr
      obtain ⟨g', hp'⟩ := ih hq
      exact ⟨g', hp.append hp'⟩

theorem Writes.append {ok : ℕ → Bool} {m : Mem} {ops ops' : List Op} {l l' : List Event} (h : Writes ok m ops l)
    (h' : Writes ok (storeAll m l) ops' l') : Writes ok m (ops ++ ops') (l ++ l') := by
  induction h with
  | nil m => exact h'
  | insert hr t ih =>
      rw [storeAll_append] at h'
      rw [List.append_assoc]
      exact .insert hr (ih h')
  | remove hr t ih =>
      rw [storeAll_append] at h'
      rw [List.append_assoc]
      exact .remove hr (ih h')

theorem Quiet.of_writes {ok : ℕ → Bool} {m : Mem} {g : Ghost} {ops : List Op} {log : List Event} (h : Quiet m g)
    (hw : Writes ok m ops log) : ∃ g', Quiet (storeAll m log) g' := by
  induction hw generalizing g with
  | nil m => exact ⟨g, h⟩
  | insert hr t ih =>
      obtain ⟨e, log, g₁, hdo, hq, -⟩ := critnibInsert_spec h _ _ _
      obtain ⟨rfl, -⟩ := Does.of_returns hdo hr
      rw [storeAll_append]
      exact ih hq
  | remove hr t ih =>
      obtain ⟨v, log, g₁, hdo, hq, -⟩ := critnibRemove_spec h _
      obtain ⟨rfl, -⟩ := Does.of_returns hdo hr
      rw [storeAll_append]
      exact ih hq

/-! ## Running writers -/

/-- What the inserts and removes of a list store, each with the same fuel. -/
def storesOf (ok : ℕ → Bool) (fuel : ℕ) : List Op → Mem → Option (List Event)
  | [], _ => some []
  | .insert key value :: ops, m =>
    match critnibInsert ok fuel key value m with
    | .ok (_, log) => (storesOf ok fuel ops (storeAll m log)).map (log ++ ·)
    | .error _ => none
  | .remove key :: ops, m =>
    match critnibRemove fuel key m with
    | .ok (_, log) => (storesOf ok fuel ops (storeAll m log)).map (log ++ ·)
    | .error _ => none
  | _ :: _, _ => none

theorem Quiet.writes_of_run {ok : ℕ → Bool} {fuel : ℕ} (hf : 16 < fuel) {ops : List Op} {m : Mem} {g : Ghost}
    {log : List Event} (h : Quiet m g) (hr : storesOf ok fuel ops m = some log) : Writes ok m ops log := by
  induction ops generalizing m g log with
  | nil =>
      cases hr
      exact .nil m
  | cons op ops ih =>
      cases op with
      | insert key value =>
          obtain ⟨e, log₁, g₁, hdo, hq, -⟩ := critnibInsert_spec h ok key value
          simp only [storesOf, (hdo fuel (h.height_le.trans_lt hf)).run] at hr
          obtain ⟨log₂, hrest, rfl⟩ := Option.map_eq_some_iff.mp hr
          exact .insert ⟨_, fun fuel hf => (hdo fuel hf).run⟩ (ih hq hrest)
      | remove key =>
          obtain ⟨v, log₁, g₁, hdo, hq, -⟩ := critnibRemove_spec h key
          simp only [storesOf, (hdo fuel (h.height_le.trans_lt hf)).run] at hr
          obtain ⟨log₂, hrest, rfl⟩ := Option.map_eq_some_iff.mp hr
          exact .remove ⟨_, fun fuel hf => (hdo fuel hf).run⟩ (ih hq hrest)
      | get key => cases hr
      | findLe key => cases hr

/-! ## Numbers drawn -/

theorem Step.removeCount {m : Mem} {g g' : Ghost} {e : Event} (h : Step m g e g') :
    (m.store e).removeCount = if e.IsDraw then m.removeCount + 1 else m.removeCount := by
  have hslot : ∀ s p, (m.store (.slot s p)).removeCount = m.removeCount := by
    intro s p
    obtain ⟨rt, nd, he⟩ := slot_frame m s p
    rw [he]
  have hset : ∀ n f, (m.setNode n f).removeCount = m.removeCount := by
    intro n f
    cases n <;> rfl
  cases h with
  | held hh => cases hh <;> simp [Event.IsDraw, Mem.store, Mem.setLeaf, hset]
  | draw => rfl
  | linkLeaf => exact hslot _ _
  | linkSplit => exact hslot _ _
  | unlink => exact hslot _ _
  | collapse => exact hslot _ _
  | _ => rfl

theorem Path.removeCount {m : Mem} {g g' : Ghost} {log : List Event} (h : Path m g log g')
    (hb : m.removeCount.toNat + draws log < 2 ^ 64) :
    (storeAll m log).removeCount.toNat = m.removeCount.toNat + draws log := by
  induction h with
  | nil => rfl
  | @cons m g g₁ g₂ e log hs _ ih =>
      have hcount : (m.store e).removeCount.toNat = m.removeCount.toNat + draws [e] := by
        rw [hs.removeCount, draws, List.countP_singleton]
        split
        · rw [BitVec.toNat_add]
          have : draws (e :: log) = draws log + 1 := List.countP_cons_of_pos ‹_›
          exact Nat.mod_eq_of_lt (by simp; omega)
        · rfl
      have hlog : draws (e :: log) = draws [e] + draws log := draws_append [e] log
      show (storeAll (m.store e) log).removeCount.toNat = _
      rw [ih (by omega), hcount, hlog, Nat.add_assoc]

/-! ## A remove draws at most one number, an insert none -/

/-- A store that only a remove makes: it draws a number, or it is to the ring. -/
def Event.OfRing : Event → Bool
  | .removeCount _ => true
  | .pendingDelNode _ _ => true
  | .pendingDelLeaf _ _ => true
  | _ => false

/-- No number is drawn, and nothing is stored to the ring. -/
abbrev NoRing {α : Type} (x : W α) : Prop := Wr.Emits (fun e => e.OfRing = false) x

namespace NoRing

theorem freeLeaf (k : Addr) : NoRing (freeLeaf k) := by
  unfold Critnib.freeLeaf
  split
  · exact .pure ()
  · exact .bind (.read _) fun _ => .bind (.emit rfl) fun _ => .emit rfl

theorem freeNode (n : Ptr) : NoRing (freeNode n) := by
  cases n with
  | null => exact .pure ()
  | leaf k => exact .stuck _
  | node a => exact .bind (.read _) fun _ => .bind (.emit rfl) fun _ => .emit rfl

theorem allocLeaf (ok : ℕ → Bool) : NoRing (allocLeaf ok) := by
  refine .bind (.read _) fun k => ?_
  split
  · exact .bind (.read _) fun _ => .bind (.read _) fun _ => .bind (.emit rfl) fun _ => .pure _
  · exact .bind (.read _) fun _ => .bind (.emit rfl) fun _ => .pure _

theorem allocNode (ok : ℕ → Bool) : NoRing (allocNode ok) := by
  refine .bind (.read _) fun n => ?_
  split
  · exact .bind (.read _) fun _ => .bind (.read _) fun _ => .bind (.emit rfl) fun _ => .pure _
  · exact .bind (.query _) fun _ => .bind (.emit rfl) fun _ => .pure _

theorem linkSplit (key path : Word) (sh : ℕ) (m kn n : Ptr) (parent : Slot Ptr (Fin 16)) :
    NoRing (linkSplit key path sh m kn n parent) := by
  have hslot : ∀ s p, NoRing (Wr.emit (.slot s p)) := fun s p => .emit rfl
  exact .bind (.forM (fun _ => hslot _ _) _) fun _ => .bind (hslot _ _) fun _ => .bind (hslot _ _) fun _ =>
    .bind (.emit rfl) fun _ => .bind (.emit rfl) fun _ => hslot _ _

theorem insertSplit (ok : ℕ → Bool) (key : Word) (k : Addr) (n : Ptr) (parent : Slot Ptr (Fin 16)) :
    NoRing (insertSplit ok key k n parent) := by
  refine .bind (.query _) fun path => ?_
  by_cases hat : path ^^^ key = 0#64
  · simp only [if_pos hat]
    split
    · exact .bind (freeLeaf k) fun _ => .pure _
    · exact .stuck _
  · simp only [if_neg hat]
    refine .bind (allocNode ok) fun m => ?_
    split
    · exact .bind (freeLeaf k) fun _ => .pure _
    · exact .bind (linkSplit _ _ _ _ _ _ _) fun _ => .pure _

theorem critnibInsert (ok : ℕ → Bool) (fuel : ℕ) (key : Word) (value : ℕ) :
    NoRing (critnibInsert ok fuel key value) := by
  refine .bind (allocLeaf ok) fun k => ?_
  split
  · exact .pure _
  · refine .bind (.emit rfl) fun _ => .bind (.emit rfl) fun _ => .bind (.read _) fun root => ?_
    split
    · exact .bind (.emit rfl) fun _ => .pure _
    · refine .bind (.query _) fun r => ?_
      split
      split
      · exact .bind (.query _) fun _ => .bind (.emit rfl) fun _ => .pure _
      · exact insertSplit _ _ _ _ _

end NoRing

/-- No number is drawn. -/
abbrev NoDraw {α : Type} (x : W α) : Prop := Wr.Emits (fun e => e.IsDraw = false) x

theorem NoRing.noDraw {α : Type} {x : W α} (h : NoRing x) : NoDraw x := by
  intro m a log hm e he
  cases e with
  | removeCount w => cases h m a log hm _ he
  | _ => rfl

namespace NoDraw

theorem shrink (del : Fin 16) (s : Slot Ptr (Fin 16)) (n : Ptr) (k : Addr) : NoDraw (shrink del s n k) := by
  refine .bind (.query _) fun x => ?_
  split
  · exact .bind (.read _) fun _ => .bind (.emit rfl) fun _ => .pure _
  · exact .stuck _
  · exact .bind (.emit rfl) fun _ => .bind (.read _) fun _ => .bind (.emit rfl) fun _ => .bind (.emit rfl) fun _ =>
      .pure _

theorem removeRoot (del : Fin 16) (key : Word) (k : Addr) : NoDraw (removeRoot del key k) := by
  refine .bind (.read _) fun x => ?_
  split
  · exact .bind (.emit rfl) fun _ => .bind (.read _) fun _ => .bind (.emit rfl) fun _ => .pure _
  · exact .pure _

end NoDraw

/-- At most one number is drawn. -/
abbrev OneDraw {α : Type} (x : W α) : Prop := ∀ m a log, x m = .ok (a, log) → draws log ≤ 1

theorem NoDraw.draws {α : Type} {x : W α} (h : NoDraw x) {m : Mem} {a : α} {log : List Event}
    (hm : x m = .ok (a, log)) : draws log = 0 :=
  List.countP_eq_zero.mpr fun e he => by simp [h m a log hm e he]

theorem OneDraw.bind {α β : Type} {x : W α} {f : α → W β} (hx : OneDraw x) (hf : ∀ a, NoDraw (f a)) :
    OneDraw (x >>= f) := by
  intro m b log h
  obtain ⟨a, l, l', hxm, hfm, rfl⟩ := Wr.bind_ok.mp h
  rw [draws_append, (hf a).draws hfm]
  exact hx m a l hxm

theorem recycle_oneDraw : OneDraw recycle := by
  intro m b log h
  obtain ⟨a, l, l', hxm, hfm, rfl⟩ := Wr.bind_ok.mp h
  cases hxm
  refine OneDraw.bind (x := Wr.emit _) ?_ (fun _ => ?_) _ _ _ hfm
  · intro m a log h
    cases h
    exact le_rfl
  · exact .bind (.read _) fun _ => .bind (NoRing.freeNode _).noDraw fun _ => .bind (.read _) fun _ =>
      .bind (NoRing.freeLeaf _).noDraw fun _ => .bind (.emit rfl) fun _ => .bind (.emit rfl) fun _ => .pure _

theorem critnibRemove_oneDraw (fuel : ℕ) (key : Word) : OneDraw (critnibRemove fuel key) := by
  intro m b log h
  obtain ⟨n, l, l', hxm, hfm, rfl⟩ := Wr.bind_ok.mp h
  cases hxm
  rw [List.nil_append]
  simp only at hfm
  split at hfm
  · cases hfm
    exact Nat.zero_le _
  · refine OneDraw.bind recycle_oneDraw (fun del => ?_) _ _ _ hfm
    split
    · exact .removeRoot del key _
    · refine .bind (.query _) fun r => ?_
      split
      · exact .pure _
      · refine .bind (.read _) fun x => ?_
        split
        · exact .pure _
        · exact .bind (.query _) fun _ => .bind (.emit rfl) fun _ => NoDraw.shrink _ _ _ _

theorem Writes.draws_le {ok : ℕ → Bool} {m : Mem} {ops : List Op} {log : List Event} (h : Writes ok m ops log) :
    draws log ≤ ops.countP Op.IsRemove := by
  induction h with
  | nil => exact le_rfl
  | @insert m key value e ops log log' hr _ ih =>
      obtain ⟨N, hN⟩ := hr
      rw [draws_append, (NoRing.critnibInsert ok N key value).noDraw.draws (hN N le_rfl), Nat.zero_add]
      exact ih
  | @remove m key v ops log log' hr _ ih =>
      obtain ⟨N, hN⟩ := hr
      have h₁ := critnibRemove_oneDraw N key _ _ _ (hN N le_rfl)
      have h₂ : (Op.remove key :: ops).countP Op.IsRemove = ops.countP Op.IsRemove + 1 :=
        List.countP_cons_of_pos rfl
      rw [draws_append]
      omega

end Ptok.Critnib
