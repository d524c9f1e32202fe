import Ptok.Lib.Interleave
import Ptok.Critbit.Theorems

/-!
# What a reader of critbit may come to

Nothing stops a reader from holding a node that was spliced out long ago, or a leaf that was removed. Blocks are never
used again: a node that was linked once keeps its `bit` and `path` for ever, and one that is out of the tree keeps its
children too.
-/

namespace Ptok.Critbit

open Lib

variable {m : Mem} {g g' : Ghost} {e : Event} {Q : Leaf → Prop} {a : Addr} {X : Addr → Prop}

/-! ## The stores of writers -/

/-- The key is bound: a leaf with this key and value can be reached from the root. -/
def Binds (m : Mem) (key : Word) (v : ℕ) : Prop := ∃ k, Reaches m.cell m.root k ∧ m.cell k = .leaf ⟨key, v⟩

theorem Inv.binds_iff (h : Inv m g) {key : Word} {v : ℕ} : Binds m key v ↔ g.tree.map key = some v := by
  rw [T.map, Coding.mapOf_eq_some h.wf.routed]
  constructor
  · rintro ⟨k, hk, hcell⟩
    obtain ⟨u, hu, hr⟩ := h.rep.reaches hk
    obtain rfl : u = .leaf k ⟨key, v⟩ := hr.unique ⟨rfl, hcell⟩
    exact ⟨⟨key, v⟩, hu.has rfl, rfl, rfl⟩
  · rintro ⟨l, hl, rfl, rfl⟩
    exact h.rep.reaches_leaf hl

/-- A call of a writer. -/
inductive Write
  | insert (key : Word) (value : ℕ)
  | remove (key : Word)

def write (ok : ℕ → Bool) : Write → ℕ → W Ret
  | .insert key value, fuel => do
    let e ← critbitInsert ok fuel key value
    pure (.errno e)
  | .remove key, fuel => do
    let v ← critbitRemove fuel key
    pure (.value v)

/-- An insert is of a key that is not bound. -/
def Write.Absent (m : Mem) : Write → Prop
  | .insert key _ => ∀ v, ¬ Binds m key v
  | .remove _ => True

/-- Calls of writers one after another, and the log of their stores. -/
abbrev Writes (ok : ℕ → Bool) : Mem → List Write → List Event → Prop := Runs Write.Absent (write ok)

/-- The stores of a call on behalf of inserts that satisfy `P`. -/
abbrev StepOf (P : Write → Prop) : Mem → Ghost → Event → Ghost → Prop := Step fun l => P (.insert l.key l.value)

theorem Step.mono {Q' : Leaf → Prop} (hq : ∀ l, Q l → Q' l) (hs : Step Q m g e g') : Step Q' m g e g' := by
  cases hs with
  | fail => exact .fail _
  | zalloc => exact .zalloc _
  | held hh => exact .held hh
  | linkRoot h hnil hmade => exact .linkRoot (hq _ h) hnil hmade
  | linkSplit h hne hkey hpath hat hmade hfresh hrep => exact .linkSplit (hq _ h) hne hkey hpath hat hmade hfresh hrep
  | unlinkRoot hleaf => exact .unlinkRoot hleaf
  | splice hfoc hleaf hkey => exact .splice hfoc hleaf hkey
  | chain hcut => exact .chain hcut
  | push hcut hlink => exact .push hcut hlink

theorem Quiet.write_returns {ok : ℕ → Bool} {w : Write} (h : Quiet m g) (habs : w.Absent m) : ∃ r log g',
    Returns (fun fuel => write ok w fuel m) (r, log) ∧ Path (StepOf (· = w)) m g log g' ∧ Quiet (storeAll m log) g' := by
  cases w with
  | insert key value =>
      have hnew : g.tree.map key = none :=
        Option.eq_none_iff_forall_ne_some.mpr fun v hv => habs v (h.binds_iff.mpr hv)
      obtain ⟨e, log, g', hdo, hquiet, -⟩ := critbitInsert_spec h ok value hnew
      have hdo : ∀ fuel, g.tree.height < fuel → Does _ (Critbit.write ok (.insert key value) fuel) m g (.errno e) _ g' :=
        fun fuel hf => (hdo fuel hf).bind (.pure _ _ _)
      rw [List.append_nil] at hdo
      refine ⟨_, log, g', ⟨_, fun fuel hf => (hdo fuel hf).run⟩, ?_, hquiet⟩
      refine (hdo _ (Nat.lt_succ_self _)).path.mono (Step.mono ?_)
      rintro l rfl
      rfl
  | remove key =>
      obtain ⟨log, g', hdo, hquiet, -⟩ := critbitRemove_spec (Q := fun _ => False) h key
      have hdo : ∀ fuel, g.tree.height < fuel → Does _ (Critbit.write ok (.remove key) fuel) m g (.value _) _ g' :=
        fun fuel hf => (hdo fuel hf).bind (.pure _ _ _)
      rw [List.append_nil] at hdo
      refine ⟨_, log, g', ⟨_, fun fuel hf => (hdo fuel hf).run⟩, ?_, hquiet⟩
      exact (hdo _ (Nat.lt_succ_self _)).path.mono (Step.mono fun _ => False.elim)

/-- What was stored so far is the work of the calls begun so far, and the invariant holds between any two stores. -/
theorem Quiet.path {ok : ℕ → Bool} {ws : List Write} {l l' : List Event} (h : Quiet m g)
    (hw : Writes ok m ws (l ++ l')) : ∃ g', Path (StepOf (Begun Write.Absent (write ok) m ws l)) m g l g' := by
  obtain ⟨g', -, -, -, -, hp, -⟩ := hw.path (P := Begun Write.Absent (write ok) m ws l) (S := StepOf _) (I := Quiet)
    (fun hq habs hbegun => by
      obtain ⟨r, log, g', hr, hp, hq'⟩ := hq.write_returns habs
      exact ⟨r, log, g', hr, hp.mono (Step.mono fun l hl => hl ▸ hbegun), hq'⟩) (fun _ hb => hb) h
  exact ⟨g', hp⟩

/-! ## One store -/

theorem Held.malloced (hh : Held g e) : (m.store e).malloced = m.malloced := by
  cases hh <;> rfl

theorem Held.node_eq (hh : Held g e) (hmade : a ∉ g.made) (hfresh : a ∉ g.fresh) : (m.store e).node a = m.node a := by
  have hset : ∀ {b} (f : Node → Node), b ∈ g.made ∨ b ∈ g.fresh → (m.setNode b f).node a = m.node a := by
    intro b f hb
    refine Function.update_of_ne ?_ _ _
    rintro rfl
    exact hb.elim hmade hfresh
  cases hh with
  | value hb v => exact hset (fun x => { x with child := Function.update x.child 0 v }) (Or.inl hb)
  | key hb w => exact hset (fun x => { x with path := w }) (Or.inl hb)
  | child hb i p => exact hset (fun x => { x with child := Function.update x.child i p }) (Or.inr hb)
  | path hb w => exact hset (fun x => { x with path := w }) (Or.inr hb)
  | bit hb w => exact hset (fun x => { x with bit := w }) (Or.inr hb)

/-- Linked once is linked for ever. -/
theorem Step.linked (hs : Step Q m g e g') (ha : g.Linked m.malloced a) : g'.Linked (m.store e).malloced a := by
  cases hs with
  | zalloc => exact ha.zalloc
  | held hh => rwa [hh.malloced]
  | linkRoot _ _ hmade => exact ⟨ha.alloc, fun hm => ha.made (hmade ▸ Multiset.mem_cons_of_mem hm), ha.fresh⟩
  | linkSplit _ _ _ _ _ hmade hfresh =>
      rw [slot_malloced]
      refine ⟨ha.alloc, fun hm => ha.made (hmade ▸ Multiset.mem_cons_of_mem hm), fun hf => ?_⟩
      exact ha.fresh (hfresh ▸ Multiset.mem_cons_of_mem hf)
  | splice =>
      rw [slot_malloced]
      exact ⟨ha.alloc, ha.made, ha.fresh⟩
  | _ => exact ⟨ha.alloc, ha.made, ha.fresh⟩

/-- It keeps its `path` and `bit`. -/
theorem Step.hdr_eq (hs : Step Q m g e g') (ha : g.Linked m.malloced a) : (m.store e).hdr a = m.hdr a := by
  cases hs with
  | zalloc => simp only [Mem.hdr, zalloc_node ha.alloc]
  | held hh => simp only [Mem.hdr, hh.node_eq ha.made ha.fresh]
  | linkSplit => exact slot_hdr _ _ _ _
  | splice => exact slot_hdr _ _ _ _
  | chain => exact slot_hdr _ _ _ _
  | _ => rfl

theorem Step.bit_eq (hs : Step Q m g e g') (ha : g.Linked m.malloced a) :
    ((m.store e).node a).bit = (m.node a).bit := congrArg Hdr.bit (hs.hdr_eq ha)

/-- Nothing else in it is written but the children. -/
theorem Step.node_eq (hs : Step Q m g e g') (ha : g.Linked m.malloced a) (he : ∀ i q, e ≠ .slot (.child a i) q) :
    (m.store e).node a = m.node a := by
  have hslot : ∀ {s q}, (∀ i q', (.slot s q : Event) ≠ .slot (.child a i) q') →
      (m.store (.slot s q)).node a = m.node a := by
    intro s q hsq
    exact slot_node m fun i hi => hsq i q (hi ▸ rfl)
  cases hs with
  | zalloc => exact zalloc_node ha.alloc
  | held hh => exact hh.node_eq ha.made ha.fresh
  | linkSplit => exact hslot he
  | splice => exact hslot he
  | chain => exact hslot he
  | _ => rfl

/-- Those are written in the tree, or in a leaf that is chained. -/
theorem Step.slot_child {i : Fin 2} {q : Addr} (hs : Step Q m g (.slot (.child a i) q) g') (ha : g.Linked m.malloced a) :
    a ∈ g'.tree.nodes ∨ a ∈ g.cut ∧ i = 0 := by
  generalize he : (.slot (.child a i) q : Event) = e at hs
  have hplug : ∀ {sel : Hdr → (Fin 2 → T) → Option (Fin 2)} {u : T} {q' : Addr},
      (.slot (.child a i) q : Event) = .slot (Tree.slotOf sel .root g.tree) q' → a ∈ (Tree.plug sel u g.tree).nodes := by
    intro sel u q' he
    rw [Event.slot.injEq] at he
    exact Tree.slotOf_mem_plug (s := .root) u he.1.symm (by simp)
  cases hs with
  | held hh =>
      cases hh with
      | child hf =>
          cases he
          exact absurd hf ha.fresh
      | _ => cases he
  | linkSplit => exact Or.inl (hplug he)
  | splice => exact Or.inl (hplug he)
  | chain hcut =>
      cases he
      exact Or.inr ⟨hcut, rfl⟩
  | _ => cases he

/-- A leaf stays in the tree until its key is unbound. -/
theorem Step.leaf_stays (hs : Step Q m g e g') (h : Inv m g) (ha : a ∈ g.tree.leaves) :
    a ∈ g'.tree.leaves ∨ g'.tree.map (m.node a).path = none := by
  have hinv := hs.inv h
  have hleaves := fun (sel : Hdr → (Fin 2 → T) → Option (Fin 2)) (u : T) => Tree.leaves_plug sel u g.tree
  cases hs with
  | linkRoot _ hnil => simp [hnil] at ha
  | @linkSplit key path k b made fresh _ _ _ _ hat =>
      have := hleaves (insertSel key) (splitTree b path key k (m.leafAt k) (Tree.focus (insertSel key) g.tree))
      rw [splitTree_leaves hat, Multiset.add_cons, ← Multiset.cons_add, add_left_inj] at this
      exact Or.inl (this ▸ Multiset.mem_cons_of_mem ha)
  | unlinkRoot => exact Or.inr rfl
  | @splice key b k hdr c l hfoc hleaf hkey =>
      have := hleaves (Coding.toParent bits key) (c (1 - bits.dig key (bits.pos hdr)))
      rw [splice_leaves hfoc hleaf, Multiset.add_cons, ← Multiset.cons_add, add_left_inj] at this
      rw [← this, Multiset.mem_cons] at ha
      refine ha.symm.imp id ?_
      rintro rfl
      obtain ⟨q, -, hq⟩ := Rep.focus (Coding.toParent bits key) (h := m.heap) (s := .root) h.rep rfl
      rw [hfoc] at hq
      obtain ⟨-, -, -, -, hc⟩ := rep_node.mp hq
      have hrep := hc (bits.dig key (bits.pos hdr))
      rw [hleaf] at hrep
      obtain ⟨rfl, -, -, rfl⟩ := rep_leaf.mp hrep
      have hpath : (m.node _).path = key := hkey
      rw [hpath]
      by_contra hne
      obtain ⟨l, hl, hk⟩ := (Coding.mapOf_ne_none hinv.wf.routed).mp hne
      exact ((splice_has hfoc hleaf h.wf.routed hkey l).mp hl).2 hk
  | _ => exact Or.inl ha

/-- The leaves in the tree are leaves that were linked. -/
theorem Step.has (hs : Step Q m g e g') (h : Inv m g) (hq : ∀ l, g.tree.Has l → Q l) : ∀ l, g'.tree.Has l → Q l := by
  cases hs with
  | linkRoot hk =>
      rintro l rfl
      exact hk
  | @linkSplit key path k b made fresh hk _ _ _ hat =>
      intro l hl
      rcases (Coding.has_plug_of (X := (· = m.leafAt k)) (fun l => splitTree_has hat l) l).mp hl with rfl | hl
      · exact hk
      · exact hq l hl
  | unlinkRoot => exact fun l hl => hl.elim
  | splice hfoc hleaf hkey => exact fun l hl => hq l ((splice_has hfoc hleaf h.wf.routed hkey l).mp hl).1
  | _ => exact hq

/-! ## What a reader may come to -/

/-- `X` has what is in the tree, and whatever readers can come to from there. -/
structure Seen (m : Mem) (g : Ghost) (X : Addr → Prop) : Prop where
  tree : ∀ a ∈ g.tree.nodes + g.tree.leaves, X a
  linked : ∀ a, X a → g.Linked m.malloced a
  closed : ∀ a, X a → (m.node a).bit ≠ 0 → ∀ i, X ((m.node a).child i)

theorem Inv.seen (h : Inv m g) : Seen m g (· ∈ g.tree.nodes + g.tree.leaves) where
  tree := fun _ ha => ha
  linked := fun _ ha => h.tree_linked ha
  closed := by
    intro a ha hb i
    rcases Multiset.mem_add.mp ha with hn | hl
    · exact ((closed_of_rep h.rep h.wf hn).2 i).1
    · have hleaf : a ∈ leafHalves m.malloced := by
        rw [← h.leaves]
        simp [hl]
      exact absurd (h.leafBit a hleaf) hb

/-- A reader goes on to what has been in the tree since it began. -/
theorem Seen.step (hX : Seen m g X) (h : Inv m g) (hs : Step Q m g e g') :
    Seen (m.store e) g' fun a => X a ∨ a ∈ g'.tree.nodes + g'.tree.leaves where
  tree := fun _ ha => Or.inr ha
  linked := by
    rintro a (ha | ha)
    · exact hs.linked (hX.linked a ha)
    · exact (hs.inv h).tree_linked ha
  closed := by
    have hinv := hs.inv h
    rintro a (ha | ha) hb i
    · have hl := hX.linked a ha
      by_cases ht : a ∈ g'.tree.nodes
      · exact Or.inr (hinv.seen.closed a (Multiset.mem_add.mpr (Or.inl ht)) hb i)
      · rw [hs.bit_eq hl] at hb
        have hcut := h.not_cut (h.inner_of_bit hl hb)
        rw [hs.node_eq hl fun i q he => (he ▸ hs |>.slot_child hl).elim ht fun hc => hcut hc.1]
        exact Or.inl (hX.closed a ha hb i)
    · exact Or.inr (hinv.seen.closed a ha hb i)

end Ptok.Critbit
