import Ptok.Lib.Steps
import Ptok.Critbit.Concurrent.Get

/-!
# critbit_get is current

But for a removed leaf whose link is taken for its value, a lookup returns what the map had at some moment of the call.
Whatever the writers do, it ends after a bounded number of its own loads.
-/

namespace Ptok.Critbit

open Lib

variable {m : Mem} {g g' : Ghost} {e : Event} {Q : Leaf → Prop} {a p : Addr} {X : Addr → Prop} {key : Word}
  {W : Option ℕ → Prop} {l log : List Event}

/-! ## Where a reader stands -/

/-- A store after which the key has a binding that is in `W`. -/
def WatchedStep (key : Word) (W : Option ℕ → Prop) (m : Mem) (g : Ghost) (e : Event) (g' : Ghost) : Prop :=
  (∃ Q, Step Q m g e g') ∧ W (g'.tree.map key)

theorem WatchedStep.inv (hs : WatchedStep key W m g e g') (h : Inv m g) : Inv (m.store e) g' := by
  obtain ⟨⟨Q, hs⟩, -⟩ := hs
  exact hs.inv h

/-- A leaf of the key that readers may come to. Its value was bound, or it was unbound and the stores `l` have chained it
to the list. -/
def Known (key : Word) (W : Option ℕ → Prop) (l : List Event) (m : Mem) (X : Addr → Prop) : Prop :=
  ∀ a, X a → (m.node a).bit = 0 → (m.node a).path = key →
    W (some ((m.node a).child 0)) ∨ W none ∧ .slot (.child a 0) ((m.node a).child 0) ∈ l

/-- The key was bound all the time, and the dive from here would come to a leaf of it. -/
structure Leads (key : Word) (m : Mem) (g : Ghost) (X : Addr → Prop) (p : Addr) : Prop where
  stays : ∀ a, X a → (m.node a).bit = 0 → (m.node a).path = key → a ∈ g.tree.leaves
  finds : ¬ bits.Finds m.cell key p none

structure Stands (key : Word) (W : Option ℕ → Prop) (l : List Event) (m : Mem) (g : Ghost) (p : Addr) : Prop where
  inv : Inv m g
  seen : ∃ X, Seen m g X ∧ X p ∧ Known key W l m X ∧ (W none ∨ Leads key m g X p)

theorem Inv.map_leafAt (h : Inv m g) (ha : a ∈ g.tree.leaves) (hk : (m.node a).path = key) :
    g.tree.map key = some ((m.node a).child 0) := by
  rw [T.map, Coding.mapOf_eq_some h.wf.routed]
  exact ⟨_, h.has_leafAt ha, hk, rfl⟩

theorem Inv.stands (h : Inv m g) (hroot : m.root ≠ 0) (hw : W (g.tree.map key)) (l : List Event) :
    Stands key W l m g m.root := by
  refine ⟨h, _, h.seen, h.rep.mem (mt (rep_zero_iff h.rep).mpr hroot), fun a ha hb hk => ?_, ?_⟩
  · rw [h.map_leafAt (h.leaf_of_bit ha hb) hk] at hw
    exact Or.inl hw
  · by_cases hnone : g.tree.map key = none
    · rw [hnone] at hw
      exact Or.inl hw
    · refine Or.inr ⟨fun a ha hb _ => h.leaf_of_bit ha hb, fun hr => hnone ?_⟩
      rw [T.map, Coding.mapOf, ← (Coding.finds_iff h.rep).mp hr]
      rfl

theorem Known.step (hn : Known key W l m X) (hX : Seen m g X) (h : Inv m g) (hs : WatchedStep key W m g e g')
    (hcut : W none ∨ ∀ a, X a → (m.node a).bit = 0 → (m.node a).path = key → a ∈ g.tree.leaves) :
    Known key W (l ++ [e]) (m.store e) fun a => X a ∨ a ∈ g'.tree.nodes + g'.tree.leaves := by
  obtain ⟨⟨Q, hs⟩, hw⟩ := hs
  have hinv := hs.inv h
  rintro a (ha | ha) hb hk
  · have hl := hX.linked a ha
    have hhdr := hs.hdr_eq hl
    have hb₀ : (m.node a).bit = 0 := (congrArg Hdr.bit hhdr).symm.trans hb
    have hk₀ : (m.node a).path = key := (congrArg Hdr.path hhdr).symm.trans hk
    by_cases he : ∃ i q, e = .slot (.child a i) q
    · obtain ⟨i, q, rfl⟩ := he
      rcases hs.slot_child hl with ht | ⟨hc, rfl⟩
      · exact absurd hb (hinv.bit_of_mem ht).2
      · refine Or.inr ⟨hcut.resolve_right fun hstay => ?_, ?_⟩
        · exact (h.placed (Multiset.mem_add.mpr (Or.inl (hstay a ha hb₀ hk₀)))).2 hc
        · simp [Mem.store, Mem.setNode]
    · have hnode := hs.node_eq hl fun i q hq => he ⟨i, q, hq⟩
      rw [hnode]
      exact (hn a ha hb₀ hk₀).imp id (And.imp id (List.mem_append_left _))
  · rw [hinv.map_leafAt (hinv.leaf_of_bit ha hb) hk] at hw
    exact Or.inl hw

theorem Leads.step (hd : Leads key m g X p) (hX : Seen m g X) (hp : X p) (h : Inv m g) (hs : WatchedStep key W m g e g') :
    W none ∨ Leads key (m.store e) g' (fun a => X a ∨ a ∈ g'.tree.nodes + g'.tree.leaves) p := by
  obtain ⟨⟨Q, hs⟩, hw⟩ := hs
  have hinv := hs.inv h
  by_cases hnone : g'.tree.map key = none
  · rw [hnone] at hw
    exact Or.inl hw
  refine Or.inr ⟨?_, fun hr => ?_⟩
  · rintro a (ha | ha) hb hk
    · have hhdr := hs.hdr_eq (hX.linked a ha)
      have hk₀ : (m.node a).path = key := (congrArg Hdr.path hhdr).symm.trans hk
      refine (hs.leaf_stays h (hd.stays a ha ((congrArg Hdr.bit hhdr).symm.trans hb) hk₀)).resolve_right ?_
      rwa [hk₀]
    · exact hinv.leaf_of_bit ha hb
  · have hcut : ∀ a, X a → a ∈ g.cut → (m.node a).path ≠ key := by
      intro a ha hc hk
      have hin := hd.stays a ha (h.leafBit a (h.cut_leaf hc)) hk
      exact (h.placed (Multiset.mem_add.mpr (Or.inl hin))).2 hc
    have hclosed : ∀ {p n ch}, X p → m.cell p = .node n ch → ∀ i, X (ch i) := by
      intro p n ch hp hn i
      have h0 := (hX.linked p hp).ne_zero
      by_cases hb : (m.node p).bit = 0
      · cases (cell_leaf h0 hb).symm.trans hn
      · cases (cell_node h0 hb).symm.trans hn
        exact hX.closed p hp hb i
    rcases Coding.Finds.of_fate hclosed (fun a ha => hs.fate h (hX.linked a ha) (hcut a ha)) hp hr with hr | hr
    · exact hd.finds hr
    · exact hnone (by rw [T.map, Coding.mapOf, ← hr]; rfl)

theorem stands_tracks (key : Word) (W : Option ℕ → Prop) : Tracks key (WatchedStep key W) (Stands key W) where
  steps := And.left
  inv := by
    rintro l m g p ⟨hinv, X, hX, hp, -⟩
    exact ⟨hinv, hX.linked p hp⟩
  store := by
    rintro l m g p e g' hs ⟨hinv, X, hX, hp, hn, hd⟩
    obtain ⟨Q, hstep⟩ := hs.1
    refine ⟨hs.inv hinv, _, hX.step hinv hstep, Or.inl hp, hn.step hX hinv hs (hd.imp id Leads.stays), ?_⟩
    exact hd.elim Or.inl fun hd => hd.step hX hp hinv hs
  child := by
    rintro l m g p ⟨hinv, X, hX, hp, hn, hd⟩ hb i rfl
    refine ⟨hinv, X, hX, hX.closed p hp hb _, hn, hd.imp id fun hd => ⟨hd.stays, fun hr => hd.finds ?_⟩⟩
    exact .node (cell_node (hX.linked p hp).ne_zero hb) hr

/-! ## The call -/

variable {s : List (Act Loc Event)} {r : Except Stuck ℕ} {fuel : ℕ}

/-- What is there at the end of the dive is an answer that was right at some moment. -/
theorem Stands.answer (h : Stands key W l m g p) (hb : (m.node p).bit = 0) :
    ((m.node p).path = key → W (some ((m.node p).child 0)) ∨ W none ∧ .slot (.child p 0) ((m.node p).child 0) ∈ l) ∧
      ((m.node p).path ≠ key → W none) := by
  obtain ⟨hinv, X, hX, hp, hn, hd⟩ := h
  refine ⟨hn p hp hb, fun hk => hd.resolve_right fun hd => hd.finds ?_⟩
  have hkey : bits.key (m.leafAt p) ≠ key := hk
  have hr : bits.Finds m.cell key p _ := .leaf (cell_leaf (hX.linked p hp).ne_zero hb)
  rwa [if_neg hkey] at hr

theorem critbitGet_current (h : Inv m g) (hw : W (g.tree.map key)) (hp : Path (WatchedStep key W) m g (stores s) g')
    (hx : Prog.Exec Mem.load m s (critbitGet key fuel) r) (hf : 64 < fuel) (hs : Unchained m s) :
    ∃ v, r = .ok v ∧ (W (some v) ∨ v = NULL ∧ W none) := by
  obtain ⟨l₁, s₁, rfl, hx₁⟩ := hx.of_get_bind
  simp only [stores_append, Prog.stores_map_store, stores_load] at hp
  obtain ⟨g₁, hp₁, hp₂⟩ := hp.split
  obtain ⟨hinv, hw⟩ := hp₁.inv (I := fun m g => Inv m g ∧ W (g.tree.map key))
    (fun hs h => ⟨hs.inv h.1, hs.2⟩) ⟨h, hw⟩
  by_cases hroot : (storeAll m l₁).load .root = 0
  · rw [if_pos hroot] at hx₁
    obtain ⟨rfl, -⟩ := hx₁.of_ret
    rw [(rep_zero_iff hinv.rep).mp hroot] at hw
    exact ⟨NULL, rfl, Or.inr ⟨rfl, hw⟩⟩
  rw [if_neg hroot] at hx₁
  obtain ⟨s₂, s₃, n, g₂, rfl, hst, hb, hres⟩ :=
    (stands_tracks key W).lookup (hinv.stands hroot hw l₁) hf hp₂ hx₁
  obtain ⟨hbound, hnone⟩ := hst.answer hb
  rcases hres with ⟨hk, rfl, s₄, rfl⟩ | ⟨hk, rfl⟩
  · refine ⟨_, rfl, (hbound hk).imp id fun ⟨hw, hlink⟩ => ⟨?_, hw⟩⟩
    refine hs (l₁.map .store ++ .load .root :: s₂) s₄ n _ (by simp) ?_ ?_
    · simpa using hb
    · simpa using hlink
  · exact ⟨NULL, rfl, Or.inr ⟨rfl, hnone hk⟩⟩

/-- What the map has for the key. -/
def Maps (m : Mem) (key : Word) : Option ℕ → Prop
  | some v => Binds m key v
  | none => ∀ v, ¬ Binds m key v

theorem Inv.maps (h : Inv m g) (key : Word) : Maps m key (g.tree.map key) := by
  cases hmap : g.tree.map key with
  | some v => exact h.binds_iff.mpr hmap
  | none =>
      intro v hv
      rw [h.binds_iff.mp hv] at hmap
      cases hmap

/-- Every moment of a path is watched. -/
theorem Inv.watched (h : Inv m g) (hp : Path (Step Q) m g log g')
    (hw : ∀ l l', log = l ++ l' → ∀ b, Maps (storeAll m l) key b → W b) : Path (WatchedStep key W) m g log g' := by
  induction hp with
  | nil m g => exact .nil m g
  | @cons m g g₁ g₂ e log hs _ ih =>
      have hinv := hs.inv h
      refine .cons ⟨⟨Q, hs⟩, hw [e] log rfl _ (hinv.maps key)⟩ (ih hinv fun l l' hl => ?_)
      exact hw (e :: l) l' (by rw [hl]; rfl)

section

variable {ok : ℕ → Bool} {node : Addr → Node} {ws : List Write} {before rest : List Event}

/-- As long as no removed leaf's link is taken for its value, a lookup returns what the map had for the key at some
moment between the call and the return. -/
theorem critbit_get_current (hw : Writes ok (critbitNew node) ws (before ++ (stores s ++ rest)))
    (hx : Prog.Exec Mem.load (storeAll (critbitNew node) before) s (critbitGet key fuel) r) (hf : 64 < fuel)
    (hs : Unchained (storeAll (critbitNew node) before) s) :
    ∃ v l l', r = .ok v ∧ stores s = l ++ l' ∧ (Binds (storeAll (critbitNew node) (before ++ l)) key v ∨
      v = NULL ∧ ∀ u, ¬ Binds (storeAll (critbitNew node) (before ++ l)) key u) := by
  rw [← List.append_assoc] at hw
  obtain ⟨g', hp⟩ := (quiet_new node).path hw
  obtain ⟨g₁, hp₁, hp₂⟩ := hp.split
  have hinv := hp₁.inv Step.inv (quiet_new node).toInv
  let W := fun b => ∃ l l', stores s = l ++ l' ∧ Maps (storeAll (critbitNew node) (before ++ l)) key b
  have hwatched : Path (WatchedStep key W) (storeAll (critbitNew node) before) g₁ (stores s) g' :=
    hinv.watched hp₂ fun l l' hl b hb => ⟨l, l', hl, by rwa [storeAll_append]⟩
  have hnow : W (g₁.tree.map key) := ⟨[], stores s, rfl, by rw [List.append_nil]; exact hinv.maps key⟩
  obtain ⟨v, rfl, ⟨l, l', hl, hb⟩ | ⟨rfl, l, l', hl, hb⟩⟩ := critbitGet_current hinv hnow hwatched hx hf hs
  · exact ⟨v, l, l', rfl, hl, Or.inl hb⟩
  · exact ⟨NULL, l, l', rfl, hl, Or.inr ⟨rfl, hb⟩⟩

theorem critbit_get_current_early : ∃ v l l', Except.ok 10 = (Except.ok v : Except Stuck ℕ) ∧ stores early = l ++ l' ∧
    (Binds (storeAll blank (pairLog ++ l)) 1 v ∨ v = NULL ∧ ∀ u, ¬ Binds (storeAll blank (pairLog ++ l)) 1 u) :=
  critbit_get_current early_writes early_exec (by decide) fun s₁ s₂ a p hs _ hm => by
    have hmem : .slot (.child a 0) p ∈ stores early := by
      rw [hs]
      simp [hm]
    simp [early] at hmem

/-! ## How many loads it makes -/

theorem dive_atMost {n : Addr} : (dive key fuel n).AtMost (3 * fuel) := by
  induction fuel generalizing n with
  | zero => exact .ret _
  | succ fuel ih =>
      unfold dive
      split
      · exact .ret _
      · refine Prog.AtMost.get_bind (b := 3 * fuel + 2) fun bit => ?_
        split
        · exact Prog.AtMost.get_bind fun bit => Prog.AtMost.get_bind fun n => ih
        · exact .ret _

theorem critbitGet_atMost : (critbitGet key fuel).AtMost (3 * fuel + 3) := by
  refine Prog.AtMost.get_bind fun n => ?_
  split
  · exact .ret _
  · refine dive_atMost.bind (b := 2) fun n => Prog.AtMost.get_bind fun path => ?_
    split
    · exact .get _
    · exact .ret _

theorem critbitGet_ends (h : Inv m g) (hp : Path (Step Q) m g (stores s) g')
    (hx : Prog.Exec Mem.load m s (critbitGet key fuel) r) (hf : 64 < fuel) : ∃ v, r = .ok v := by
  obtain ⟨l₁, s₁, rfl, hx₁⟩ := hx.of_get_bind
  simp only [stores_append, Prog.stores_map_store, stores_load] at hp
  obtain ⟨g₁, hp₁, hp₂⟩ := hp.split
  have hinv := hp₁.inv Step.inv h
  by_cases hroot : (storeAll m l₁).load .root = 0
  · rw [if_pos hroot] at hx₁
    exact ⟨_, hx₁.of_ret.1⟩
  rw [if_neg hroot] at hx₁
  have hp₂ : Path (Step fun _ => True) (storeAll m l₁) g₁ (stores s₁) g' := hp₂.mono (Step.mono fun _ _ => trivial)
  obtain ⟨s₂, s₃, n, g₂, rfl, -, -, hres⟩ :=
    (fed_tracks (fun _ => True) key).lookup (hinv.fed (fun _ _ => trivial) hroot l₁) hf hp₂ hx₁
  exact hres.elim (fun h => ⟨_, h.2.1⟩) fun h => ⟨_, h.2⟩

/-- Nothing that writers do keeps a lookup for more than its 198 loads, and it returns without an error. -/
theorem critbit_get_bounded {ι : Type} [DecidableEq ι] {ps ps' : ι → R ℕ}
    {first during : List (Sys.Act ι Event Loc Loc.Val ℕ)} {i : ι} {log : List Event}
    (hw : Writes ok (critbitNew node) ws (log ++ rest))
    (hx : Sys.Exec Mem.load (critbitNew node) ps (first ++ .call i (critbitGet key 65) :: during) ps')
    (hlog : Sys.stores (first ++ .call i (critbitGet key 65) :: during) = log) (hcall : ∀ p, .call i p ∉ during) :
    Sys.loads i during ≤ 198 ∧ (Sys.loads i during = 198 → ∃ r, ps' i = .ret r) ∧
      ∀ r, ps' i = .ret r → ∃ v, r = .ok v := by
  subst hlog
  refine hx.bounded hcall fun tr r htr hstores => ?_
  simp only [Sys.stores_append, Sys.stores] at hw
  obtain ⟨g', hp⟩ := (quiet_new node).path hw
  obtain ⟨g₁, hp₁, hp₂⟩ := hp.split
  rw [← hstores] at hp₂ ⊢
  have hmost : (critbitGet key 65).AtMost (3 * 65 + 3) := critbitGet_atMost
  exact ⟨critbitGet_ends (hp₁.inv Step.inv (quiet_new node).toInv) hp₂ htr (by decide), htr.length_le hmost⟩

/-- The schedule of `early`. -/
abbrev earlyDuring : List (Sys.Act Unit Event Loc Loc.Val ℕ) :=
  [.load (), .store (.slot .root 4), .load (), .load (), .load ()]

theorem early_sys : Sys.Exec Mem.load blank (fun _ => .ret (.ok 0))
    (pairLog.map .store ++ .call () (critbitGet 1 65) :: earlyDuring) fun _ => .ret (.ok 10) :=
  .store <| .store <| .store <| .store <| .store <| .store <| .store <| .store <| .store <| .store <| .store <|
    .call rfl <| .load rfl <| .store <| .load rfl <| .load rfl <| .load rfl <| .nil _ _

theorem critbit_get_bounded_early : Sys.loads () earlyDuring ≤ 198 ∧
    (Sys.loads () earlyDuring = 198 → ∃ r, (Prog.ret (.ok 10) : R ℕ) = .ret r) ∧
      ∀ r, (Prog.ret (.ok 10) : R ℕ) = .ret r → ∃ v, r = .ok v := by
  have hw : Writes (fun _ => true) blank fourCalls (pairLog ++ [.slot .root 4] ++ removeLog) := four_writes
  have h := critbit_get_bounded hw early_sys rfl (by simp)
  exact h

end

end Ptok.Critbit
