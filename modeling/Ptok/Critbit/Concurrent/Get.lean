import Ptok.Lib.Finds
import Ptok.Critbit.Concurrent.Seen

/-!
# critbit_get among writers

A lookup of a key that stays bound returns its value. Any other lookup returns a value of the key too, but for one
defect: a removed leaf is chained to the list by the field its value was in.
-/

namespace Ptok.Critbit

open Lib

variable {m : Mem} {g g' : Ghost} {e : Event} {Q : Leaf → Prop} {a p : Addr} {X : Addr → Prop} {key : Word}

/-! ## The dive -/

/-- What is known of the place a reader stands at, when `l` was stored since it began, holds on over the stores of
writers and on the way down. -/
structure Tracks (key : Word) (step : Mem → Ghost → Event → Ghost → Prop)
    (St : List Event → Mem → Ghost → Addr → Prop) : Prop where
  steps : ∀ {m g e g'}, step m g e g' → ∃ Q, Step Q m g e g'
  inv : ∀ {l m g p}, St l m g p → Inv m g ∧ g.Linked m.malloced p
  store : ∀ {l m g p e g'}, step m g e g' → St l m g p → St (l ++ [e]) (m.store e) g' p
  child : ∀ {l m g p}, St l m g p → (m.node p).bit ≠ 0 → ∀ i, i = bits.dig key (bits.pos (m.hdr p)) →
    St l m g ((m.node p).child i)

namespace Tracks

variable {step : Mem → Ghost → Event → Ghost → Prop} {St : List Event → Mem → Ghost → Addr → Prop}
  {l log : List Event}

theorem stores (h : Tracks key step St) (hp : St l m g p) (hlog : Path step m g log g') :
    St (l ++ log) (storeAll m log) g' p ∧ (storeAll m log).hdr p = m.hdr p := by
  induction hlog generalizing l with
  | nil => exact ⟨by simpa using hp, rfl⟩
  | @cons m g g₁ g₂ e log hs _ ih =>
      obtain ⟨h₁, h₂⟩ := ih (h.store hs hp)
      obtain ⟨Q, hs⟩ := h.steps hs
      rw [List.append_assoc, List.singleton_append] at h₁
      exact ⟨h₁, h₂.trans (hs.hdr_eq (h.inv hp).2)⟩

/-- The dive ends at a leaf, after at most 64 inner nodes. -/
theorem dive (h : Tracks key step St) {fuel : ℕ} {n : Addr} {s : List (Act Loc Event)} {r : Except Stuck Addr}
    (hn : St l m g n) (hx : Prog.Exec Mem.load m s (dive key fuel n) r) (hlog : Path step m g (Lib.stores s) g')
    (hf : 0 < fuel) (hfuel : (m.node n).bit ≠ 0 → 64 < fuel + bits.pos (m.hdr n)) :
    ∃ n', r = .ok n' ∧ St (l ++ Lib.stores s) (storeAll m (Lib.stores s)) g' n' ∧
      ((storeAll m (Lib.stores s)).node n').bit = 0 := by
  induction fuel generalizing l m g n s with
  | zero => exact absurd hf (Nat.lt_irrefl 0)
  | succ fuel ih =>
      obtain ⟨hinv, hl⟩ := h.inv hn
      rw [Critbit.dive, if_neg hl.ne_zero] at hx
      obtain ⟨l₁, s₁, rfl, hx₁⟩ := hx.of_get_bind
      simp only [stores_append, Prog.stores_map_store, stores_load] at hlog ⊢
      obtain ⟨g₁, hlog₁, hlog⟩ := hlog.split
      obtain ⟨hn₁, hhdr₁⟩ := h.stores hn hlog₁
      by_cases hb : ((storeAll m l₁).node n).bit = 0
      · have hbit : ¬ (storeAll m l₁).load (.bit n) ≠ 0 := not_not.mpr hb
        rw [if_neg hbit] at hx₁
        obtain ⟨rfl, -⟩ := hx₁.of_ret
        obtain ⟨hn₂, hhdr₂⟩ := h.stores hn₁ hlog
        rw [storeAll_append, ← List.append_assoc]
        exact ⟨n, rfl, hn₂, (congrArg Hdr.bit hhdr₂).trans hb⟩
      · have hbit : (storeAll m l₁).load (.bit n) ≠ 0 := hb
        rw [if_pos hbit] at hx₁
        obtain ⟨l₂, s₂, rfl, hx₂⟩ := hx₁.of_get_bind
        obtain ⟨l₃, s₃, rfl, hx₃⟩ := hx₂.of_get_bind
        simp only [stores_append, Prog.stores_map_store, stores_load] at hlog ⊢
        obtain ⟨g₂, hlog₂, hlog⟩ := hlog.split
        obtain ⟨g₃, hlog₃, hlog₄⟩ := hlog.split
        obtain ⟨hn₂, hhdr₂⟩ := h.stores hn₁ hlog₂
        obtain ⟨hn₃, hhdr₃⟩ := h.stores hn₂ hlog₃
        -- the child is loaded from the same node, whose bit is what it was
        have hb₃ : ((storeAll (storeAll (storeAll m l₁) l₂) l₃).node n).bit ≠ 0 := by
          have := congrArg Hdr.bit (hhdr₃.trans hhdr₂)
          exact fun h0 => hb (this.symm.trans h0)
        obtain ⟨hinv₃, hl₃⟩ := h.inv hn₃
        obtain ⟨hok, hc⟩ := hinv₃.closed n hl₃ hb₃
        have hdir : dirOf ((storeAll (storeAll m l₁) l₂).load (.bit n) &&& key) =
            bits.dig key (bits.pos ((storeAll (storeAll (storeAll m l₁) l₂) l₃).hdr n)) := by
          rw [← dirOf_bit hok key, hhdr₃]
          rfl
        have hpos : bits.pos ((storeAll (storeAll (storeAll m l₁) l₂) l₃).hdr n) = bits.pos (m.hdr n) := by
          rw [hhdr₃, hhdr₂, hhdr₁]
        have hlt : 64 < fuel + 1 + bits.pos (m.hdr n) :=
          hfuel fun h0 => hb ((congrArg Hdr.bit hhdr₁).trans h0)
        have hlen := (bits_ok_iff.mp hok).1
        have hn' := h.child hn₃ hb₃ _ hdir
        have hstep := (hc (dirOf ((storeAll (storeAll m l₁) l₂).load (.bit n) &&& key))).2
        obtain ⟨n', rfl, hst, hleaf⟩ := ih hn' hx₃ hlog₄ (by omega) fun hb' => by
          have := hstep hb'
          change 64 < fuel + bits.pos (Mem.hdr _ (Node.child _ _))
          omega
        refine ⟨n', rfl, ?_, ?_⟩
        · simpa using hst
        · simpa using hleaf

/-- The two loads after the dive. -/
theorem lookup (h : Tracks key step St) {fuel : ℕ} {n : Addr} {s : List (Act Loc Event)} {r : Except Stuck ℕ}
    (hn : St l m g n) (hf : 64 < fuel) (hlog : Path step m g (Lib.stores s) g')
    (hx : Prog.Exec Mem.load m s (do
      let n ← Critbit.dive key fuel n
      let path ← load (.path n)
      if path = key then load (.child n 0) else pure NULL) r) :
    ∃ s₁ s₂ n' g₁, s = s₁ ++ s₂ ∧ St (l ++ Lib.stores s₁) (storeAll m (Lib.stores s₁)) g₁ n' ∧
      ((storeAll m (Lib.stores s₁)).node n').bit = 0 ∧
      (((storeAll m (Lib.stores s₁)).node n').path = key ∧ r = .ok (((storeAll m (Lib.stores s₁)).node n').child 0) ∧
          (∃ s₃, s₂ = .load (.child n' 0) :: s₃) ∨
        ((storeAll m (Lib.stores s₁)).node n').path ≠ key ∧ r = .ok NULL) := by
  obtain ⟨s₁, s₂, r₁, rfl, hx₁, hx₂⟩ := hx.bind
  rw [stores_append] at hlog
  obtain ⟨g₁, hlog₁, hlog⟩ := hlog.split
  obtain ⟨n', rfl, hn', hb⟩ := h.dive hn hx₁ hlog₁ (by omega) fun _ => by omega
  obtain ⟨l₂, s₃, rfl, hx₃⟩ := hx₂.of_get_bind
  simp only [stores_append, Prog.stores_map_store, stores_load] at hlog
  obtain ⟨g₂, hlog₂, hlog₃⟩ := hlog.split
  obtain ⟨hn₂, hhdr₂⟩ := h.stores hn' hlog₂
  have hb₂ : ((storeAll (storeAll m (Lib.stores s₁)) l₂).node n').bit = 0 := (congrArg Hdr.bit hhdr₂).trans hb
  by_cases hk : ((storeAll (storeAll m (Lib.stores s₁)) l₂).node n').path = key
  · have hpath : (storeAll (storeAll m (Lib.stores s₁)) l₂).load (.path n') = key := hk
    rw [if_pos hpath] at hx₃
    obtain ⟨l₃, s₄, rfl, hx₄⟩ := hx₃.of_load
    obtain ⟨rfl, -⟩ := hx₄.of_ret
    simp only [stores_append, Prog.stores_map_store, stores_load] at hlog₃
    obtain ⟨g₃, hlog₃, -⟩ := hlog₃.split
    obtain ⟨hn₃, hhdr₃⟩ := h.stores hn₂ hlog₃
    have hb₃ : ((storeAll (storeAll (storeAll m (Lib.stores s₁)) l₂) l₃).node n').bit = 0 :=
      (congrArg Hdr.bit hhdr₃).trans hb₂
    have hk₃ : ((storeAll (storeAll (storeAll m (Lib.stores s₁)) l₂) l₃).node n').path = key :=
      (congrArg Hdr.path hhdr₃).trans hk
    refine ⟨s₁ ++ (l₂.map .store ++ .load (.path n') :: l₃.map .store), .load (.child n' 0) :: s₄, n', g₃, by simp, ?_, ?_,
      Or.inl ⟨?_, ?_, s₄, rfl⟩⟩
    · simpa using hn₃
    · simpa using hb₃
    · simpa using hk₃
    · simp
      rfl
  · have hpath : ¬ (storeAll (storeAll m (Lib.stores s₁)) l₂).load (.path n') = key := hk
    rw [if_neg hpath] at hx₃
    obtain ⟨rfl, -⟩ := hx₃.of_ret
    refine ⟨s₁ ++ l₂.map .store, .load (.path n') :: s₃, n', g₂, by simp, ?_, ?_, Or.inr ⟨?_, rfl⟩⟩
    · simpa using hn₂
    · simpa using hb₂
    · simpa using hk

end Tracks

/-! ## A key that stays bound -/

/-- A store changes nothing that readers come to but a leaf that was removed, or it puts another subtree into a slot of
the tree. A lookup in the new subtree gives what it gave in the old one, or what it gives now in the whole tree. -/
theorem Step.relink (hs : Step Q m g e g') (h : Inv m g) :
    (∀ a, g.Linked m.malloced a → a ∉ g.cut → (m.store e).node a = m.node a) ∨
      ∃ sel u q, e = .slot (Tree.slotOf sel .root g.tree) q ∧ g'.tree = Tree.plug sel u g.tree ∧
        ∀ key, bits.get key u = bits.get key (Tree.focus sel g.tree) ∨ bits.get key u = bits.get key g'.tree := by
  have hinv := hs.inv h
  have hrouted : ∀ {sel u}, g'.tree = Tree.plug sel u g.tree → bits.Routed u := fun {sel u} he => by
    obtain ⟨b, -, hfit⟩ := hinv.wf.fits.sub (he ▸ Tree.sub_plug sel u g.tree)
    exact hfit.routed
  cases hs with
  | zalloc => exact Or.inl fun a ha _ => zalloc_node ha.alloc
  | held hh => exact Or.inl fun a ha _ => hh.node_eq ha.made ha.fresh
  | @linkRoot k made _ hnil =>
      exact Or.inr ⟨insertSel 0, .leaf k (m.leafAt k), k, by rw [hnil]; rfl, by rw [hnil]; rfl, fun _ => Or.inr rfl⟩
  | @linkSplit key path k a made fresh _ _ hkey _ hat =>
      refine Or.inr ⟨_, _, _, rfl, rfl, Coding.get_plug_or (insertSel_follows key).chooses h.wf.fits (hrouted rfl) ?_⟩
      intro l hl
      rw [splitTree_has hat, or_iff_right]
      rintro rfl
      exact hl hkey
  | @unlinkRoot k l hleaf =>
      exact Or.inr ⟨insertSel 0, .nil, 0, by rw [hleaf]; rfl, by rw [hleaf]; rfl, fun _ => Or.inr rfl⟩
  | @splice key a k hdr c l hfoc hleaf hkey =>
      refine Or.inr ⟨_, _, _, rfl, rfl,
        Coding.get_plug_or (Coding.toParent_chooses bits key) h.wf.fits (hrouted rfl) fun l' hl' => ?_⟩
      rw [hfoc]
      constructor
      · exact fun hl => ⟨_, hl⟩
      · rintro ⟨i, hi⟩
        have hcase : ∀ d i : Fin 2, i = d ∨ i = 1 - d := by decide
        rcases hcase (bits.dig key (bits.pos hdr)) i with rfl | rfl
        · rw [hleaf] at hi
          obtain rfl : l = l' := hi
          exact absurd hkey hl'
        · exact hi
  | chain hk =>
      refine Or.inl fun a _ hcut => slot_node m fun i hi => hcut ?_
      cases hi
      exact hk
  | _ => exact Or.inl fun _ _ _ => rfl

/-- A store as readers of a key see it that is not the key of the leaf at hand. -/
theorem Step.fate (hs : Step Q m g e g') (h : Inv m g) (ha : g.Linked m.malloced a)
    (hkey : a ∈ g.cut → (m.node a).path ≠ key) :
    Coding.Fate bits m.cell (m.store e).cell key (· = bits.get key g'.tree) a := by
  have hinv := hs.inv h
  have hhdr := hs.hdr_eq ha
  rcases hs.relink h with hsame | ⟨sel, u, q, rfl, ht, hview⟩
  · by_cases hcut : a ∈ g.cut
    · have hb := h.leafBit a (h.cut_leaf hcut)
      have hb' : ((m.store e).node a).bit = 0 := (congrArg Hdr.bit hhdr).trans hb
      have hpath : ((m.store e).node a).path = (m.node a).path := congrArg Hdr.path hhdr
      refine .other (cell_leaf ha.ne_zero hb) (cell_leaf ha.ne_zero hb') (hkey hcut) ?_
      show ((m.store e).node a).path ≠ key
      rw [hpath]
      exact hkey hcut
    · exact .same (cell_congr (hsame a ha hcut))
  · have hheap := h.heap_slot sel q
    have hrep : Rep (m.heap.set (Tree.slotOf sel .root g.tree) q).cell
        (m.heap.set (Tree.slotOf sel .root g.tree) q).root (Tree.plug sel u g.tree) := by
      rw [← hheap, ← ht]
      exact hinv.rep
    rw [h.cell_slot]
    exact Coding.fate_set sel (h := m.heap) h.rep hrep (hview key) a

/-- The key is bound, and a dive from here would come to its leaf. -/
structure Guided (l : Leaf) (m : Mem) (g : Ghost) (p : Addr) : Prop where
  inv : Inv m g
  /-- no leaf of the key was removed since the reader began -/
  seen : ∃ X, Seen m g X ∧ X p ∧ ∀ a, X a → (m.node a).bit = 0 → (m.node a).path = l.key → a ∈ g.tree.leaves
  finds : ∀ r, bits.Finds m.cell l.key p r → r = some l

/-- A store after which the key is bound to the value. -/
def KeepStep (l : Leaf) (m : Mem) (g : Ghost) (e : Event) (g' : Ghost) : Prop :=
  (∃ Q, Step Q m g e g') ∧ bits.get l.key g'.tree = some l

theorem KeepStep.inv {l : Leaf} (hs : KeepStep l m g e g') (h : Inv m g) : Inv (m.store e) g' := by
  obtain ⟨⟨Q, hs⟩, -⟩ := hs
  exact hs.inv h

theorem Inv.leaf_of_bit (h : Inv m g) (ha : a ∈ g.tree.nodes + g.tree.leaves) (hb : (m.node a).bit = 0) :
    a ∈ g.tree.leaves :=
  (Multiset.mem_add.mp ha).resolve_left fun hn => (h.bit_of_mem hn).2 hb

theorem Inv.guided {l : Leaf} (h : Inv m g) (hget : bits.get l.key g.tree = some l) : Guided l m g m.root := by
  refine ⟨h, ⟨_, h.seen, h.rep.mem ?_, fun a ha hb _ => h.leaf_of_bit ha hb⟩, fun r hr => ?_⟩
  · intro hnil
    rw [hnil] at hget
    cases hget
  · rw [(Coding.finds_iff h.rep).mp hr, hget]

theorem guided_tracks (l : Leaf) : Tracks l.key (KeepStep l) fun _ => Guided l where
  steps := And.left
  inv := by
    rintro _ m g p ⟨hinv, ⟨X, hX, hp, -⟩, -⟩
    exact ⟨hinv, hX.linked p hp⟩
  store := by
    rintro _ m g p e g' ⟨⟨Q, hs⟩, hget⟩ ⟨hinv, ⟨X, hX, hp, hleaf⟩, hfinds⟩
    have hinv' := hs.inv hinv
    refine ⟨hinv', ⟨_, hX.step hinv hs, Or.inl hp, ?_⟩, fun r hr => ?_⟩
    · rintro a (ha | ha) hb hk
      · have hhdr := hs.hdr_eq (hX.linked a ha)
        have hpath : (m.node a).path = l.key := (congrArg Hdr.path hhdr).symm.trans hk
        refine (hs.leaf_stays hinv (hleaf a ha ((congrArg Hdr.bit hhdr).symm.trans hb) hpath)).resolve_right fun hnone => ?_
        rw [hpath, T.map, Coding.mapOf, hget] at hnone
        cases hnone
      · exact hinv'.leaf_of_bit ha hb
    · have hcut : ∀ a, X a → a ∈ g.cut → (m.node a).path ≠ l.key := by
        intro a ha hc hk
        have hin := hleaf a ha (hinv.leafBit a (hinv.cut_leaf hc)) hk
        exact (hinv.placed (Multiset.mem_add.mpr (Or.inl hin))).2 hc
      have hclosed : ∀ {p n ch}, X p → m.cell p = .node n ch → ∀ i, X (ch i) := by
        intro p n ch hp hn i
        have h0 := (hX.linked p hp).ne_zero
        by_cases hb : (m.node p).bit = 0
        · cases (cell_leaf h0 hb).symm.trans hn
        · cases (cell_node h0 hb).symm.trans hn
          exact hX.closed p hp hb i
      refine (Coding.Finds.of_fate hclosed (fun a ha => hs.fate hinv (hX.linked a ha) (hcut a ha)) hp hr).elim
        (hfinds r) fun hr => ?_
      rw [hr, hget]
  child := by
    rintro _ m g p ⟨hinv, ⟨X, hX, hp, hleaf⟩, hfinds⟩ hb i rfl
    refine ⟨hinv, ⟨X, hX, hX.closed p hp hb _, hleaf⟩, fun r hr => hfinds r ?_⟩
    exact .node (cell_node (hX.linked p hp).ne_zero hb) hr

/-- Where the dive ends there is the key's leaf. -/
theorem Guided.leafAt_eq {l : Leaf} (h : Guided l m g p) (hb : (m.node p).bit = 0) : m.leafAt p = l := by
  obtain ⟨-, hl⟩ := (guided_tracks l).inv (l := []) h
  have hr := h.finds _ (.leaf (cell_leaf hl.ne_zero hb))
  split at hr
  · exact Option.some.inj hr
  · cases hr

theorem Inv.get_of_binds (h : Inv m g) {v : ℕ} (hb : Binds m key v) : bits.get key g.tree = some ⟨key, v⟩ :=
  T.get_of_map h.wf.routed (h.binds_iff.mp hb)

theorem Inv.keep {v : ℕ} {log : List Event} (h : Inv m g) (hp : Path (Step Q) m g log g')
    (hb : ∀ l l', log = l ++ l' → Binds (storeAll m l) key v) : Path (KeepStep ⟨key, v⟩) m g log g' := by
  induction hp with
  | nil m g => exact .nil m g
  | @cons m g g₁ g₂ e log hs _ ih =>
      have hinv := hs.inv h
      refine .cons ⟨⟨Q, hs⟩, hinv.get_of_binds (hb [e] log rfl)⟩ (ih hinv fun l l' hl => ?_)
      exact hb (e :: l) l' (by rw [hl]; rfl)

section

variable {ok : ℕ → Bool} {node : Addr → Node} {ws : List Write} {before rest : List Event} {s : List (Act Loc Event)}
  {fuel : ℕ} {r : Except Stuck ℕ}

/-- A key that is bound to one value during the whole call is found, whatever else is inserted and removed meanwhile. -/
theorem critbit_get_undisturbed {v : ℕ} (hw : Writes ok (critbitNew node) ws (before ++ (stores s ++ rest)))
    (hx : Prog.Exec Mem.load (storeAll (critbitNew node) before) s (critbitGet key fuel) r) (hf : 64 < fuel)
    (hbound : ∀ l l', stores s = l ++ l' → Binds (storeAll (critbitNew node) (before ++ l)) key v) : r = .ok v := by
  rw [← List.append_assoc] at hw
  obtain ⟨g', hp⟩ := (quiet_new node).path hw
  obtain ⟨g₁, hp₁, hp₂⟩ := hp.split
  have hinv := hp₁.inv Step.inv (quiet_new node).toInv
  have hkeep := hinv.keep hp₂ fun l l' hl => by
    rw [← storeAll_append]
    exact hbound l l' hl
  -- the root
  obtain ⟨l₁, s₁, rfl, hx₁⟩ := hx.of_get_bind
  simp only [stores_append, Prog.stores_map_store, stores_load] at hkeep hbound
  obtain ⟨g₂, hkeep₁, hkeep₂⟩ := hkeep.split
  have hinv := hkeep₁.inv KeepStep.inv hinv
  have hget := hinv.get_of_binds (by simpa using hbound l₁ (stores s₁) rfl)
  have hne : g₂.tree ≠ .nil := by
    intro hnil
    rw [hnil] at hget
    cases hget
  have hroot : (storeAll (storeAll (critbitNew node) before) l₁).load .root ≠ 0 := mt (rep_zero_iff hinv.rep).mp hne
  rw [if_neg hroot] at hx₁
  obtain ⟨s₂, s₃, n, g₃, -, hst, hb, hres⟩ := (guided_tracks ⟨key, v⟩).lookup (l := []) (hinv.guided hget) hf hkeep₂ hx₁
  have hleaf := hst.leafAt_eq hb
  rcases hres with ⟨-, rfl, -⟩ | ⟨hk, -⟩
  · exact congrArg Except.ok (congrArg Leaf.value hleaf)
  · exact absurd (congrArg Leaf.key hleaf) hk

/-! ## A value of the key -/

theorem Inv.has_leafAt (h : Inv m g) (ha : a ∈ g.tree.leaves) : g.tree.Has (m.leafAt a) := by
  obtain ⟨l, hl, hhas⟩ := h.rep.has_of_mem ha
  obtain ⟨hlk, -⟩ := h.placed (Multiset.mem_add.mpr (Or.inl ha))
  have hleaf : a ∈ leafHalves m.malloced := by
    rw [← h.leaves]
    simp [ha]
  cases (cell_leaf hlk.ne_zero (h.leafBit a hleaf)).symm.trans hl
  exact hhas

/-- A leaf that the reader may come to is as it was linked, or the stores `l` have chained it to the list. -/
structure Fed (Q : Leaf → Prop) (l : List Event) (m : Mem) (g : Ghost) (p : Addr) : Prop where
  inv : Inv m g
  has : ∀ l, g.tree.Has l → Q l
  seen : ∃ X, Seen m g X ∧ X p ∧
    ∀ a, X a → (m.node a).bit = 0 → Q (m.leafAt a) ∨ .slot (.child a 0) ((m.node a).child 0) ∈ l

theorem Inv.fed (h : Inv m g) (hq : ∀ l, g.tree.Has l → Q l) (hroot : m.root ≠ 0) (l : List Event) : Fed Q l m g m.root := by
  refine ⟨h, hq, _, h.seen, h.rep.mem (mt (rep_zero_iff h.rep).mpr hroot), fun a ha hb => ?_⟩
  exact Or.inl (hq _ (h.has_leafAt (h.leaf_of_bit ha hb)))

theorem fed_tracks (Q : Leaf → Prop) (key : Word) : Tracks key (Step Q) (Fed Q) where
  steps := fun hs => ⟨Q, hs⟩
  inv := by
    rintro l m g p ⟨hinv, -, X, hX, hp, -⟩
    exact ⟨hinv, hX.linked p hp⟩
  store := by
    rintro l m g p e g' hs ⟨hinv, hq, X, hX, hp, hleaf⟩
    have hinv' := hs.inv hinv
    have hq' := hs.has hinv hq
    refine ⟨hinv', hq', _, hX.step hinv hs, Or.inl hp, ?_⟩
    rintro a (ha | ha) hb
    · have hl := hX.linked a ha
      have hhdr := hs.hdr_eq hl
      have hb₀ : (m.node a).bit = 0 := (congrArg Hdr.bit hhdr).symm.trans hb
      by_cases he : ∃ i q, e = .slot (.child a i) q
      · obtain ⟨i, q, rfl⟩ := he
        rcases hs.slot_child hl with ht | ⟨-, rfl⟩
        · exact absurd hb (hinv'.bit_of_mem ht).2
        · right
          simp [Mem.store, Mem.setNode]
      · have hnode := hs.node_eq hl fun i q hq => he ⟨i, q, hq⟩
        simp only [Mem.leafAt, hnode]
        exact (hleaf a ha hb₀).imp id fun hm => List.mem_append_left _ hm
    · exact Or.inl (hq' _ (hinv'.has_leafAt (hinv'.leaf_of_bit ha hb)))
  child := by
    rintro l m g p ⟨hinv, hq, X, hX, hp, hleaf⟩ hb i -
    exact ⟨hinv, hq, X, hX, hX.closed p hp hb i, hleaf⟩

/-- The reader does not load the value of a leaf after that was overwritten, since its call, with a link of the list. -/
def Unchained (m : Mem) (s : List (Act Loc Event)) : Prop :=
  ∀ s₁ s₂ a p, s = s₁ ++ .load (.child a 0) :: s₂ → ((storeAll m (stores s₁)).node a).bit = 0 →
    .slot (.child a 0) p ∈ stores s₁ → p = 0

/-- As long as no removed leaf's link is taken for its value, a lookup returns `NULL` or a value that an insert, begun
by now, paired with the key. -/
theorem critbit_get_paired (hw : Writes ok (critbitNew node) ws (before ++ (stores s ++ rest)))
    (hx : Prog.Exec Mem.load (storeAll (critbitNew node) before) s (critbitGet key fuel) r) (hf : 64 < fuel)
    (hs : Unchained (storeAll (critbitNew node) before) s) :
    ∃ v, r = .ok v ∧ (v = NULL ∨
      Begun Write.Absent (write ok) (critbitNew node) ws (before ++ stores s) (.insert key v)) := by
  rw [← List.append_assoc] at hw
  obtain ⟨g', hp⟩ := (quiet_new node).path hw
  obtain ⟨g₁, hp₁, hp₂⟩ := hp.split
  obtain ⟨hinv, hq⟩ := hp₁.inv (I := fun m g => Inv m g ∧ ∀ l, g.tree.Has l → _)
    (fun hs h => ⟨hs.inv h.1, hs.has h.1 h.2⟩) ⟨(quiet_new node).toInv, fun l hl => hl.elim⟩
  generalize Begun Write.Absent (write ok) (critbitNew node) ws (before ++ stores s) = P at hp₁ hp₂ hq ⊢
  -- the root
  obtain ⟨l₁, s₁, rfl, hx₁⟩ := hx.of_get_bind
  simp only [stores_append, Prog.stores_map_store, stores_load] at hp₂
  obtain ⟨g₂, hp₂, hp₃⟩ := hp₂.split
  obtain ⟨hinv, hq⟩ := hp₂.inv (I := fun m g => Inv m g ∧ ∀ l, g.tree.Has l → _)
    (fun hs h => ⟨hs.inv h.1, hs.has h.1 h.2⟩) ⟨hinv, hq⟩
  by_cases hroot : (storeAll (storeAll (critbitNew node) before) l₁).load .root = 0
  · rw [if_pos hroot] at hx₁
    obtain ⟨rfl, -⟩ := hx₁.of_ret
    exact ⟨NULL, rfl, Or.inl rfl⟩
  rw [if_neg hroot] at hx₁
  obtain ⟨s₂, s₃, n, g₃, rfl, hst, hb, hres⟩ := (fed_tracks _ key).lookup (hinv.fed hq hroot l₁) hf hp₃ hx₁
  obtain ⟨-, -, X, hX, hn, hleaf⟩ := hst
  rcases hres with ⟨hk, rfl, s₄, rfl⟩ | ⟨-, rfl⟩
  · refine ⟨_, rfl, ?_⟩
    rcases hleaf n hn hb with hq | hm
    · right
      have hq : P (.insert ((storeAll (storeAll (storeAll (critbitNew node) before) l₁) (stores s₂)).node n).path _) := hq
      rwa [hk] at hq
    · left
      refine hs (l₁.map .store ++ .load .root :: s₂) s₄ n _ (by simp) ?_ ?_
      · simpa using hb
      · simpa using hm
  · exact ⟨NULL, rfl, Or.inl rfl⟩

end

/-! ## A run -/

/-- A new structure with nothing in the heap. -/
abbrev blank : Mem := critbitNew fun _ => .zero

abbrev fourCalls : List Write := [.insert 1 10, .insert 2 20, .remove 1, .remove 2]

/-- The stores of the two inserts, but for the last one. -/
abbrev pairLog : List Event := [.zalloc true, .path 1 1, .value 1 10, .slot .root 1, .zalloc true, .path 3 2,
  .value 3 20, .slot (.child 4 0) 3, .slot (.child 4 1) 1, .bit 4 1, .path 4 0]

/-- The stores of the two removes. -/
abbrev removeLog : List Event := [.slot .root 3, .slot (.child 1 0) 0, .deletedNode 1, .slot .root 0,
  .slot (.child 3 0) 1, .deletedNode 3]

theorem not_binds_of_leaf {m : Mem} {l : Leaf} (h : m.cell m.root = .leaf l) {key : Word} (hk : l.key ≠ key) (v : ℕ) :
    ¬ Binds m key v := by
  rintro ⟨k, hr, hc⟩
  cases hr with
  | refl =>
      cases h.symm.trans hc
      exact hk rfl
  | child hp => cases h.symm.trans hp

theorem not_binds_of_nil {m : Mem} (h : m.cell m.root = .nil) (key : Word) (v : ℕ) : ¬ Binds m key v := by
  rintro ⟨k, hr, hc⟩
  cases hr with
  | refl => cases h.symm.trans hc
  | child hp => cases h.symm.trans hp

theorem four_writes : Writes (fun _ => true) blank fourCalls (pairLog ++ ([.slot .root 4] ++ removeLog)) := by
  have h₁ : Returns (fun fuel => write (fun _ => true) (.insert 1 10) fuel blank) (.errno .ok, pairLog.take 4) :=
    ⟨0, fun _ _ => rfl⟩
  have h₂ : Returns (fun fuel => write (fun _ => true) (.insert 2 20) fuel (storeAll blank (pairLog.take 4)))
      (.errno .ok, pairLog.drop 4 ++ [.slot .root 4]) := by
    refine ⟨1, fun fuel hf => ?_⟩
    obtain ⟨fuel, rfl⟩ := Nat.exists_eq_succ_of_ne_zero (Nat.pos_iff_ne_zero.mp hf)
    rfl
  have h₃ : Returns (fun fuel => write (fun _ => true) (.remove 1) fuel (storeAll blank (pairLog ++ [.slot .root 4])))
      (.value 10, removeLog.take 3) := by
    refine ⟨2, fun fuel hf => ?_⟩
    obtain ⟨fuel, rfl⟩ := Nat.exists_eq_add_of_le hf
    rw [Nat.add_comm]
    rfl
  have h₄ : Returns (fun fuel => write (fun _ => true) (.remove 2) fuel
      (storeAll blank (pairLog ++ [.slot .root 4] ++ removeLog.take 3))) (.value 20, removeLog.drop 3) :=
    ⟨0, fun _ _ => rfl⟩
  show Writes _ _ _ (pairLog.take 4 ++ (pairLog.drop 4 ++ [.slot .root 4] ++ (removeLog.take 3 ++ (removeLog.drop 3 ++ []))))
  exact .cons (not_binds_of_nil rfl 1) h₁ <| .cons (not_binds_of_leaf (l := ⟨1, 10⟩) rfl (by decide)) h₂ <|
    .cons trivial h₃ <| .cons trivial h₄ <| .nil _

/-- A reader of key 1 that has loaded the root before the new inner node is linked. -/
abbrev early : List (Act Loc Event) :=
  [.load .root, .store (.slot .root 4), .load (.bit 1), .load (.path 1), .load (.child 1 0)]

theorem early_exec : Prog.Exec Mem.load (storeAll blank pairLog) early (critbitGet 1 65) (.ok 10) :=
  Prog.exec_of_run rfl

theorem early_writes : Writes (fun _ => true) blank fourCalls (pairLog ++ (stores early ++ removeLog)) := four_writes

theorem critbit_get_undisturbed_early :
    (Prog.run Mem.load (storeAll blank pairLog) early (critbitGet 1 65)).getD (.error .fuel) = .ok 10 :=
  critbit_get_undisturbed early_writes early_exec (by decide) fun l l' hl => by
    rcases l with _ | ⟨e, l⟩
    · exact ⟨1, .refl _, rfl⟩
    · rcases l with _ | ⟨e', l⟩
      · simp only [early, stores_load, stores_store, stores_nil, List.cons_append, List.cons.injEq] at hl
        obtain ⟨rfl, -⟩ := hl
        exact ⟨1, .child (i := 1) rfl (.refl _), rfl⟩
      · simp [early] at hl

theorem critbit_get_paired_early : ∃ v, Except.ok 10 = (Except.ok v : Except Stuck ℕ) ∧ (v = NULL ∨
    Begun Write.Absent (write fun _ => true) blank fourCalls (pairLog ++ stores early) (.insert 1 v)) :=
  critbit_get_paired early_writes early_exec (by decide) fun s₁ s₂ a p hs _ hm => by
    have hmem : .slot (.child a 0) p ∈ stores early := by
      rw [hs]
      simp [hm]
    simp [early] at hmem

/-- Key 1 is removed, and a reader of key 2 has seen its leaf; now key 2 is removed, and the reader loads the link to the
first removed leaf. -/
abbrev late : List (Act Loc Event) := [.load .root, .load (.bit 3), .load (.path 3), .store (.slot .root 0),
  .store (.slot (.child 3 0) 1), .store (.deletedNode 3), .load (.child 3 0)]

/-- It returns 1, which no insert paired with the key. -/
theorem critbit_get_link : Writes (fun _ => true) blank fourCalls
      ((pairLog ++ [.slot .root 4] ++ removeLog.take 3) ++ (stores late ++ [])) ∧
    Prog.Exec Mem.load (storeAll blank (pairLog ++ [.slot .root 4] ++ removeLog.take 3)) late (critbitGet 2 65) (.ok 1) ∧
    ¬ (1 = NULL ∨ Begun Write.Absent (write fun _ => true) blank fourCalls
      (pairLog ++ [.slot .root 4] ++ removeLog.take 3 ++ stores late) (.insert 2 1)) := by
  refine ⟨four_writes, Prog.exec_of_run rfl, ?_⟩
  rintro (h | h)
  · cases h
  · simpa using h.mem

end Ptok.Critbit
