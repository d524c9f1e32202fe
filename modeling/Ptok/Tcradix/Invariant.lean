import Ptok.Tcradix.Theorems

/-!
# The representation invariant of tcradix

What the nodes of the tree look like between calls, said of the memory.
-/

namespace Ptok.Tcradix

open Lib

variable {Q : Word → ℕ → Prop} {m : Mem} {g : Ghost TOP} {ok : ℕ → Bool} {ops : List Op}

/-! ## Nodes of the tree -/

/-- A node, its level and its position. -/
structure Spot where
  level : ℕ
  pos : ℕ
  addr : Addr

/-- The root -/
def Spot.root : Spot := ⟨TOP, 0, 0⟩

/-- What is reached from a node through the slots. -/
inductive Below (m : Mem) (s : Spot) : Spot → Prop
  | refl : Below m s s
  | child {l pos : ℕ} {a b : Addr} {i : Fin 16} (h : Below m s ⟨l + 1, pos, a⟩) (hb : (m.node a).nodes i = .node b) :
      Below m s ⟨l, 16 * pos + i.val, b⟩

/-- `only_key` is set, and there is nothing else than copies of its value below. -/
structure Compressed (m : Mem) (s : Spot) : Prop where
  under : Under s.level s.pos (m.node s.addr).onlyKey
  only : ∀ i ≠ sl (m.node s.addr).onlyKey s.level, (m.node s.addr).nodes i = .null
  copy : ∀ s', Below m s s' → 1 ≤ s'.level → (m.node s'.addr).onlyKey = (m.node s.addr).onlyKey ∧
    (m.node s'.addr).onlyVal = (m.node s.addr).onlyVal
  slot : ∀ s', Below m s s' → s'.level = 0 → ∀ i, (m.node s'.addr).nodes i ≠ .null →
    Under 0 s'.pos (m.node s.addr).onlyKey ∧ i = sl (m.node s.addr).onlyKey 0 ∧
      (m.node s'.addr).nodes i = .val (m.node s.addr).onlyVal

structure WellFormed (m : Mem) : Prop where
  count : ∀ s, Below m .root s → (m.node s.addr).nchildren = used (m.node s.addr).nodes
  inhabited : ∀ s, Below m .root s → s.addr ≠ 0 → 0 < (m.node s.addr).nchildren ∨ (m.node s.addr).onlyKey ≠ 0
  compressed : ∀ s, Below m .root s → 1 ≤ s.level → (m.node s.addr).onlyKey ≠ 0 → Compressed m s

/-! ## From the tree to the memory -/

/-- A subtree stands at a node. -/
structure Stands (m : Mem) (s : Spot) (t : T s.level) : Prop where
  rep : Rep m t
  ptr : t.ptr = .node s.addr
  ok : t.OK s.pos

theorem Stands.node {l pos : ℕ} {a : Addr} {t : T (l + 1)} (h : Stands m ⟨l + 1, pos, a⟩ t) :
    ∃ hd c, t = .node a hd c ∧ m.node a = hd.node (T.ptrs c) := by
  obtain ⟨hrep, hptr, -⟩ := h
  cases t with
  | nil => cases hptr
  | node b hd c =>
      cases hptr
      exact ⟨hd, c, rfl, hrep.1⟩

theorem Stands.last {pos : ℕ} {a : Addr} {t : T 0} (h : Stands m ⟨0, pos, a⟩ t) :
    ∃ hd w, t = .last a hd w ∧ m.node a = hd.node w := by
  obtain ⟨hrep, hptr, -⟩ := h
  cases t with
  | nil => cases hptr
  | last b hd w =>
      cases hptr
      exact ⟨hd, w, rfl, hrep⟩

theorem Stands.child {l pos : ℕ} {a b : Addr} {hd : Hdr} {c : Fin 16 → T l} {i : Fin 16}
    (h : Stands m ⟨l + 1, pos, a⟩ (.node a hd c)) (hb : (m.node a).nodes i = .node b) :
    Stands m ⟨l, 16 * pos + i.val, b⟩ (c i) ∧ ¬ (c i).Bare := by
  have hrep := h.rep
  rw [hrep.1] at hb
  exact ⟨⟨hrep.2 i, hb, (h.ok.2.2 i).1⟩, (h.ok.2.2 i).2⟩

/-- A subtree stands at every node below, and no other one than the first is bare. -/
theorem Stands.below {s s' : Spot} {t : T s.level} (h : Stands m s t) (hs : Below m s s') :
    ∃ t' : T s'.level, Stands m s' t' ∧ (s' = s ∨ ¬ t'.Bare) := by
  induction hs with
  | refl => exact ⟨t, h, Or.inl rfl⟩
  | @child l pos a b i _ hb ih =>
      obtain ⟨t', ht', -⟩ := ih
      obtain ⟨hd, c, rfl, -⟩ := ht'.node
      obtain ⟨hc, hbare⟩ := ht'.child hb
      exact ⟨c i, hc, Or.inr hbare⟩

/-- Copies of the only key are at every node below. -/
theorem Stands.copy {s s' : Spot} {t : T s.level} {k : Word} {v : ℕ} (h : Stands m s t) (hk : k ≠ 0) (hc : t.Copy k v)
    (hu : Under s.level s.pos k) (hs : Below m s s') :
    ∃ t' : T s'.level, Stands m s' t' ∧ t'.Copy k v ∧ Under s'.level s'.pos k := by
  induction hs with
  | refl => exact ⟨t, h, hc, hu⟩
  | @child l pos a b i _ hb ih =>
      obtain ⟨t', ht', hc', hu'⟩ := ih
      obtain ⟨hd, c, rfl, -⟩ := ht'.node
      obtain ⟨rfl, rfl⟩ := hc'
      have hp := ht'.ok.2.1 hk
      have hchild := (ht'.child hb).1
      have hi : i = sl hd.onlyKey (l + 1) := by
        by_contra hne
        have hptr := hchild.ptr
        rw [hp.only i hne] at hptr
        cases hptr
      refine ⟨c i, hchild, ?_, ?_⟩
      · rw [hi]
        exact hp.copy
      · have hunder : Under l _ hd.onlyKey := under_child hu'
        rwa [← hi] at hunder

theorem Stands.count {s : Spot} {t : T s.level} (h : Stands m s t) :
    (m.node s.addr).nchildren = used (m.node s.addr).nodes := by
  obtain ⟨l, pos, a⟩ := s
  cases l with
  | zero =>
      obtain ⟨hd, w, rfl, hn⟩ := h.last
      rw [hn]
      exact h.ok.count
  | succ l =>
      obtain ⟨hd, c, rfl, hn⟩ := h.node
      rw [hn]
      exact h.ok.1

theorem Stands.inhabited {s : Spot} {t : T s.level} (h : Stands m s t) (hb : ¬ t.Bare) :
    0 < (m.node s.addr).nchildren ∨ (m.node s.addr).onlyKey ≠ 0 := by
  rw [Nat.pos_iff_ne_zero, ← not_and_or]
  rintro ⟨hc, hk⟩
  obtain ⟨l, pos, a⟩ := s
  cases l with
  | zero =>
      obtain ⟨hd, w, rfl, hn⟩ := h.last
      rw [hn] at hc hk
      exact hb ⟨hc, hk⟩
  | succ l =>
      obtain ⟨hd, c, rfl, hn⟩ := h.node
      rw [hn] at hc hk
      exact hb ⟨hc, hk⟩

theorem Stands.compressed {s : Spot} {t : T s.level} (h : Stands m s t) (hl : 1 ≤ s.level)
    (h0 : (m.node s.addr).onlyKey ≠ 0) : Compressed m s := by
  obtain ⟨_ | l, pos, a⟩ := s
  · cases hl
  obtain ⟨hd, c, rfl, hn⟩ := h.node
  have hkey : (m.node a).onlyKey = hd.onlyKey := by rw [hn, Hdr.node_onlyKey]
  have hval : (m.node a).onlyVal = hd.onlyVal := by rw [hn, Hdr.node_onlyVal]
  have hk : hd.onlyKey ≠ 0 := hkey ▸ h0
  have hp := h.ok.2.1 hk
  have hcopy := fun {s' : Spot} (hs' : Below m ⟨l + 1, pos, a⟩ s') => h.copy hk ⟨rfl, rfl⟩ hp.under hs'
  refine ⟨?_, fun i hi => ?_, fun s' hs' hl' => ?_, fun s' hs' hl' i hi => ?_⟩
  · rw [hkey]
    exact hp.under
  · rw [hkey] at hi
    rw [hn, Hdr.node_nodes, T.ptrs_apply, hp.only i hi, T.ptr_nil]
  · obtain ⟨t', ht', hc', -⟩ := hcopy hs'
    obtain ⟨_ | l', pos', b⟩ := s'
    · cases hl'
    obtain ⟨hd', c', rfl, hn'⟩ := ht'.node
    rw [hkey, hval, hn']
    exact hc'
  · obtain ⟨t', ht', hc', hu'⟩ := hcopy hs'
    obtain ⟨l', pos', b⟩ := s'
    obtain rfl : l' = 0 := hl'
    obtain ⟨hd', w, rfl, hn'⟩ := ht'.last
    have hw := hc' i
    rw [hn'] at hi
    rw [hkey, hval, hn']
    by_cases hs : i = sl hd.onlyKey 0
    · exact ⟨hu', hs, hw.trans (if_pos hs)⟩
    · exact absurd (hw.trans (if_neg hs)) hi

/-- A root that has never had children. -/
theorem wellFormed_mark {v : ℕ} (hn : m.node 0 = Hdr.node ⟨TOP_EMPTY, v, 0⟩ fun _ => .null) : WellFormed m := by
  have hroot : ∀ s, Below m .root s → s = .root := by
    intro s hs
    induction hs with
    | refl => rfl
    | child _ hb ih =>
        cases ih
        rw [hn] at hb
        cases hb
  refine ⟨fun s hs => ?_, fun s hs ha => ?_, fun s hs _ _ => ?_⟩ <;> cases hroot s hs
  · rw [show Spot.root.addr = 0 from rfl, hn]
    exact used_null.symm
  · exact absurd rfl ha
  · refine ⟨under_top _, fun i _ => ?_, fun s' hs' _ => ?_, fun s' hs' hl => ?_⟩
    · rw [show Spot.root.addr = 0 from rfl, hn]
      rfl
    · cases hroot s' hs'
      exact ⟨rfl, rfl⟩
    · cases hroot s' hs'
      cases hl

theorem Quiet.wellFormed (h : Quiet ok Q m g) : WellFormed m := by
  rcases h.root with hok | hm
  · have hroot : Stands m .root g.tree := ⟨h.rep, h.ptr, hok⟩
    refine ⟨fun s hs => ?_, fun s hs ha => ?_, fun s hs hl h0 => ?_⟩ <;> obtain ⟨t, ht, hb⟩ := hroot.below hs
    · exact ht.count
    · rcases hb with rfl | hb
      · exact absurd rfl ha
      · exact ht.inhabited hb
    · exact ht.compressed hl h0
  · have hrep := h.rep
    rw [hm] at hrep
    exact wellFormed_mark hrep.1

/-! ## The result -/

/-- The representation invariant holds after every call. -/
theorem tcradix_wellFormed (h : Reached ok ops m) : WellFormed m := by
  obtain ⟨g, hq⟩ := h.quiet (Q := fun _ _ => True) fun _ _ _ => trivial
  exact hq.wellFormed

/-- The stores of `tcradix_insert(c, key, value)` on a new structure. -/
def singleLog (key : Word) (value : ℕ) : List Event :=
  [.writeStatus 1, .onlyVal 0 value, .onlyKey 0 key, .onlyVal 0 value, .zalloc true, .onlyKey 1 key, .onlyVal 1 value,
    .nchildren 1 0, .nodes 0 (sl key TOP) (.node 1), .nchildren 0 1, .writeStatus 2]

/-- A new structure with nothing in the heap. -/
abbrev blank : Mem := tcradixNew fun _ => .zero

theorem single_writes : Writes (fun _ => true) blank [.insert 5 7] (singleLog 5 7) := by
  have hr : Returns (fun _ => write (fun _ => true) (.insert 5 7) blank) (.errno .ok, singleLog 5 7) := ⟨0, fun _ _ => rfl⟩
  show Writes _ _ _ (singleLog 5 7 ++ [])
  exact .cons trivial hr (.nil _)

theorem single_reached : Reached (fun _ => true) [.insert 5 7] (storeAll blank (singleLog 5 7)) := by
  have hr : Returns (call (fun _ => true) (.insert 5 7) blank) (.errno .ok, storeAll blank (singleLog 5 7)) :=
    ⟨0, fun _ _ => rfl⟩
  exact .call (.new _) hr

theorem tcradix_wellFormed_single : WellFormed (storeAll blank (singleLog 5 7)) := tcradix_wellFormed single_reached

end Ptok.Tcradix
