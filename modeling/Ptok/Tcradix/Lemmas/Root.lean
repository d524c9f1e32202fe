import Ptok.Tcradix.Lemmas.Remove

/-!
# Whole calls

Between two pokes of `write_status` a call is at work, and only then does it store anything else. The first use of the
root takes two stores; in between the value is not that of the key it stands beside.
-/

namespace Ptok.Tcradix

open Lib

/-- The root as it is before anything was stored, with what is in `root.only_val`. -/
def mark (v : ℕ) : T TOP := .node 0 ⟨TOP_EMPTY, v, 0⟩ fun _ => .nil

/-- The whole structure, and the key whose value is in the root before it. -/
structure Stage where
  ghost : Ghost TOP
  filling : Option Word

/-- Every value that a lookup finds belongs to its key. -/
def T.Fed (Q : Word → ℕ → Prop) (t : T TOP) : Prop := ∀ k, t.get k = NULL ∨ Q k (t.get k)

def Stage.Inv (Q : Word → ℕ → Prop) (m : Mem) (s : Stage) : Prop :=
  match s.filling with
  | none => Tcradix.Inv Q m s.ghost
  | some key => ∃ v, Q key v ∧ s.ghost.tree = mark v ∧ m.node 0 = Hdr.node ⟨TOP_EMPTY, v, 0⟩ (fun _ => .null) ∧
      Tcradix.Inv Q (m.store (.onlyVal 0 NULL)) { s.ghost with tree := mark NULL }

/-- One store of a call. -/
inductive Stage.Step (A Q : Word → ℕ → Prop) : Mem → Stage → Event → Stage → Prop
  | poke {m : Mem} {g : Ghost TOP} (hfed : busy m.writeStatus → g.tree.Fed Q) :
      Step A Q m ⟨g, none⟩ (.writeStatus (m.writeStatus + 1)) ⟨g, none⟩
  | inner {m : Mem} {g g' : Ghost TOP} {e : Event} (hb : busy m.writeStatus) (hs : Tcradix.Step A Q 0 m g e g') :
      Step A Q m ⟨g, none⟩ e ⟨g', none⟩
  | value {m : Mem} {pool : List Addr} {held : Multiset Addr} {key : Word} {v v' : ℕ} (hb : busy m.writeStatus)
      (hq : Q key v') (hA : v ≠ NULL → ∀ k w, ¬ A k w) :
      Step A Q m ⟨⟨mark v, pool, held⟩, none⟩ (.onlyVal 0 v') ⟨⟨mark v', pool, held⟩, some key⟩
  | key {m : Mem} {pool : List Addr} {held : Multiset Addr} {key : Word} {v : ℕ} (hb : busy m.writeStatus) :
      Step A Q m ⟨⟨mark v, pool, held⟩, some key⟩ (.onlyKey 0 key)
        ⟨⟨.node 0 ⟨key, v, 0⟩ fun _ => .nil, pool, held⟩, none⟩

variable {A Q : Word → ℕ → Prop} {m : Mem} {g g' : Ghost TOP} {s s' : Stage} {e : Event} {log : List Event}
  {key : Word} {value : ℕ} {ok : ℕ → Bool}

/-! ## Steps of whole calls -/

theorem Inv.congr_status (h : Inv Q m g) (w : Word) : Inv Q (m.store (.writeStatus w)) g :=
  ⟨⟨h.known, h.paired⟩, h.rep.congr fun _ _ => rfl, h.pool.congr fun _ _ => rfl, h.owned⟩

/-- The root may lose its value. -/
theorem Inv.unvalue {pool : List Addr} {held : Multiset Addr} {v : ℕ} (h : Inv Q m ⟨mark v, pool, held⟩) :
    Inv Q (m.store (.onlyVal 0 NULL)) ⟨mark NULL, pool, held⟩ := by
  have hs : Step (fun _ _ => False) Q 0 m ⟨mark v, pool, held⟩ (.onlyVal 0 NULL) ⟨mark NULL, pool, held⟩ := by
    refine .header h (.onlyVal _) (fun _ => Or.inl rfl) ?_ fun _ _ _ hf => hf.elim
    simp only [Mem.store, m.setNode_self, h.rep.1]
    rfl
  exact hs.inv

theorem Stage.Step.inv (hs : Stage.Step A Q m s e s') (h : s.Inv Q m) : s'.Inv Q (m.store e) := by
  cases hs with
  | poke => exact h.congr_status _
  | inner hb hs => exact hs.inv
  | @value pool held key v v' hb hq =>
      have h : Tcradix.Inv Q m ⟨mark v, pool, held⟩ := h
      refine ⟨v', hq, rfl, ?_, ?_⟩
      · simp only [Mem.store, m.setNode_self, h.rep.1]
        rfl
      · have hm : (m.store (.onlyVal 0 v')).store (.onlyVal 0 NULL) = m.store (.onlyVal 0 NULL) := by
          simp only [Mem.store, Mem.setNode_setNode]
          rfl
        rw [hm]
        exact h.unvalue
  | @key pool held key v hb =>
      obtain ⟨v', hq, hv, hn, h⟩ := h
      obtain rfl : v = v' := by
        cases hv
        rfl
      have h : Tcradix.Inv Q (m.store (.onlyVal 0 NULL)) ⟨mark NULL, pool, held⟩ := h
      -- as if the key had been stored first
      have h₁ : Tcradix.Step (fun _ _ => False) Q 0 (m.store (.onlyVal 0 NULL)) ⟨mark NULL, pool, held⟩ (.onlyKey 0 key)
          ⟨.node 0 ⟨key, NULL, 0⟩ fun _ => .nil, pool, held⟩ := by
        refine .header h (.onlyKey _) (fun _ => Or.inl ?_) ?_ fun _ _ _ hf => hf.elim
        · simp [Mem.store, Mem.setNode]
        · simp only [Mem.store, Mem.setNode_self, hn]
          rfl
      have h₂ : Tcradix.Step (fun _ _ => False) Q 0 _ _ (.onlyVal 0 v) ⟨.node 0 ⟨key, v, 0⟩ fun _ => .nil, pool, held⟩ :=
        .onlyVal h₁.inv hq fun _ _ _ hf => hf.elim
      have hm : ((m.store (.onlyVal 0 NULL)).store (.onlyKey 0 key)).store (.onlyVal 0 v) = m.store (.onlyKey 0 key) := by
        simp only [Mem.store, Mem.setNode_setNode]
        apply m.setNode_congr
        rw [hn]
        rfl
      rw [← hm]
      exact h₂.inv

/-- Whatever a step does, nodes are neither lost nor made up, and the root stays where it is. -/
theorem Stage.Step.total (hs : Stage.Step A Q m s e s') :
    s'.ghost.owned + (m.store e).freed + Multiset.range (m.malloced + 1) =
      s.ghost.owned + m.freed + Multiset.range ((m.store e).malloced + 1) ∧ s'.ghost.tree.ptr = s.ghost.tree.ptr := by
  cases hs with
  | poke => exact ⟨rfl, rfl⟩
  | inner hb hs => exact ⟨hs.total, hs.ptr⟩
  | value => exact ⟨rfl, rfl⟩
  | key => exact ⟨rfl, rfl⟩

theorem Stage.Path.inv (hp : Path (Stage.Step A Q) m s log s') (h : s.Inv Q m) : s'.Inv Q (storeAll m log) :=
  Lib.Path.inv (fun hs h => hs.inv h) hp h

theorem total_trans {x₀ x₁ x₂ r₀ r₁ r₂ : Multiset Addr} (h₁ : x₁ + r₀ = x₀ + r₁) (h₂ : x₂ + r₁ = x₁ + r₂) :
    x₂ + r₀ = x₀ + r₂ := by
  apply add_right_cancel (b := r₁)
  calc x₂ + r₀ + r₁ = x₂ + r₁ + r₀ := add_right_comm _ _ _
    _ = x₁ + r₀ + r₂ := by rw [h₂, add_right_comm]
    _ = x₀ + r₂ + r₁ := by rw [h₁, add_right_comm]

theorem Stage.Path.total (hp : Path (Stage.Step A Q) m s log s') :
    s'.ghost.owned + (storeAll m log).freed + Multiset.range (m.malloced + 1) =
      s.ghost.owned + m.freed + Multiset.range ((storeAll m log).malloced + 1) ∧ s'.ghost.tree.ptr = s.ghost.tree.ptr := by
  induction hp with
  | nil => exact ⟨rfl, rfl⟩
  | @cons m s s₁ s₂ e log hs t ih =>
      obtain ⟨h₁, hp₁⟩ := hs.total
      obtain ⟨h₂, hp₂⟩ := ih
      exact ⟨total_trans h₁ h₂, hp₂.trans hp₁⟩

/-! ## write_status -/

theorem busy_iff (w : Word) : busy w ↔ w.toNat % 2 = 1 := by
  have h : (w &&& 1).toNat = w.toNat % 2 := by
    rw [BitVec.toNat_and]
    exact Nat.and_one_is_mod _
  unfold busy
  rw [Ne, ← BitVec.toNat_inj, h]
  simp

theorem busy_succ (w : Word) : busy (w + 1) ↔ ¬ busy w := by
  rw [busy_iff, busy_iff, BitVec.toNat_add]
  have h := w.isLt
  simp
  omega

/-- What a call does between its pokes. -/
theorem Stage.Path.of_inner (hp : Path (Tcradix.Step A Q 0) m g log g') (hb : busy m.writeStatus) :
    Path (Stage.Step A Q) m ⟨g, none⟩ log ⟨g', none⟩ ∧ (storeAll m log).writeStatus = m.writeStatus := by
  induction hp with
  | nil m g => exact ⟨.nil m _, rfl⟩
  | cons hs _ ih =>
      obtain ⟨hp, hw⟩ := ih (by
        have := hs.status
        exact this ▸ hb)
      exact ⟨.cons (.inner hb hs) hp, hw.trans hs.status⟩

theorem writePoke_does {α : Type} {f : Unit → W α} {r : α} (hfed : busy m.writeStatus → g.tree.Fed Q)
    (hf : Does (Stage.Step A Q) (f ()) (m.store (.writeStatus (m.writeStatus + 1))) ⟨g, none⟩ r log s') :
    Does (Stage.Step A Q) (writePoke >>= f) m ⟨g, none⟩ r (.writeStatus (m.writeStatus + 1) :: log) s' :=
  .bind (l := [_]) (.read (.emit_last (.poke hfed))) hf

/-! ## Between calls -/

/-- No writer is at work. -/
structure Quiet (ok : ℕ → Bool) (Q : Word → ℕ → Prop) (m : Mem) (g : Ghost TOP) : Prop extends Inv Q m g where
  held : g.held = 0
  ptr : g.tree.ptr = .node 0
  whole : g.owned + m.freed = Multiset.range (m.malloced + 1)
  idle : ¬ busy m.writeStatus
  root : g.tree.OK 0 ∨ g.tree = mark NULL
  fed : g.tree.Fed Q
  /-- without failures of malloc -/
  sure : (∀ i, ok i = true) → ∀ v, g.tree = mark v → v = NULL

theorem mark_get (v : ℕ) (k : Word) : (mark v).get k = if TOP_EMPTY = k then v else NULL :=
  T.get_packed (show TOP_EMPTY ≠ 0 by decide)

theorem mark_get_null (k : Word) : (mark NULL).get k = NULL := by
  rw [mark_get]
  split <;> rfl

/-- The test in `tcradix_insert`. -/
theorem topEmpty_iff (hrep : Rep m g.tree) (hptr : g.tree.ptr = .node 0) (hroot : g.tree.OK 0 ∨ g.tree = mark NULL) :
    m.topEmpty ↔ ∃ v, g.tree = mark v := by
  obtain ⟨t, pool, held⟩ := g
  have hn : ∀ {h : Hdr} {c : Fin 16 → T 14}, t = .node 0 h c → m.node 0 = h.node (T.ptrs c) := by
    rintro h c rfl
    exact hrep.1
  constructor
  · rintro ⟨hk, hc⟩
    rcases hroot with hok | hm
    · cases t with
      | nil => cases hptr
      | node a h c =>
          cases hptr
          rw [hn rfl] at hk hc
          have hnil : c = fun _ => .nil := by
            funext i
            exact T.ptr_eq_null.mp (used_eq_zero.mp (hok.1.symm.trans hc) i)
          refine ⟨h.onlyVal, ?_⟩
          obtain ⟨k, v, n⟩ := h
          obtain rfl : k = TOP_EMPTY := hk
          obtain rfl : n = 0 := hc
          rw [hnil]
          rfl
    · exact ⟨NULL, hm⟩
  · rintro ⟨v, hv⟩
    rw [Mem.topEmpty, hn hv]
    exact ⟨rfl, rfl⟩

/-- What the first use of the root makes of the tree. -/
inductive Started (key : Word) (value : ℕ) : T TOP → T TOP → Prop
  | mark (v : ℕ) : Started key value (mark v) (.node 0 ⟨key, value, 0⟩ fun _ => .nil)
  | same {t : T TOP} (h : ∀ v, t ≠ Tcradix.mark v) : Started key value t t

theorem root_ok (hv : value ≠ NULL) : T.OK 0 (.node (l := 14) 0 ⟨key, value, 0⟩ fun _ => .nil) :=
  ⟨used_null.symm, fun _ => ⟨under_top key, hv, fun _ _ => rfl, trivial⟩, fun _ => ⟨T.ok_nil, id⟩⟩

theorem setRoot_spec (hinv : Inv Q m g) (hptr : g.tree.ptr = .node 0) (hroot : g.tree.OK 0 ∨ g.tree = mark NULL)
    (hb : busy m.writeStatus) (hv : value ≠ NULL) (hq : Q key value)
    (hA : ∀ v, g.tree = mark v → v ≠ NULL → ∀ k w, ¬ A k w) :
    ∃ log t, Does (Stage.Step A Q) (setRoot key value) m ⟨g, none⟩ () log ⟨⟨t, g.pool, g.held⟩, none⟩ ∧
      Started key value g.tree t ∧ t.OK 0 ∧ (storeAll m log).writeStatus = m.writeStatus := by
  have hiff := topEmpty_iff hinv.rep hptr hroot
  obtain ⟨t, pool, held⟩ := g
  by_cases hm : m.topEmpty
  · obtain ⟨v, rfl⟩ : ∃ v, t = mark v := hiff.mp hm
    refine ⟨[.onlyVal 0 value, .onlyKey 0 key], _, .read ?_, .mark v, root_ok hv, rfl⟩
    rw [if_pos (decide_eq_true hm)]
    exact .emit (.value hb hq (hA v rfl)) (.emit_last (.key hb))
  · have hne : ∀ v, t ≠ mark v := fun v hv => hm (hiff.mpr ⟨v, hv⟩)
    refine ⟨[], t, .read ?_, .same hne, hroot.resolve_right (hne NULL), rfl⟩
    rw [if_neg (by rw [decide_eq_true_iff]; exact hm)]
    exact .pure _ _ _

theorem Started.ptr {t t' : T TOP} (h : Started key value t t') (ht : t.ptr = .node 0) : t'.ptr = .node 0 := by
  cases h with
  | mark => rfl
  | same => exact ht

theorem Started.get {t t' : T TOP} (h : Started key value t t') {k : Word} (hk : k ≠ key) :
    t'.get k = t.get k ∨ t'.get k = NULL := by
  cases h with
  | mark v =>
      right
      by_cases h0 : key = 0
      · rw [T.get_open h0, T.get_nil]
      · exact (T.get_packed h0).trans (if_neg hk.symm)
  | same => exact Or.inl rfl

/-! ## The calls -/

/-- After the second poke. -/
theorem Quiet.after (h : Quiet ok Q m g) (hp : Path (Stage.Step A Q) m ⟨g, none⟩ log ⟨g', none⟩)
    (hheld : g'.held = 0) (hroot : g'.tree.OK 0 ∨ g'.tree = mark NULL)
    (hidle : ¬ busy (storeAll m log).writeStatus) (hfed : g'.tree.Fed Q)
    (hsure : (∀ i, ok i = true) → ∀ v, g'.tree = mark v → v = NULL) : Quiet ok Q (storeAll m log) g' := by
  obtain ⟨htotal, hptr⟩ := Stage.Path.total hp
  refine ⟨Stage.Path.inv hp h.toInv, hheld, hptr.trans h.ptr, ?_, hidle, hroot, hfed, hsure⟩
  apply add_right_cancel (b := Multiset.range (m.malloced + 1))
  have htotal : g'.owned + _ + _ = g.owned + _ + _ := htotal
  rw [htotal, h.whole, add_comm]

theorem tcradixInsert_spec (h : Quiet ok Q m g) (hv : value ≠ NULL) (hq : Q key value) (hA : ∀ v, A key v → v = value)
    (hfail : (∀ i, ok i = true) ∨ ∀ k v, ¬ A k v) :
    ∃ e log g' t, Does (Stage.Step A Q) (tcradixInsert ok key value) m ⟨g, none⟩ e log ⟨g', none⟩ ∧
      Quiet ok Q (storeAll m log) g' ∧ Started key value g.tree t ∧ Inserted 0 key value e t g'.tree ∧
      ((∀ i, ok i = true) → e = .ok) := by
  let m₁ := m.store (.writeStatus (m.writeStatus + 1))
  have hb : busy m₁.writeStatus := (busy_succ _).mpr h.idle
  obtain ⟨log₁, t, hdo₁, hstart, hok, hw₁⟩ := setRoot_spec (h.congr_status (m.writeStatus + 1)) h.ptr h.root hb hv hq
    fun v hm hne => hfail.elim (fun hall => absurd (h.sure hall v hm) hne) id
  have hinv₂ : Inv Q (storeAll m₁ log₁) ⟨t, g.pool, g.held⟩ := Stage.Path.inv hdo₁.path (h.congr_status _)
  obtain ⟨e, log₂, t', pool', hdo₂, hins, hall⟩ := insert_spec ok TOP hinv₂ (hstart.ptr h.ptr) hok (under_top key) hv hq hA
  obtain ⟨hp₂, hw₂⟩ := Stage.Path.of_inner hdo₂.path (hw₁ ▸ hb)
  have hfed : t'.Fed Q := by
    intro k
    by_cases hk : k = key
    · rw [hk, hins.self]
      split
      · exact Or.inr hq
      · exact Or.inl rfl
    · rw [hins.keep k hk (under_top k)]
      rcases hstart.get hk with hg | hg
      · rw [hg]
        exact h.fed k
      · exact Or.inl hg
  have hdo : Does (Stage.Step A Q) (tcradixInsert ok key value) m ⟨g, none⟩ e (.writeStatus (m.writeStatus + 1) ::
      (log₁ ++ (log₂ ++ [.writeStatus ((storeAll (storeAll m₁ log₁) log₂).writeStatus + 1)]))) ⟨⟨t', pool', g.held⟩, none⟩ := by
    unfold tcradixInsert
    rw [if_neg hv]
    refine writePoke_does (fun hb' => absurd hb' h.idle) (.bind hdo₁ (.bind ⟨hdo₂.run, hp₂⟩ ?_))
    exact writePoke_does (fun _ => hfed) (.pure _ _ _)
  refine ⟨e, _, _, t, hdo, h.after hdo.path h.held (Or.inl hins.ok) ?_ hfed (fun hall' v hm => ?_), hstart, hins, hall⟩
  · rw [storeAll_cons, storeAll_append, storeAll_append]
    show ¬ busy (_ + 1)
    rw [busy_succ, not_not, hw₂, hw₁]
    exact hb
  · rcases hins.full (hall hall') with hn | hf
    · have hp := hstart.ptr h.ptr
      rw [hn] at hp
      cases hp
    · have hm : t' = mark v := hm
      rw [hm] at hf
      exact absurd rfl hf

/-- A remove from a structure that never held anything. -/
theorem nremove_mark {pool : List Addr} {held : Multiset Addr} (hinv : Inv Q m ⟨mark NULL, pool, held⟩)
    (hA : ∀ v, ¬ A key v) : ∃ b log t, Does (Step A Q 0) (nremove TOP 0 key NULL) m ⟨mark NULL, pool, held⟩ (b, NULL) log
      ⟨t, pool, held⟩ ∧ (t = mark NULL ∨ t.OK 0) ∧ (∀ k, t.get k = NULL) ∧ ∀ v, t = mark v → v = NULL := by
  have hn : m.node 0 = Hdr.node ⟨TOP_EMPTY, NULL, 0⟩ fun _ => .null := hinv.rep.1
  have hnull : ∀ {m : Mem} {h : Hdr}, m.node 0 = h.node (fun _ => .null) → (m.node 0).nodes (sl key 15) = .null := by
    intro m h hn
    rw [hn]
    rfl
  by_cases hk : TOP_EMPTY = key
  · subst hk
    have h0 : TOP_EMPTY ≠ 0 := by decide
    have hs : Step A Q 0 m ⟨mark NULL, pool, held⟩ (.onlyKey 0 0) ⟨.node 0 ⟨0, NULL, 0⟩ fun _ => .nil, pool, held⟩ :=
      .clearKey hinv (.clear h0 hA)
    have hclear : Does (Step A Q 0) (clearKey 0 TOP_EMPTY NULL) m ⟨mark NULL, pool, held⟩ NULL [.onlyKey 0 0]
        ⟨.node 0 ⟨0, NULL, 0⟩ fun _ => .nil, pool, held⟩ := by
      refine .reads hn ?_
      rw [Hdr.node_onlyKey, if_pos ⟨rfl, h0⟩]
      exact .emit hs (.pure _ _ _)
    refine ⟨_, _, _, .bind hclear (.reads (hnull hs.inv.rep.1) (.reads (decide_empty hs.inv.rep.1) (.pure _ _ _))), Or.inr ?_,
      fun k => T.get_open rfl, fun v hm => by cases hm⟩
    exact ⟨used_null.symm, fun hz => absurd rfl hz, fun _ => ⟨T.ok_nil, id⟩⟩
  · have hclear : Does (Step A Q 0) (clearKey 0 key NULL) m ⟨mark NULL, pool, held⟩ NULL [] ⟨mark NULL, pool, held⟩ := by
      refine .reads hn ?_
      rw [Hdr.node_onlyKey, if_neg fun hz => hk hz.1]
      exact .pure _ _ _
    refine ⟨_, _, _, .bind hclear (.reads (hnull hn) (.reads (decide_empty hn) (.pure _ _ _))), Or.inl rfl, mark_get_null,
      fun v hm => ?_⟩
    cases hm
    rfl

theorem tcradixRemove_spec (h : Quiet ok Q m g) (key : Word) (hA : ∀ v, ¬ A key v) :
    ∃ log g', Does (Stage.Step A Q) (tcradixRemove key) m ⟨g, none⟩ (g.tree.get key) log ⟨g', none⟩ ∧
      Quiet ok Q (storeAll m log) g' ∧ g'.tree.get key = NULL ∧ ∀ k ≠ key, g'.tree.get k = g.tree.get k := by
  let m₁ := m.store (.writeStatus (m.writeStatus + 1))
  have hb : busy m₁.writeStatus := (busy_succ _).mpr h.idle
  have hinv₁ : Inv Q m₁ g := h.congr_status _
  obtain ⟨b, log₂, t, pool', hdo₂, hroot, hgone, hkeep, hsure⟩ : ∃ b log t pool', Does (Step A Q 0) (nremove TOP 0 key NULL) m₁
      g (b, g.tree.get key) log ⟨t, pool', g.held⟩ ∧ (t.OK 0 ∨ t = mark NULL) ∧ t.get key = NULL ∧
      (∀ k ≠ key, t.get k = g.tree.get k) ∧ ((∀ i, ok i = true) → ∀ v, t = mark v → v = NULL) := by
    obtain ⟨t₀, pool, held⟩ := g
    rcases h.root with hok | hm
    · obtain ⟨b, v, log, t, pool', hdo, hrem⟩ := nremove_spec TOP NULL hinv₁ h.ptr hok (under_top key) hA
      have hv := hrem.val
      have hv : v = t₀.get key := by
        rw [hv]
        split
        · exact (by assumption : t₀.get key = NULL).symm
        · rfl
      refine ⟨b, log, t, pool', hv ▸ hdo, Or.inl hrem.ok, hrem.gone, fun k hk => hrem.keep k hk (under_top k), fun hall v hm => ?_⟩
      rcases hrem.opened with he | h0
      · exact h.sure hall v (he.symm.trans hm)
      · rw [hm] at h0
        exact absurd h0 (show TOP_EMPTY ≠ 0 by decide)
    · have hm : t₀ = mark NULL := hm
      subst hm
      obtain ⟨b, log, t, hdo, hroot, hget, hsure⟩ := nremove_mark hinv₁ hA
      refine ⟨b, log, t, pool, ?_, hroot.symm, hget key, fun k _ => ?_, fun _ => hsure⟩
      · rw [mark_get_null]
        exact hdo
      · rw [hget, mark_get_null]
  obtain ⟨hp₂, hw₂⟩ := Stage.Path.of_inner hdo₂.path hb
  have hfed : t.Fed Q := by
    intro k
    by_cases hk : k = key
    · exact Or.inl (hk ▸ hgone)
    · rw [hkeep k hk]
      exact h.fed k
  have hdo : Does (Stage.Step A Q) (tcradixRemove key) m ⟨g, none⟩ (g.tree.get key) (.writeStatus (m.writeStatus + 1) ::
      (log₂ ++ [.writeStatus ((storeAll m₁ log₂).writeStatus + 1)])) ⟨⟨t, pool', g.held⟩, none⟩ := by
    refine writePoke_does (fun hb' => absurd hb' h.idle) (.bind ⟨hdo₂.run, hp₂⟩ ?_)
    exact writePoke_does (fun _ => hfed) (.pure _ _ _)
  refine ⟨_, _, hdo, h.after hdo.path h.held hroot ?_ hfed hsure, hgone, hkeep⟩
  rw [storeAll_cons, storeAll_append]
  show ¬ busy (_ + 1)
  rw [busy_succ, not_not, hw₂]
  exact hb

end Ptok.Tcradix
