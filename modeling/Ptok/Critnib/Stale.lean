import Ptok.Lib.Walk
import Ptok.Critnib.Ownership

/-!
# Walks of stalled readers

A reader may stand in any node that was ever linked. Its loop follows whatever the slots hold: in a dead node these
are old children and, in slot 0, the next entry of the pool.
-/

namespace Ptok.Critnib

open Lib

/-- The node after `a` on the walk along `key`, if there is one. -/
def Mem.next (m : Mem) (key : Word) (a : Addr) : Option Addr :=
  match (m.node a).child (sliceIndex key (m.node a).shift) with
  | .node b => some b
  | _ => none

/-- From every node that was ever linked the loop of `critnib_get` comes to `NULL` or to a leaf. -/
def DivesEnd (m : Mem) : Prop :=
  ∀ a < m.nodesMalloced, ∀ key, ∃ n, Returns (fun fuel => (dive key fuel (.node a)).eval m.load) n ∧
    (n = .null ∨ ∃ k, n = .leaf k)

/-- The call closes no circle. A remove puts the node parked 16 numbers ago in front of the pool; for the keys that
take its first slot, the walk from the old head of the pool must not come through it. -/
def Clean (m : Mem) : Op → Prop
  | .remove _ => m.root ≠ .null → ∀ a b key, m.pendingDelNodes m.del = .node a → m.deletedNode = .node b →
      sliceIndex key (m.node a).shift = 0 → ¬ Comes (m.next key) b a
  | _ => True

variable {m : Mem} {g : Ghost}

theorem next_eq_some {key : Word} {a b : Addr} :
    m.next key a = some b ↔ (m.node a).child (sliceIndex key (m.node a).shift) = .node b := by
  unfold Mem.next
  cases (m.node a).child (sliceIndex key (m.node a).shift) <;> simp

theorem next_eq_none {key : Word} {a : Addr} : m.next key a = none ↔
    (m.node a).child (sliceIndex key (m.node a).shift) = .null ∨
      ∃ k, (m.node a).child (sliceIndex key (m.node a).shift) = .leaf k := by
  unfold Mem.next
  cases (m.node a).child (sliceIndex key (m.node a).shift) <;> simp

/-- The walk depends on what the nodes hold. -/
theorem next_congr {m m' : Mem} {a : Addr} (h : m'.node a = m.node a) (key : Word) : m'.next key a = m.next key a := by
  simp only [Mem.next, h]

/-! ## The loop and the walk -/

theorem dive_eval_node (key : Word) (fuel : ℕ) (a : Addr) :
    (dive key (fuel + 1) (.node a)).eval m.load =
      (dive key fuel ((m.node a).child (sliceIndex key (m.node a).shift))).eval m.load := rfl

theorem ends_of_dive {key : Word} {fuel : ℕ} {a : Addr} {n : Ptr}
    (h : (dive key fuel (.node a)).eval m.load = .ok n) : Ends (m.next key) a := by
  induction fuel generalizing a with
  | zero => cases h
  | succ fuel ih =>
      rw [dive_eval_node] at h
      cases hch : (m.node a).child (sliceIndex key (m.node a).shift) with
      | null => exact .stop (next_eq_none.mpr (Or.inl hch))
      | leaf k => exact .stop (next_eq_none.mpr (Or.inr ⟨k, hch⟩))
      | node b =>
          rw [hch] at h
          exact .next (next_eq_some.mpr hch) (ih h)

theorem dive_returns_iff (key : Word) (a : Addr) :
    (∃ n, Returns (fun fuel => (dive key fuel (.node a)).eval m.load) n ∧ (n = .null ∨ ∃ k, n = .leaf k)) ↔
      Ends (m.next key) a := by
  constructor
  · rintro ⟨n, ⟨N, hN⟩, -⟩
    exact ends_of_dive (hN N le_rfl)
  · intro h
    induction h with
    | @stop a h =>
        refine ⟨_, ⟨2, fun fuel hf => ?_⟩, next_eq_none.mp h⟩
        obtain ⟨fuel, rfl⟩ := Nat.exists_eq_add_of_le' hf
        simp only [dive_eval_node]
        rcases next_eq_none.mp h with hch | ⟨k, hch⟩ <;> rw [hch] <;> rfl
    | @next a b h _ ih =>
        obtain ⟨n, ⟨N, hN⟩, hn⟩ := ih
        refine ⟨n, ⟨N + 1, fun fuel hf => ?_⟩, hn⟩
        obtain ⟨fuel, rfl⟩ := Nat.exists_eq_succ_of_ne_zero (by omega : fuel ≠ 0)
        simp only [Nat.succ_eq_add_one, dive_eval_node, next_eq_some.mp h]
        exact hN fuel (by omega)

theorem divesEnd_iff : DivesEnd m ↔ ∀ a < m.nodesMalloced, ∀ key, Ends (m.next key) a :=
  forall₂_congr fun a _ => forall_congr' fun key => dive_returns_iff key a

/-! ## Live nodes -/

theorem ends_of_rep (key : Word) {t : T} {a : Addr} (h : Rep m.cell (.node a) t) : Ends (m.next key) a := by
  induction t generalizing a with
  | nil => cases h
  | leaf q l => obtain ⟨_, ⟨⟩, -⟩ := rep_leaf.mp h
  | node q n c ih =>
      obtain ⟨_, ⟨⟩, -, -, hc⟩ := rep_node.mp h
      cases hn : m.next key a with
      | none => exact .stop hn
      | some b => exact .next hn (ih _ (next_eq_some.mp hn ▸ hc (sliceIndex key (m.node a).shift)))

/-- Walks from live nodes end. -/
theorem Inv.ends (h : Inv m g) {a : Addr} (ha : .node a ∈ g.tree.nodes) (key : Word) : Ends (m.next key) a := by
  obtain ⟨u, -, hu⟩ := h.rep.exists_sub ha
  exact ends_of_rep key hu

/-! ## The recycling -/

/-- The node that goes to the pool gets a new first child. -/
theorem recycleLog_node (m : Mem) : (storeAll m (recycleLog m)).node =
    match m.pendingDelNodes m.del with
    | .node a => Function.update m.node a { m.node a with child := Function.update (m.node a).child 0 m.deletedNode }
    | _ => m.node := by
  have hrest : ∀ m' : Mem, (storeAll m' (freeLeafLog m.deletedLeaf (m.pendingDelLeaves m.del) ++
      [.pendingDelNode m.del .null, .pendingDelLeaf m.del 0])).node = m'.node := by
    intro m'
    obtain ⟨dl, lf, hframe⟩ := freeLeafLog_frame m' m.deletedLeaf (m.pendingDelLeaves m.del)
    rw [storeAll_append, hframe]
    rfl
  rw [recycleLog, storeAll_cons, storeAll_append, hrest]
  cases m.pendingDelNodes m.del <;> rfl

theorem recycle_next_ne {key : Word} {a b : Addr} (ha : m.pendingDelNodes m.del = .node a)
    (hb : b ≠ a ∨ sliceIndex key (m.node a).shift ≠ 0) :
    (storeAll m (recycleLog m)).next key b = m.next key b := by
  have hnode := recycleLog_node m
  simp only [ha] at hnode
  by_cases hba : b = a
  · subst hba
    have hs := hb.resolve_left (by simp)
    simp only [Mem.next, hnode, Function.update_self, Function.update_of_ne hs]
  · exact next_congr (by rw [hnode, Function.update_of_ne hba]) key

theorem recycle_next_self {key : Word} {a : Addr} (ha : m.pendingDelNodes m.del = .node a)
    (hs : sliceIndex key (m.node a).shift = 0) :
    (storeAll m (recycleLog m)).next key a =
      match m.deletedNode with
      | .node b => some b
      | _ => none := by
  have hnode := recycleLog_node m
  simp only [ha] at hnode
  simp only [Mem.next, hnode, Function.update_self, hs]

/-- What is parked or heads the pool was malloced. -/
theorem Quiet.pending_lt (h : Quiet m g) {d : Fin 16} {a : Addr} (ha : m.pendingDelNodes d = .node a) :
    a < m.nodesMalloced := by
  have hp : m.Malloced (.node a) := mem_malloced.mp ((h.covers.mem_iff _).mpr ⟨.pendingNode d, by simp [Mem.found, ha, nonNull]⟩)
  exact hp

theorem Quiet.head_lt (h : Quiet m g) {a : Addr} (ha : m.deletedNode = .node a) : a < m.nodesMalloced := by
  have hp : m.Malloced (.node a) :=
    mem_malloced.mp ((h.covers.mem_iff _).mpr ⟨.nodePool 0, by simp [Mem.found, entry, ha, nonNull]⟩)
  exact hp

/-- The recycling closes a circle exactly if the call is not clean. -/
theorem Quiet.recycle_divesEnd_iff (h : Quiet m g) (hroot : m.root ≠ .null) (hends : DivesEnd m) (key : Word) :
    DivesEnd (storeAll m (recycleLog m)) ↔ Clean m (.remove key) := by
  obtain ⟨dn, nd, dl, lf, hframe⟩ := recycleLog_frame m
  have hcount : (storeAll m (recycleLog m)).nodesMalloced = m.nodesMalloced := by rw [hframe]
  rw [divesEnd_iff] at hends ⊢
  rw [hcount]
  constructor
  · intro hall _ a b key' ha hb hs
    have hlink : Ends ((storeAll m (recycleLog m)).next key') a ↔ ¬ Comes (m.next key') b a := ends_link_iff (hends b (h.head_lt hb) key')
      (fun y hy => recycle_next_ne ha (Or.inl hy)) (by rw [recycle_next_self ha hs, hb])
    exact hlink.mp (hall a (h.pending_lt ha) key')
  · intro hclean x hx key'
    cases ha : m.pendingDelNodes m.del with
    | node a =>
        by_cases hs : sliceIndex key' (m.node a).shift = 0
        · have hself : Ends ((storeAll m (recycleLog m)).next key') a := by
            cases hb : m.deletedNode with
            | node b =>
                exact (ends_link_iff (hends b (h.head_lt hb) key') (fun y hy => recycle_next_ne ha (Or.inl hy))
                  (by rw [recycle_next_self ha hs, hb])).mpr (hclean hroot a b key' ha hb hs)
            | null => exact .stop (by rw [recycle_next_self ha hs, hb])
            | leaf k => exact .stop (by rw [recycle_next_self ha hs, hb])
          refine (hends x hx key').of_agree (p := (· = a)) ?_ fun y hy => recycle_next_ne ha (Or.inl hy)
          rintro y rfl
          exact hself
        · have hnext : (storeAll m (recycleLog m)).next key' = m.next key' := by
            funext y
            exact recycle_next_ne ha (Or.inr hs)
          rw [hnext]
          exact hends x hx key'
    | null =>
        have hnext : (storeAll m (recycleLog m)).next key' = m.next key' := by
          funext y
          refine next_congr ?_ key'
          rw [recycleLog_node, ha]
        rw [hnext]
        exact hends x hx key'
    | leaf k =>
        have hnext : (storeAll m (recycleLog m)).next key' = m.next key' := by
          funext y
          refine next_congr ?_ key'
          rw [recycleLog_node, ha]
        rw [hnext]
        exact hends x hx key'

/-! ## Calls -/

theorem Quiet.insert_divesEnd {ok : ℕ → Bool} {key : Word} {value : ℕ} {r : Ret} {m' : Mem} (h : Quiet m g)
    (hends : DivesEnd m) (hr : Returns (call ok (.insert key value) m) (r, m')) : DivesEnd m' := by
  obtain ⟨e, log, g', hdo, hq, -, hfr, -⟩ := critnibInsert_spec h ok key value
  rw [call_insert] at hr
  cases hr.unique ((returns_of_does hdo).map _)
  rw [divesEnd_iff] at hends ⊢
  intro a ha key'
  by_cases hlive : .node a ∈ g'.tree.nodes
  · exact hq.ends hlive key'
  · refine (hends a (hfr.malloced a hlive ha) key').of_agree (p := fun b => .node b ∈ g'.tree.nodes) ?_ ?_
    · exact fun b hb => hq.ends hb key'
    · exact fun b hb => next_congr (hfr.node b hb) key'

/-- After the recycling a remove only retires a node that points into the tree. -/
theorem Retired.divesEnd_iff {m₁ m' : Mem} {g₁ g' : Ghost} (h₁ : Quiet m₁ g₁) (h' : Quiet m' g')
    (hret : Retired m₁ m' g₁.tree g'.tree) (hcount : m'.nodesMalloced = m₁.nodesMalloced) :
    DivesEnd m' ↔ DivesEnd m₁ := by
  have hagree : ∀ b key, ¬ .node b ∈ g₁.tree.nodes → m'.next key b = m₁.next key b := fun b key hb =>
    next_congr (hret.node b hb) key
  rw [Critnib.divesEnd_iff, Critnib.divesEnd_iff, hcount]
  refine forall₂_congr fun a _ => forall_congr' fun key => ⟨fun h => ?_, fun h => ?_⟩
  · refine h.of_agree (p := fun b => .node b ∈ g₁.tree.nodes) (fun b hb => h₁.ends hb key) fun b hb => ?_
    exact (hagree b key hb).symm
  · refine h.of_agree (p := fun b => .node b ∈ g₁.tree.nodes) (fun b hb => ?_) fun b hb => hagree b key hb
    by_cases hlive : .node b ∈ g'.tree.nodes
    · exact h'.ends hlive key
    · cases hn : m'.next key b with
      | none => exact .stop hn
      | some c =>
          refine .next hn (h'.ends ?_ key)
          have hc := next_eq_some.mp hn
          rcases hret.child b (sliceIndex key (m'.node b).shift) hb hlive with hnull | hin
          · rw [hc] at hnull
            cases hnull
          · rw [hc] at hin
            rcases Multiset.mem_add.mp hin with hin | hin
            · exact hin
            · obtain ⟨l, hl⟩ := h'.rep.leaf_of_mem hin
              cases hl

theorem Quiet.remove_divesEnd_iff {ok : ℕ → Bool} {key : Word} {r : Ret} {m' : Mem} (h : Quiet m g)
    (hends : DivesEnd m) (hr : Returns (call ok (.remove key) m) (r, m')) :
    DivesEnd m' ↔ Clean m (.remove key) := by
  obtain ⟨v, log, g', hdo, hq, -, hret, -⟩ := critnibRemove_spec h key
  rw [call_remove] at hr
  cases hr.unique ((returns_of_does hdo).map _)
  have hcount := (NoMalloc.critnibRemove _ key _ _ _ (hdo _ (Nat.lt_succ_self _)).run).2
  by_cases hroot : m.root = .null
  · rw [if_pos hroot] at hret
    have hclean : Clean m (.remove key) := fun hne => absurd hroot hne
    exact iff_of_true ((hret.divesEnd_iff h hq hcount).mpr hends) hclean
  · rw [if_neg hroot] at hret
    obtain ⟨g₁, -, hq₁, htree⟩ := recycle_spec h
    obtain ⟨dn, nd, dl, lf, hframe⟩ := recycleLog_frame m
    rw [← htree] at hret
    rw [hret.divesEnd_iff hq₁ hq (by rw [hcount, hframe]), h.recycle_divesEnd_iff hroot hends key]

/-! ## Runs -/

/-- In every state that the calls lead to, walks end. -/
def AllEnd (ok : ℕ → Bool) : Mem → List Op → Prop
  | m, [] => DivesEnd m
  | m, op :: ops => DivesEnd m ∧ ∀ r m', Returns (call ok op m) (r, m') → AllEnd ok m' ops

/-- Every call is clean. -/
def AllClean (ok : ℕ → Bool) : Mem → List Op → Prop
  | _, [] => True
  | m, op :: ops => Clean m op ∧ ∀ r m', Returns (call ok op m) (r, m') → AllClean ok m' ops

theorem AllEnd.head {ok : ℕ → Bool} {ops : List Op} (h : AllEnd ok m ops) : DivesEnd m := by
  cases ops with
  | nil => exact h
  | cons op ops => exact h.1

/-- After a call walks end exactly if it was clean. -/
theorem Quiet.divesEnd_iff {ok : ℕ → Bool} {op : Op} {r : Ret} {m' : Mem} (h : Quiet m g) (hends : DivesEnd m)
    (hr : Returns (call ok op m) (r, m')) : DivesEnd m' ↔ Clean m op := by
  cases op with
  | insert key value => exact iff_of_true (h.insert_divesEnd hends hr) trivial
  | remove key => exact h.remove_divesEnd_iff hends hr
  | get key =>
      obtain ⟨rfl, -⟩ := get_mem hr
      exact iff_of_true hends trivial
  | findLe key =>
      obtain ⟨rfl, -⟩ := findLe_mem hr
      exact iff_of_true hends trivial

theorem Quiet.allEnd_iff {ok : ℕ → Bool} {ops : List Op} (h : Quiet m g) (hends : DivesEnd m) :
    AllEnd ok m ops ↔ AllClean ok m ops := by
  induction ops generalizing m g with
  | nil => exact iff_of_true hends trivial
  | cons op ops ih =>
      constructor
      · rintro ⟨-, hrest⟩
        refine ⟨?_, fun r m' hr => ?_⟩
        · cases op with
          | remove key =>
              obtain ⟨r, m', -, hr, -⟩ := remove_returns h ok key true true
              exact (h.divesEnd_iff hends hr).mp (hrest r m' hr).head
          | _ => trivial
        · obtain ⟨g', hq, -⟩ := h.of_returns hr
          exact (ih hq (hrest r m' hr).head).mp (hrest r m' hr)
      · rintro ⟨hclean, hrest⟩
        refine ⟨hends, fun r m' hr => ?_⟩
        obtain ⟨g', hq, -⟩ := h.of_returns hr
        exact (ih hq ((h.divesEnd_iff hends hr).mpr hclean)).mpr (hrest r m' hr)

/-- Walks from all nodes end in every state of a run exactly if no remove of the run closes a circle. -/
theorem critnib_dives_end_iff (ok : ℕ → Bool) (node : Addr → Node) (leaf : Addr → Leaf) (ops : List Op) :
    AllEnd ok (critnibNew node leaf) ops ↔ AllClean ok (critnibNew node leaf) ops :=
  (quiet_new node leaf).allEnd_iff fun _ h => absurd h (Nat.not_lt_zero _)

theorem AllEnd.of_calls {ok : ℕ → Bool} {ops : List Op} {m' : Mem} (h : AllEnd ok m ops) (hc : Calls ok m ops m') :
    DivesEnd m' := by
  induction hc with
  | nil m => exact h
  | cons hr _ ih => exact ih (h.2 _ _ hr)

/-- Node 1 branches at bit 4 and node 0, its child in slot 1, at bit 0. Both are retired, first the upper one; 16
removes of an absent key later both are in the pool. -/
def circleOps : List Op :=
  [.insert 0x10 1, .insert 0x11 2, .insert 0x20 3, .remove 0x20, .remove 0x11] ++ List.replicate 16 (.remove 0x99)

/-- Then node 0 points to node 1 as the next one in the pool and node 1 to node 0 as its old child: a walk along 0x10
goes from one to the other for ever. -/
theorem critnib_circle :
    ¬ AllEnd (fun _ => true) (critnibNew (fun _ => ⟨fun _ => .null, 0, 0⟩) fun _ => ⟨0, 0⟩) circleOps := by
  intro h
  have hrun : (runAll (fun _ => true) 17 circleOps (critnibNew (fun _ => ⟨fun _ => .null, 0, 0⟩) fun _ => ⟨0, 0⟩)).map
      (fun m => (m.nodesMalloced, m.next 0x10 0, m.next 0x10 1)) = some (2, some 1, some 0) := by decide +kernel
  obtain ⟨m', hm', hnext⟩ := Option.map_eq_some_iff.mp hrun
  simp only [Prod.mk.injEq] at hnext
  obtain ⟨hcount, h₀, h₁⟩ := hnext
  have hops : ∀ op ∈ circleOps, op.IsUpdate := by simp [circleOps, Op.IsUpdate]
  have hends := h.of_calls (calls_of_runAll (by decide) hops (.new _ _) hm')
  have hend := divesEnd_iff.mp hends 0 (by omega) 0x10
  exact hend.not_back h₀ (.single h₁)

end Ptok.Critnib
