import Ptok.Critnib.Concurrent.Get
import Ptok.Critnib.Stale

/-!
# Dead nodes and leaves

A reader may hold a node or a leaf that has left the tree since. A dead node still leads to nothing but what the
structure owns, and until 16 further numbers are drawn nobody writes it and nobody is given it.
-/

namespace Ptok.Critnib

open Lib

variable {m m' : Mem} {g g' : Ghost} {e : Event} {p : Ptr} {log : List Event}

/-! ## What the structure owns -/

/-- `NULL`, or malloc returned it. -/
def Mem.Known (m : Mem) (p : Ptr) : Prop := p = .null ∨ m.Malloced p

theorem Mem.Malloced.mono (hn : m.nodesMalloced ≤ m'.nodesMalloced) (hl : m.leavesMalloced ≤ m'.leavesMalloced)
    (h : m.Malloced p) : m'.Malloced p := by
  cases p with
  | null => exact h
  | node a => exact Nat.lt_of_lt_of_le h hn
  | leaf k => exact ⟨h.1, h.2.trans hl⟩

theorem le_nodesMalloced (m : Mem) (e : Event) : m.nodesMalloced ≤ (m.store e).nodesMalloced := by
  by_cases he : e = .mallocNode true
  · subst he
    exact Nat.le_succ _
  · exact (store_nodesMalloced m he).ge

theorem le_leavesMalloced (m : Mem) (e : Event) : m.leavesMalloced ≤ (m.store e).leavesMalloced := by
  by_cases he : e = .mallocLeaf true
  · subst he
    exact Nat.le_succ _
  · exact (store_leavesMalloced m he).ge

theorem Mem.Malloced.storeAll (h : m.Malloced p) (log : List Event) : (storeAll m log).Malloced p := by
  induction log generalizing m with
  | nil => exact h
  | cons e log ih => exact ih (h.mono (le_nodesMalloced m e) (le_leavesMalloced m e))

theorem Inv.malloced_of_inTree (h : Inv m g) (hp : g.InTree p) : m.Malloced p := by
  apply mem_malloced.mp
  rw [← h.nodes, ← h.leaves]
  simp only [Ghost.InTree, Ghost.nodes, Ghost.leaves, Multiset.mem_add] at hp ⊢
  tauto

theorem Inv.inTree_of_live (h : Inv m g) (hp : m.Live p) (hne : p ≠ .null) : g.InTree p := by
  obtain ⟨t, ht, hrep⟩ := h.rep.reaches hp
  have hnil : t ≠ .nil := by
    rintro rfl
    exact hne (rep_nil.mp hrep)
  rcases Multiset.mem_add.mp (hrep.mem hnil) with hn | hl
  · exact Multiset.mem_add.mpr (Or.inl (ht.mem_nodes hn))
  · exact Multiset.mem_add.mpr (Or.inr (ht.mem_leaves hl))

/-! ## Where dead nodes lead -/

/-- The slots of every node that malloc returned hold `NULL` or what malloc returned. -/
def Closed (m : Mem) : Prop := ∀ a < m.nodesMalloced, ∀ i, m.Known ((m.node a).child i)

theorem Inv.known_child (h : Inv m g) {a : Addr} (ha : .node a ∈ g.tree.nodes) (i : Fin 16) :
    m.Known ((m.node a).child i) :=
  (h.inTree_child (Multiset.mem_add.mpr (Or.inl ha)) i).imp_right h.malloced_of_inTree

theorem Quiet.insert_closed (h : Quiet m g) (hc : Closed m) {ok : ℕ → Bool} {key : Word} {value : ℕ} {r : Errno}
    (hr : Returns (fun fuel => critnibInsert ok fuel key value m) (r, log)) : Closed (storeAll m log) := by
  obtain ⟨r', log', g', hdo, hq, -, hfr, -⟩ := critnibInsert_spec h ok key value
  obtain ⟨rfl, -⟩ := Does.of_returns hdo hr
  intro a ha i
  by_cases hin : .node a ∈ g'.tree.nodes
  · exact hq.known_child hin i
  · rw [hfr.node a hin]
    exact (hc a (hfr.malloced a hin ha) i).imp_right fun hk => hk.storeAll log

/-- The node that goes to the pool points to the node that was on top of it. -/
theorem Quiet.recycle_closed (h : Quiet m g) (hc : Closed m) : Closed (storeAll m (recycleLog m)) := by
  obtain ⟨dn, nd, dl, lf, hframe⟩ := recycleLog_frame m
  have hcount : (storeAll m (recycleLog m)).nodesMalloced = m.nodesMalloced := by rw [hframe]
  have hknown : ∀ p, m.Known p → (storeAll m (recycleLog m)).Known p := fun p hp => hp.imp_right fun hk => hk.storeAll _
  have hhead : m.Known m.deletedNode := by
    cases hd : m.deletedNode with
    | null => exact Or.inl rfl
    | node b => exact Or.inr (h.head_lt hd)
    | leaf k =>
        have hchain := h.nodePool
        rw [hd] at hchain
        cases hns : g.ns with
        | nil => simp [hns, NodeChain] at hchain
        | cons b bs => simp [hns, NodeChain] at hchain
  intro a ha i
  rw [hcount] at ha
  apply hknown
  rw [recycleLog_node]
  cases hp : m.pendingDelNodes m.del with
  | null => exact hc a ha i
  | leaf k => exact hc a ha i
  | node b =>
      by_cases hab : a = b
      · subst hab
        by_cases hi : i = 0
        · subst hi
          simpa using hhead
        · simpa [hi] using hc a ha i
      · simpa [hab] using hc a ha i

theorem Quiet.remove_closed (h : Quiet m g) (hc : Closed m) {key : Word} {v : ℕ}
    (hr : Returns (fun fuel => critnibRemove fuel key m) (v, log)) : Closed (storeAll m log) := by
  obtain ⟨v', log', g', hdo, hq, -, hret, -⟩ := critnibRemove_spec h key
  obtain ⟨rfl, -⟩ := Does.of_returns hdo hr
  have hcount := (NoMalloc.critnibRemove _ key _ _ _ (hdo _ (Nat.lt_succ_self _)).run)
  -- the memory after the recycling, if there is any
  obtain ⟨m₁, hm₁, hc₁, hn₁, hl₁⟩ : ∃ m₁, Retired m₁ (storeAll m log) g.tree g'.tree ∧ Closed m₁ ∧
      m₁.nodesMalloced = m.nodesMalloced ∧ m₁.leavesMalloced = m.leavesMalloced := by
    by_cases hroot : m.root = .null
    · rw [if_pos hroot] at hret
      exact ⟨m, hret, hc, rfl, rfl⟩
    · rw [if_neg hroot] at hret
      obtain ⟨dn, nd, dl, lf, hframe⟩ := recycleLog_frame m
      exact ⟨_, hret, h.recycle_closed hc, by rw [hframe], by rw [hframe]⟩
  intro a ha i
  rw [hcount.2, ← hn₁] at ha
  by_cases hin : .node a ∈ g'.tree.nodes
  · exact hq.known_child hin i
  by_cases hin₁ : .node a ∈ g.tree.nodes
  · exact (hm₁.child a i hin₁ hin).imp_right hq.malloced_of_inTree
  · rw [hm₁.node a hin₁]
    refine (hc₁ a ha i).imp_right fun hk => hk.mono ?_ ?_
    · rw [hn₁, hcount.2]
    · rw [hl₁, hcount.1]

theorem Writes.closed {ok : ℕ → Bool} {ops : List Op} (hw : Writes ok m ops log) (h : Quiet m g) (hc : Closed m) :
    Closed (storeAll m log) := by
  induction hw generalizing g with
  | nil m => exact hc
  | insert hr t ih =>
      obtain ⟨e, log, g₁, hdo, hq, -⟩ := critnibInsert_spec h _ _ _
      obtain ⟨rfl, -⟩ := Does.of_returns hdo hr
      rw [storeAll_append]
      exact ih hq (h.insert_closed hc hr)
  | remove hr t ih =>
      obtain ⟨v, log, g₁, hdo, hq, -⟩ := critnibRemove_spec h _
      obtain ⟨rfl, -⟩ := Does.of_returns hdo hr
      rw [storeAll_append]
      exact ih hq (h.remove_closed hc hr)

/-- From a known node only known nodes and leaves are reached. -/
theorem Closed.reaches (hc : Closed m) {q : Ptr} (hr : Reaches m.cell p q) (hp : m.Known p) : m.Known q := by
  induction hr with
  | refl p => exact hp
  | @child p q n ch i hcell _ ih =>
      cases p with
      | null => cases hcell
      | leaf k => cases hcell
      | node a =>
          cases hcell
          exact ih (hc a (hp.resolve_left (by simp)) i)

section

variable {ok : ℕ → Bool} {node : Addr → Node} {leaf : Addr → Leaf} {ops : List Op}

/-- A node that was in the tree after some of the stores is a node of the structure ever after. So is whatever a reader
that goes on from it comes to. -/
theorem critnib_slots_known {l l' : List Event} {a : Addr} (hw : Writes ok (critnibNew node leaf) ops (l ++ l'))
    (ha : (storeAll (critnibNew node leaf) l).Live (.node a)) :
    (storeAll (critnibNew node leaf) (l ++ l')).Malloced (.node a) ∧
      (∀ i, (storeAll (critnibNew node leaf) (l ++ l')).Known
        (((storeAll (critnibNew node leaf) (l ++ l')).node a).child i)) ∧
      ∀ p, Reaches (storeAll (critnibNew node leaf) (l ++ l')).cell (.node a) p →
        (storeAll (critnibNew node leaf) (l ++ l')).Known p := by
  have hquiet := quiet_new node leaf
  have hclosed := hw.closed hquiet fun a ha => absurd ha (Nat.not_lt_zero a)
  obtain ⟨g', hp⟩ := hquiet.path hw
  obtain ⟨g₁, hp₁, -⟩ := hp.split
  have hinv := hp₁.inv hquiet.toInv
  have hm := (hinv.malloced_of_inTree (hinv.inTree_of_live ha (by simp))).storeAll l'
  rw [← storeAll_append] at hm
  exact ⟨hm, hclosed a hm, fun p hr => hclosed.reaches hr (Or.inr hm)⟩

/-- Two keys below one node; then the first one is removed and the node with it. -/
theorem critnib_slots_known_collapse : ∃ l l' : List Event,
    Writes (fun _ => true) blank [.insert 1 10, .insert 2 20, .remove 1] (l ++ l') ∧
      (storeAll blank l).Live (.node 0) ∧ (storeAll blank (l ++ l')).root = .leaf 2 ∧
      (storeAll blank (l ++ l')).Malloced (.node 0) ∧
      (∀ i, (storeAll blank (l ++ l')).Known (((storeAll blank (l ++ l')).node 0).child i)) ∧
      ∀ p, Reaches (storeAll blank (l ++ l')).cell (.node 0) p → (storeAll blank (l ++ l')).Known p := by
  have hrun : (storesOf (fun _ => true) 17 [.insert 1 10, .insert 2 20] blank).bind (fun l =>
      (storesOf (fun _ => true) 17 [.remove 1] (storeAll blank l)).map fun l' =>
        decide ((storeAll blank l).root = .node 0 ∧ (storeAll blank (l ++ l')).root = .leaf 2)) = some true := by
    decide +kernel
  obtain ⟨l, hl, hrun⟩ := Option.bind_eq_some_iff.mp hrun
  obtain ⟨l', hl', hroots⟩ := Option.map_eq_some_iff.mp hrun
  obtain ⟨hroot, hroot'⟩ := of_decide_eq_true hroots
  have hlive : (storeAll blank l).Live (.node 0) := hroot ▸ .refl _
  have hw := (quiet_new _ _).writes_of_run (by decide) hl
  obtain ⟨g, hq⟩ := (quiet_new _ _).of_writes hw
  have hall := hw.append (hq.writes_of_run (by decide) hl')
  exact ⟨l, l', hall, hlive, hroot', critnib_slots_known hall hlive⟩

end

/-! ## The writers and what is parked -/

/-- The store is into a field of the node or of the leaf. -/
inductive Event.Into : Event → Ptr → Prop
  | child (p : Ptr) (i : Fin 16) (q : Ptr) : Into (.slot (.child p i) q) p
  | path (p : Ptr) (w : Word) : Into (.path p w) p
  | shift (p : Ptr) (s : ℕ) : Into (.shift p s) p
  | key (k : Addr) (w : Word) : Into (.key k w) (.leaf k)
  | value (k : Addr) (v : ℕ) : Into (.value k v) (.leaf k)

/-- `alloc_node` and `alloc_leaf` would not hand it out now. -/
structure Untaken (m : Mem) (p : Ptr) : Prop where
  node : ∀ ok n l, allocNode ok m = .ok (n, l) → n ≠ p
  leaf : ∀ ok k l, allocLeaf ok m = .ok (k, l) → leafPtr k ≠ p

/-- The number was drawn from `remove_count`. -/
def NumberDrawn (log : List Event) (r : ℕ) : Prop := ∃ w, .removeCount w ∈ log ∧ w.toNat = r + 1

theorem Ghost.Parked.ne_null {d : Fin 16} (hp : g.Parked d p) : p ≠ .null := by
  rintro rfl
  rcases Multiset.mem_add.mp hp with hp | hp
  · simp [mem_ptrOwn, nonNull_eq_some] at hp
  · simp [mem_leafOwn, nonNull_eq_some] at hp

theorem Held.not_into (hh : Held g e) (hfn : p ∉ g.fn) (hfl : p ∉ g.fl) : ¬ e.Into p := by
  intro hi
  cases hh with
  | slot ha => cases hi; exact hfn ha
  | path ha => cases hi; exact hfn ha
  | shift ha => cases hi; exact hfn ha
  | key hk => cases hi; exact hfl hk
  | value hk => cases hi; exact hfl hk

/-- No store is into what is parked. -/
theorem Step.not_into (hs : Step m g e g') (h : Inv m g) {d : Fin 16} (hp : g.Parked d p) : ¬ e.Into p := by
  obtain ⟨htree, hfn, hfl⟩ := h.parked_out hp
  have hslot : ∀ sel q, ¬ (Event.slot (Tree.slotOf sel .root g.tree) q).Into p := by
    intro sel q hi
    generalize hs : Tree.slotOf sel .root g.tree = s at hi
    cases hi
    exact htree (Multiset.mem_add.mpr (Or.inl (h.slot_out hs).1))
  cases hs with
  | held hh => exact hh.not_into hfn hfl
  | linkLeaf => exact hslot _ _
  | linkSplit => exact hslot _ _
  | unlink => exact hslot _ _
  | collapse => exact hslot _ _
  | _ => exact fun hi => by cases hi

theorem Inv.untaken (h : Inv m g) {d : Fin 16} (hp : g.Parked d p) : Untaken m p where
  node := by
    intro ok n l hn
    rcases allocNode_spec h ok with ⟨hdo, -⟩ | ⟨a, e, ns, dn, c, hdo, -⟩
    · cases hn.symm.trans hdo.run
      exact hp.ne_null.symm
    · cases hn.symm.trans hdo.run
      rintro rfl
      exact ((hdo.path.inv h).parked_out hp).2.1 (Multiset.mem_cons_self _ _)
  leaf := by
    intro ok k l hk
    rcases allocLeaf_spec h ok with ⟨hdo, -⟩ | ⟨k', e, ls, dl, c, hdo, hk', -⟩
    · cases hk.symm.trans hdo.run
      exact hp.ne_null.symm
    · cases hk.symm.trans hdo.run
      rintro rfl
      refine ((hdo.path.inv h).parked_out hp).2.2 ?_
      simp [leafPtr, hk']

theorem Event.eq_of_isDraw (h : e.IsDraw = true) : ∃ w, e = .removeCount w := by
  cases e with
  | removeCount w => exact ⟨w, rfl⟩
  | _ => cases h

/-- What is parked stays where it is until the number 16 above its own is drawn. -/
theorem Path.parked {r : ℕ} {d : Fin 16} (hpath : Path m g log g') (h : Inv m g) (hp : g.Parked d p)
    (hrec : Recent (r + 1) m.removeCount.toNat d) (hle : m.removeCount.toNat ≤ r + 16)
    (hnot : ¬ NumberDrawn log (r + 16)) (hb : m.removeCount.toNat + draws log < 2 ^ 64) :
    Inv (storeAll m log) g' ∧ g'.Parked d p := by
  induction hpath with
  | nil => exact ⟨h, hp⟩
  | @cons m g g₁ g₂ e log hs _ ih =>
      have hdraws : draws (e :: log) = draws [e] + draws log := draws_append [e] log
      have hcount : (m.store e).removeCount.toNat = m.removeCount.toNat + draws [e] :=
        (Path.single hs).removeCount (by omega)
      have hle' : (m.store e).removeCount.toNat ≤ r + 16 := by
        cases hd : e.IsDraw with
        | false =>
            simp [draws, hd] at hcount
            omega
        | true =>
            obtain ⟨w, rfl⟩ := Event.eq_of_isDraw hd
            have hw : w.toNat ≠ r + 17 := fun hw => hnot ⟨w, by simp, hw⟩
            have hone : draws [.removeCount w] = 1 := rfl
            have hself : (m.store (.removeCount w)).removeCount = w := rfl
            rw [hself] at hcount ⊢
            omega
      have hlife : InLife (r + 1) m e := ⟨hle', by omega⟩
      obtain ⟨hrec', hkeep⟩ := hrec.step hs hlife
      refine ih (hs.inv h) ((hs.parked hp).resolve_right hkeep) hrec' hle' ?_ (by omega)
      rintro ⟨w, hw, hwr⟩
      exact hnot ⟨w, List.mem_cons_of_mem _ hw, hwr⟩

/-- The count stays above every number that was drawn. -/
theorem Path.lt_removeCount {r : ℕ} (hpath : Path m g log g') (hb : m.removeCount.toNat + draws log < 2 ^ 64)
    (hr : NumberDrawn log r) : r < (storeAll m log).removeCount.toNat := by
  obtain ⟨w, hw, hwr⟩ := hr
  obtain ⟨s, t, rfl⟩ := List.append_of_mem hw
  rw [List.append_cons] at hpath hb ⊢
  obtain ⟨g₁, hs, -⟩ := hpath.split
  have hlog := hpath.removeCount hb
  rw [draws_append] at hb hlog
  have hcount := hs.removeCount (by omega)
  have hself : (storeAll m (s ++ [.removeCount w])).removeCount = w := by
    rw [storeAll_append]
    rfl
  rw [hself] at hcount
  omega

/-- A remove that stores anything draws its number first, and no other one. -/
theorem critnibRemove_log {fuel : ℕ} {key : Word} {v : ℕ} (h : critnibRemove fuel key m = .ok (v, log)) :
    log = [] ∨ ∃ l, log = .removeCount (m.removeCount + 1) :: l ∧ draws l = 0 := by
  have hone := critnibRemove_oneDraw fuel key m v log h
  obtain ⟨n, l, l', hn, h, rfl⟩ := Wr.bind_ok.mp h
  cases hn
  dsimp only at h
  split at h
  · cases h
    exact Or.inl rfl
  · right
    obtain ⟨del, l₁, l₂, hrec, -, rfl⟩ := Wr.bind_ok.mp h
    obtain ⟨c, l₃, l₄, hc, hrec, rfl⟩ := Wr.bind_ok.mp hrec
    cases hc
    obtain ⟨u, l₅, l₆, hu, -, rfl⟩ := Wr.bind_ok.mp hrec
    cases hu
    refine ⟨l₆ ++ l₂, rfl, Nat.eq_zero_of_le_zero ?_⟩
    exact Nat.le_of_succ_le_succ ((draws_removeCount _ (l₆ ++ l₂)).ge.trans hone)

/-- What leaves the tree is parked under the number drawn last. -/
theorem Step.parked_of_gone (hs : Step m g e g') (h : Inv m g) (hp : m.Live p) (hne : p ≠ .null)
    (hgone : ¬ (m.store e).Live p) : ∃ d, d + 1 = m.del ∧ g'.Parked d p :=
  (hs.inTree h (h.inTree_of_live hp hne)).resolve_left fun ht => hgone ((hs.inv h).rep.reaches_of_mem ht)

/-- A remove has drawn its number when it takes something out of the tree. -/
structure Unlinks (m : Mem) (l : List Event) (e : Event) (r : ℕ) : Prop where
  drawn : draws l = 1
  notDraw : e.IsDraw = false
  number : (m.removeCount + 1).toNat = r + 1

theorem remove_unlinks {fuel r : ℕ} {key : Word} {v : ℕ} {l l' : List Event}
    (hrun : critnibRemove fuel key m = .ok (v, l ++ e :: l')) (hr : NumberDrawn (l ++ e :: l') r)
    (hlive : (storeAll m l).Live p) (hgone : ¬ (storeAll m (l ++ [e])).Live p) : Unlinks m l e r := by
  rcases critnibRemove_log hrun with hnil | ⟨l₁, hl, hzero⟩
  · simp at hnil
  cases l with
  | nil =>
      obtain ⟨rfl, -⟩ := List.cons_eq_cons.mp hl
      exact absurd hlive hgone
  | cons e₀ l =>
      obtain ⟨rfl, rfl⟩ := List.cons_eq_cons.mp hl
      obtain ⟨w, hw, hwr⟩ := hr
      have hout : Event.removeCount w ∉ l ++ e :: l' := fun hin => by
        simpa [Event.IsDraw] using not_isDraw_of_draws hzero hin
      obtain rfl : w = m.removeCount + 1 := by simpa [hout] using hw
      refine ⟨?_, not_isDraw_of_draws hzero (by simp), hwr⟩
      have hcount : draws l + draws (e :: l') = 0 := (draws_append l _).symm.trans hzero
      rw [draws_removeCount, Nat.eq_zero_of_add_eq_zero_right hcount]

section

variable {ok : ℕ → Bool} {node : Addr → Node} {leaf : Addr → Leaf} {ops ops' : List Op}

/-- A remove draws the number `r` and, with the store `e`, takes a node or a leaf out of the tree. From then on nobody
writes it, and nobody would be given it, until a remove has drawn the number `r + 16`. By then `remove_count` is at
least `r + 17`. -/
theorem critnib_grace {key : Word} {v r : ℕ} {l₁ l l' l₂ : List Event} {e : Event} {p : Ptr}
    (hw : Writes ok (critnibNew node leaf) ops l₁)
    (hr : Returns (fun fuel => critnibRemove fuel key (storeAll (critnibNew node leaf) l₁)) (v, l ++ e :: l'))
    (hw' : Writes ok (storeAll (critnibNew node leaf) (l₁ ++ (l ++ e :: l'))) ops' l₂)
    (hops : (ops ++ .remove key :: ops').countP Op.IsRemove < 2 ^ 64) (hdraw : NumberDrawn (l ++ e :: l') r)
    (hne : p ≠ .null) (hlive : (storeAll (critnibNew node leaf) (l₁ ++ l)).Live p)
    (hgone : ¬ (storeAll (critnibNew node leaf) (l₁ ++ l ++ [e])).Live p) :
    ∀ s t, l' ++ l₂ = s ++ t →
      (NumberDrawn s (r + 16) ∧ r + 17 ≤ (storeAll (critnibNew node leaf) (l₁ ++ l ++ e :: s)).removeCount.toNat) ∨
      Untaken (storeAll (critnibNew node leaf) (l₁ ++ l ++ e :: s)) p ∧ ∀ e' t', t = e' :: t' → ¬ e'.Into p := by
  intro s t hst
  -- the whole run, cut at the store and after `s`
  have hall := hw.append (.remove hr (by rwa [← storeAll_append]))
  have hlog : l₁ ++ (l ++ e :: l' ++ l₂) = l₁ ++ l ++ e :: (s ++ t) := by simp [← hst]
  rw [hlog] at hall
  have hbound := hall.draws_le.trans_lt hops
  obtain ⟨g', hpath⟩ := (quiet_new node leaf).path hall
  obtain ⟨g₁, hp₁, hp₂⟩ := hpath.split
  have hinv := hp₁.inv (quiet_new node leaf).toInv
  have hsplit : draws (l₁ ++ l ++ e :: (s ++ t)) = draws (l₁ ++ l) + (draws [e] + (draws s + draws t)) := by
    rw [draws_append, ← draws_append s t, ← draws_append [e], List.singleton_append]
  have hzero : (critnibNew node leaf).removeCount.toNat = 0 := rfl
  -- the number drawn
  obtain ⟨N, hN⟩ := hr
  have hdraws := remove_unlinks (hN N le_rfl) hdraw (by rwa [storeAll_append] at hlive)
    (by rwa [List.append_assoc, storeAll_append] at hgone)
  have hcount : (storeAll (critnibNew node leaf) (l₁ ++ l)).removeCount.toNat = r + 1 := by
    obtain ⟨g₂, hl₁, -⟩ := hp₁.split
    have hl : draws (l₁ ++ l) = draws l₁ + 1 := by rw [draws_append, hdraws.drawn]
    have hc₁ := hl₁.removeCount (by omega)
    have hc := hp₁.removeCount (by omega)
    have hnumber := hdraws.number
    rw [BitVec.toNat_add, hc₁, hzero] at hnumber
    simp at hnumber
    omega
  cases hp₂ with
  | @cons _ _ g₂ _ _ _ hs hrest =>
      obtain ⟨d, hd, hpark⟩ := hs.parked_of_gone hinv hlive hne (by rwa [storeAll_append] at hgone)
      obtain ⟨g₃, hp₃, hp₄⟩ := hrest.split
      have hm : storeAll (critnibNew node leaf) (l₁ ++ l ++ e :: s) =
          storeAll ((storeAll (critnibNew node leaf) (l₁ ++ l)).store e) s := by
        rw [storeAll_append]
        rfl
      have hsame : ((storeAll (critnibNew node leaf) (l₁ ++ l)).store e).removeCount =
          (storeAll (critnibNew node leaf) (l₁ ++ l)).removeCount := by
        rw [hs.removeCount, hdraws.notDraw]
        simp
      rw [hm]
      have hb : ((storeAll (critnibNew node leaf) (l₁ ++ l)).store e).removeCount.toNat + draws s < 2 ^ 64 := by
        have hc := hp₁.removeCount (by omega)
        rw [hsame]
        omega
      by_cases hdrawn : NumberDrawn s (r + 16)
      · exact Or.inl ⟨hdrawn, hp₃.lt_removeCount hb hdrawn⟩
      · right
        have hrec : Recent (r + 1) ((storeAll (critnibNew node leaf) (l₁ ++ l)).store e).removeCount.toNat d := by
          rw [hsame, hcount]
          exact ⟨r + 1, le_rfl, le_rfl, by omega, by rw [hd, Mem.del, hcount]⟩
        obtain ⟨hinv', hpark'⟩ := hp₃.parked (hs.inv hinv) hpark hrec (by rw [hsame, hcount]; omega) hdrawn hb
        refine ⟨hinv'.untaken hpark', ?_⟩
        rintro e' t' rfl
        cases hp₄ with
        | cons hs' _ => exact hs'.not_into hinv' hpark'

end

/-- The only key is removed. -/
theorem insert_remove_returns : Returns (fun fuel => critnibRemove fuel 5 (storeAll blank
      [.mallocLeaf true, .key 1 5, .value 1 7, .slot .root (.leaf 1)]))
    (7, [.removeCount 1, .pendingDelNode 0 .null, .pendingDelLeaf 0 0] ++ .slot .root .null :: [.pendingDelLeaf 0 1]) :=
  ⟨0, fun _ _ => rfl⟩

theorem critnib_grace_root : Untaken (storeAll blank ([.mallocLeaf true, .key 1 5, .value 1 7, .slot .root (.leaf 1)] ++
      [.removeCount 1, .pendingDelNode 0 .null, .pendingDelLeaf 0 0] ++ .slot .root .null :: [])) (.leaf 1) ∧
    ∀ e' t', [Event.pendingDelLeaf 0 1] = e' :: t' → ¬ e'.Into (.leaf 1) := by
  have hgone : ¬ (storeAll blank ([.mallocLeaf true, .key 1 5, .value 1 7, .slot .root (.leaf 1)] ++
      [.removeCount 1, .pendingDelNode 0 .null, .pendingDelLeaf 0 0] ++ [.slot .root .null])).Live (.leaf 1) := by
    intro hlive
    cases hlive with
    | child hp => cases hp
  have h := critnib_grace (p := .leaf 1) insert_writes insert_remove_returns (.nil _) (by decide) ⟨1, by simp, rfl⟩
    (by simp) (.refl _) hgone [] [.pendingDelLeaf 0 1] rfl
  apply h.resolve_left
  rintro ⟨⟨w, hw, -⟩, -⟩
  simp at hw

end Ptok.Critnib
