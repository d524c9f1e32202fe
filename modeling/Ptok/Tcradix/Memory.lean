import Ptok.Tcradix.Ownership
import Ptok.Tcradix.Lemmas.Rules

/-!
# How much memory tcradix takes

A subtree has at most one node a level for each of its keys, and malloc is called for a node only when there is no removed
one. So the memory is bounded by the most keys there ever were at once.
-/

namespace Ptok.Tcradix

open Lib

variable {l pos : ℕ} {m : Mem} {g : Ghost TOP} {Q : Word → ℕ → Prop} {ok : ℕ → Bool}

/-! ## The nodes for some keys -/

/-- The keys that are found in a subtree at some position. -/
noncomputable def T.keys (pos : ℕ) (t : T l) : Finset Word := (Set.toFinite {k | Under l pos k ∧ t.get k ≠ NULL}).toFinset

theorem T.mem_keys {t : T l} {k : Word} : k ∈ t.keys pos ↔ Under l pos k ∧ t.get k ≠ NULL := by
  simp [T.keys]

/-- The keys of an open node are those of its children. -/
theorem T.keys_open {a : Addr} {h : Hdr} {c : Fin 16 → T l} (h0 : h.onlyKey = 0) :
    ((T.node a h c).keys pos).card = ∑ i, ((c i).keys (16 * pos + i.val)).card := by
  have hunion : (T.node a h c).keys pos = Finset.univ.biUnion fun i => (c i).keys (16 * pos + i.val) := by
    ext k
    simp only [Finset.mem_biUnion, Finset.mem_univ, true_and, T.mem_keys, T.get_open h0]
    constructor
    · exact fun ⟨hu, hk⟩ => ⟨sl k (l + 1), under_child hu, hk⟩
    · rintro ⟨i, hu, hk⟩
      obtain ⟨hu', rfl⟩ := under_parent hu
      exact ⟨hu', hk⟩
  rw [hunion, Finset.card_biUnion]
  intro i _ j _ hij
  refine Finset.disjoint_left.mpr fun k hi hj => hij ?_
  rw [← (under_parent (T.mem_keys.mp hi).1).2, ← (under_parent (T.mem_keys.mp hj).1).2]

/-- Copies of a value are of one key. -/
theorem T.Copy.keys_le {t : T l} {k : Word} {v : ℕ} (hc : t.Copy k v) (hk : k ≠ 0) (hu : Under l pos k) :
    (t.keys pos).card ≤ 1 := by
  have hsub : t.keys pos ⊆ {k} := by
    intro k' hk'
    obtain ⟨hu', hget⟩ := T.mem_keys.mp hk'
    rw [Finset.mem_singleton]
    by_contra hne
    exact hget (hc.get_of_ne hk hne hu hu')
  exact (Finset.card_le_card hsub).trans (Finset.card_singleton k).le

/-- A key of a position in the last level. -/
theorem exists_under {i : Fin 16} (hpos : (pos + 1) * 16 ≤ 2 ^ 64) : ∃ k, Under 0 pos k ∧ sl k 0 = i := by
  have hi := i.isLt
  have hnat : (BitVec.ofNat 64 (16 * pos + i.val)).toNat = 16 * pos + i.val := by
    rw [BitVec.toNat_ofNat]
    exact Nat.mod_eq_of_lt (by omega)
  refine ⟨BitVec.ofNat 64 (16 * pos + i.val), ?_, Fin.ext ?_⟩
  · unfold Under
    rw [hnat]
    omega
  · show (sliceIndex _ _).val = _
    rw [sliceIndex_val, hnat]
    omega

theorem T.last_keys {a : Addr} {h : Hdr} {w : Fin 16 → Ptr} (hok : (T.last a h w).OK pos) (hb : ¬ (T.last a h w).Bare)
    (hpos : (pos + 1) * 16 ≤ 2 ^ 64) : 0 < ((T.last a h w).keys pos).card := by
  have hslot : ∃ i, w i ≠ .null := by
    by_cases hkey : h.onlyKey = 0
    · by_contra hall
      have hnull : ∀ i, w i = .null := by simpa using hall
      exact hb ⟨hok.count.trans (used_eq_zero.mpr hnull), hkey⟩
    · exact ⟨_, (hok.key hkey).2⟩
  obtain ⟨i, hi⟩ := hslot
  obtain ⟨k, hu, rfl⟩ := exists_under (i := i) hpos
  refine Finset.card_pos.mpr ⟨k, T.mem_keys.mpr ⟨hu, ?_⟩⟩
  obtain ⟨v, hv, hw⟩ := (hok.val (sl k 0)).resolve_left hi
  rwa [T.get_last, hw]

/-- What is below a node, if every child has at most `l + 1` nodes for each key. -/
theorem T.children_le {a : Addr} {h : Hdr} {c : Fin 16 → T l} (hok : (T.node a h c).OK pos)
    (hc : ∀ i, (c i).addrs.card ≤ (l + 1) * ((c i).keys (16 * pos + i.val)).card) :
    ∑ i, (c i).addrs.card ≤ (l + 1) * ((T.node a h c).keys pos).card := by
  by_cases h0 : h.onlyKey = 0
  · rw [T.keys_open h0, Finset.mul_sum]
    exact Finset.sum_le_sum fun i _ => hc i
  have hp := hok.2.1 h0
  have hpos : 0 < ((T.node a h c).keys pos).card := by
    refine Finset.card_pos.mpr ⟨h.onlyKey, T.mem_keys.mpr ⟨hp.under, ?_⟩⟩
    rw [T.get_packed h0, if_pos rfl]
    exact hp.val
  -- the only child has copies
  rw [Finset.sum_eq_single (sl h.onlyKey (l + 1)) (fun i _ hi => by rw [hp.only i hi]; rfl) (by simp)]
  have hone := hp.copy.keys_le h0 (under_child hp.under)
  calc (c (sl h.onlyKey (l + 1))).addrs.card
      ≤ (l + 1) * 1 := (hc _).trans (Nat.mul_le_mul_left _ hone)
    _ ≤ (l + 1) * ((T.node a h c).keys pos).card := Nat.mul_le_mul_left _ hpos

/-- A subtree has at most one node a level for each of its keys. -/
theorem T.OK.card_le {t : T l} (hok : t.OK pos) (hb : ¬ t.Bare) (hpos : (pos + 1) * 2 ^ (4 * l + 4) ≤ 2 ^ 64) :
    t.addrs.card ≤ (l + 1) * (t.keys pos).card := by
  induction t generalizing pos with
  | nil => exact Nat.zero_le _
  | last a h w =>
      have hkey := T.last_keys hok hb hpos
      simp only [T.addrs_last, Multiset.card_singleton]
      omega
  | @node l a h c ih =>
      have hc : ∀ i, (c i).addrs.card ≤ (l + 1) * ((c i).keys (16 * pos + i.val)).card := by
        intro i
        refine ih i (hok.2.2 i).1 (hok.2.2 i).2 (le_trans ?_ hpos)
        have hi := i.isLt
        calc (16 * pos + i.val + 1) * 2 ^ (4 * l + 4) ≤ ((pos + 1) * 16) * 2 ^ (4 * l + 4) :=
              Nat.mul_le_mul_right _ (by omega)
          _ = (pos + 1) * 2 ^ (4 * (l + 1) + 4) := by ring
      have hle := T.children_le hok hc
      have hkey : 0 < ((T.node a h c).keys pos).card := by
        by_cases h0 : h.onlyKey = 0
        · -- a child that is not empty has a key
          have hcount : h.nchildren ≠ 0 := fun hn => hb ⟨hn, h0⟩
          rw [hok.1] at hcount
          obtain ⟨i, hi⟩ : ∃ i, T.ptrs c i ≠ .null := by
            by_contra hall
            exact hcount (used_eq_zero.mpr (by simpa using hall))
          rw [T.keys_open h0]
          refine lt_of_lt_of_le ?_ (Finset.single_le_sum (f := fun i => ((c i).keys (16 * pos + i.val)).card)
            (fun _ _ => Nat.zero_le _) (Finset.mem_univ i))
          have hnode : 0 < (c i).addrs.card := by
            obtain ⟨b, hb'⟩ := (c i).ptr_cases.resolve_left fun hnil => hi (by simp [hnil])
            exact Multiset.card_pos_iff_exists_mem.mpr ⟨b, T.mem_addrs_of_ptr hb'⟩
          exact Nat.pos_of_ne_zero fun hz => by
            have := hc i
            rw [hz, Nat.mul_zero] at this
            omega
        · refine Finset.card_pos.mpr ⟨h.onlyKey, T.mem_keys.mpr ⟨(hok.2.1 h0).under, ?_⟩⟩
          rw [T.get_packed h0, if_pos rfl]
          exact (hok.2.1 h0).val
      rw [T.addrs_node, Multiset.card_cons, Multiset.card_sum]
      nlinarith

/-! ## What malloc returned -/

/-- Where code malloced, the list of removed nodes is empty afterwards. -/
structure Grows (m m' : Mem) : Prop where
  drained : m'.malloced = m.malloced ∨ m'.deletedNode = .null
  empty : m.deletedNode = .null → m'.deletedNode = .null

theorem Grows.refl (m : Mem) : Grows m m := ⟨Or.inl rfl, id⟩

theorem Grows.trans ⦃m m' m'' : Mem⦄ (h : Grows m m') (h' : Grows m' m'') : Grows m m'' := by
  refine ⟨?_, h'.empty ∘ h.empty⟩
  rcases h'.drained with heq | hnull
  · rcases h.drained with heq' | hnull
    · exact Or.inl (heq.trans heq')
    · exact Or.inr (h'.empty hnull)
  · exact Or.inr hnull

theorem allocNode_grows (ok : ℕ → Bool) : Wr.Relates Grows (allocNode ok) := by
  intro m p log h
  cases hd : m.deletedNode with
  | null =>
      cases (allocNode_null hd).symm.trans h
      have hsame : ∀ b, (m.store (.zalloc b)).deletedNode = .null := fun b => by cases b <;> exact hd
      exact ⟨Or.inr (hsame _), fun _ => hsame _⟩
  | node a =>
      cases (allocNode_node hd).symm.trans h
      exact ⟨Or.inl rfl, fun hnull => by rw [hd] at hnull; cases hnull⟩
  | val v =>
      obtain ⟨q, l₁, l₂, hq, h, rfl⟩ := Wr.bind_ok.mp h
      cases hq
      dsimp only at h
      rw [hd] at h
      cases h

theorem grows_fills (ok : ℕ → Bool) : Fills ok fun _ => Wr.Relates Grows where
  toClosed := Wr.Relates.closed Grows.refl Grows.trans
  nodes _ _ _ := .emit fun _ => ⟨Or.inl rfl, id⟩
  onlyKey _ _ := .emit fun _ => ⟨Or.inl rfl, id⟩
  onlyVal _ _ := .emit fun _ => ⟨Or.inl rfl, id⟩
  nchildren _ _ := .emit fun _ => ⟨Or.inl rfl, id⟩
  alloc := allocNode_grows ok
  free _ := .emit fun _ => ⟨Or.inl rfl, id⟩

theorem writePoke_grows : Wr.Relates Grows writePoke :=
  .bind Grows.trans (.read Grows.refl _) fun _ => .emit fun _ => ⟨Or.inl rfl, id⟩

theorem tcradixInsert_grows (ok : ℕ → Bool) (key : Word) (value : ℕ) : Wr.Relates Grows (tcradixInsert ok key value) := by
  have h := grows_fills ok
  unfold tcradixInsert
  split
  · exact h.pure _
  · exact h.bind writePoke_grows fun _ => h.bind (h.setRoot _ _) fun _ => h.bind (h.insert _ _ _ _) fun _ =>
      h.bind writePoke_grows fun _ => h.pure _

/-- No node is malloced. -/
abbrev SameNodes (m m' : Mem) : Prop := m'.malloced = m.malloced

theorem sameNodes_drops : Drops fun _ => Wr.Relates SameNodes where
  toClosed := Wr.Relates.closed (fun _ => rfl) fun _ _ _ h h' => h'.trans h
  nodes _ _ _ := .emit fun _ => rfl
  onlyKey _ _ := .emit fun _ => rfl
  onlyVal _ _ := .emit fun _ => rfl
  nchildren _ _ := .emit fun _ => rfl
  pool _ := .emit fun _ => rfl

theorem tcradixRemove_sameNodes (key : Word) : Wr.Relates SameNodes (tcradixRemove key) := by
  have h := sameNodes_drops
  have hpoke : Wr.Relates SameNodes writePoke := h.bind (h.read _) fun _ => .emit fun _ => rfl
  refine h.bind hpoke fun _ => h.bind (h.nremove _ _ _ _) fun ret => ?_
  split
  exact h.bind hpoke fun _ => h.pure _

theorem le_freed_storeAll (m : Mem) (log : List Event) : m.freed.length ≤ (storeAll m log).freed.length := by
  induction log generalizing m with
  | nil => exact le_rfl
  | cons e log ih =>
      refine le_trans ?_ (ih (m.store e))
      cases e with
      | zalloc ok => cases ok <;> exact le_rfl
      | free a => simp [Mem.store]
      | _ => exact le_rfl

/-- A call that leaves more nodes than there were leaves no removed ones. -/
theorem call_grows {m' : Mem} {op : Op} {r : Ret} (hr : Returns (call ok op m) (r, m')) :
    m'.malloced - m'.freed.length ≤ m.malloced - m.freed.length ∨ m'.deletedNode = .null := by
  obtain ⟨fuel, hr⟩ := hr
  have hr := hr fuel le_rfl
  cases op with
  | insert key value =>
      cases hx : (tcradixInsert ok key value).exec m with
      | error e =>
          simp only [call, hx] at hr
          cases hr
      | ok res =>
          simp only [call, hx] at hr
          cases hr
          obtain ⟨log, hlog, hm⟩ := Wr.exec_ok.mp hx
          rw [hm]
          refine (tcradixInsert_grows ok key value m _ _ hlog).drained.imp (fun heq => ?_) id
          have := le_freed_storeAll m log
          omega
  | remove key =>
      cases hx : (tcradixRemove key).exec m with
      | error e =>
          simp only [call, hx] at hr
          cases hr
      | ok res =>
          simp only [call, hx] at hr
          cases hr
          obtain ⟨log, hlog, hm⟩ := Wr.exec_ok.mp hx
          rw [hm]
          have heq := tcradixRemove_sameNodes key m _ _ hlog
          have := le_freed_storeAll m log
          exact Or.inl (by omega)
  | get key =>
      cases hx : (tcradixGet key fuel).eval m.load with
      | error e =>
          simp only [call, hx] at hr
          cases hr
      | ok v =>
          simp only [call, hx] at hr
          cases hr
          exact Or.inl le_rfl

/-! ## The result -/

/-- The number of keys that lookups find. -/
noncomputable def Mem.boundKeys (m : Mem) : ℕ :=
  {key | ∃ v ≠ NULL, Returns (fun fuel => (tcradixGet key fuel).eval m.load) v}.ncard

theorem Quiet.boundKeys_eq (h : Quiet ok Q m g) : m.boundKeys = (g.tree.keys 0).card := by
  have hget : ∀ key, Returns (fun fuel => (tcradixGet key fuel).eval m.load) (g.tree.get key) := fun key =>
    ⟨0, fun fuel _ => tcradixGet_eval h key fuel⟩
  have hset : {key | ∃ v ≠ NULL, Returns (fun fuel => (tcradixGet key fuel).eval m.load) v} =
      {key | Under TOP 0 key ∧ g.tree.get key ≠ NULL} := by
    ext key
    constructor
    · rintro ⟨v, hv, hr⟩
      exact ⟨under_top key, by rwa [← hr.unique (hget key)]⟩
    · exact fun ⟨_, hk⟩ => ⟨_, hk, hget key⟩
  rw [Mem.boundKeys, hset, Set.ncard_eq_toFinset_card]
  rfl

theorem Quiet.children_card_le (h : Quiet ok Q m g) : g.tree.addrs.card ≤ 15 * (g.tree.keys 0).card + 1 := by
  rcases h.root with hok | hmark
  · have htop : ∀ t : T (14 + 1), t.OK 0 → t.addrs.card ≤ 15 * (t.keys 0).card + 1 := by
      intro t hok
      cases t with
      | nil => simp
      | node a hd c =>
          have hle := T.children_le hok fun i => by
            refine T.OK.card_le (hok.2.2 i).1 (hok.2.2 i).2 ?_
            have hi := i.isLt
            calc (16 * 0 + i.val + 1) * 2 ^ (4 * 14 + 4) ≤ 16 * 2 ^ (4 * 14 + 4) := Nat.mul_le_mul_right _ (by omega)
              _ ≤ 2 ^ 64 := by norm_num
          rw [T.addrs_node, Multiset.card_cons, Multiset.card_sum]
          omega
    exact htop g.tree hok
  · rw [hmark]
    simp [mark]

theorem Quiet.malloced_le (h : Quiet ok Q m g) (hd : m.deletedNode = .null) :
    m.malloced ≤ m.freed.length + 15 * m.boundKeys := by
  have hpool : g.pool = [] := by
    have hp := h.pool
    cases hg : g.pool with
    | nil => rfl
    | cons a as =>
        rw [hd, hg] at hp
        cases hp.1
  have hcard := congrArg Multiset.card h.addrs_eq
  have htree := h.children_card_le
  rw [hpool] at hcard
  simp only [Multiset.card_add, Multiset.coe_nil, Multiset.card_zero, Multiset.coe_card, Multiset.card_range] at hcard
  rw [h.boundKeys_eq]
  omega

/-- Calls one after another. -/
inductive Calls (ok : ℕ → Bool) : Mem → List Op → Mem → Prop
  | nil (m : Mem) : Calls ok m [] m
  | snoc {m m' m'' : Mem} {ops : List Op} {op : Op} {r : Ret} (h : Calls ok m ops m')
      (hr : Returns (call ok op m') (r, m'')) : Calls ok m (ops ++ [op]) m''

/-- Besides the nodes that were freed no more than 15 were ever malloced for each of the keys that were there at some
time. -/
theorem tcradix_bounded {ops : List Op} (h : Reached ok ops m) : ∃ ops₁ ops₂ m₁, ops = ops₁ ++ ops₂ ∧
    Reached ok ops₁ m₁ ∧ Calls ok m₁ ops₂ m ∧ m.malloced ≤ m.freed.length + 15 * m₁.boundKeys := by
  induction h with
  | new node => exact ⟨[], [], _, rfl, .new node, .nil _, Nat.zero_le _⟩
  | @call ops m m' op r h hr ih =>
      rcases call_grows hr with hle | hd
      · obtain ⟨ops₁, ops₂, m₁, rfl, h₁, hc, hm⟩ := ih
        exact ⟨ops₁, ops₂ ++ [op], m₁, by simp, h₁, hc.snoc hr, by omega⟩
      · obtain ⟨g, hq⟩ := (h.call hr).quiet (Q := fun _ _ => True) fun _ _ _ => trivial
        exact ⟨ops ++ [op], [], m', by simp, h.call hr, .nil _, hq.malloced_le hd⟩

theorem tcradix_bounded_single : ∃ ops₁ ops₂ m₁, [Op.insert 5 7] = ops₁ ++ ops₂ ∧ Reached (fun _ => true) ops₁ m₁ ∧
    Calls (fun _ => true) m₁ ops₂ (storeAll blank (singleLog 5 7)) ∧
    (storeAll blank (singleLog 5 7)).malloced ≤ (storeAll blank (singleLog 5 7)).freed.length + 15 * m₁.boundKeys :=
  tcradix_bounded single_reached

end Ptok.Tcradix
