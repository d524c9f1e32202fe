import Ptok.Tcradix.Concurrent.Get

/-!
# Values and keys in tcradix_get

A value that a lookup returns was inserted with the key, but for three things: a node may be used for another key between
the loads of `only_key` and `only_val`, the root gets its first value before its key, and `write_status` may wrap around.
-/

namespace Ptok.Tcradix

open Lib

variable {Q : Word → ℕ → Prop} {m : Mem} {g : Ghost TOP} {s s' : Stage} {e : Event} {key : Word} {v : ℕ} {a : Addr}
  {log L L' F : List Event}

/-! ## Between any two stores -/

/-- The stores of inserts whose values are in `Q`. -/
abbrev Fill (Q : Word → ℕ → Prop) : Mem → Stage → Event → Stage → Prop := Stage.Step (fun _ _ => False) Q

/-- While nobody is at work, every value that is found belongs to its key. -/
structure Stage.Sound (Q : Word → ℕ → Prop) (m : Mem) (s : Stage) : Prop where
  inv : s.Inv Q m
  ptr : s.ghost.tree.ptr = .node 0
  idle : ¬ busy m.writeStatus → s.filling = none ∧ s.ghost.tree.Fed Q

theorem Stage.Sound.step (h : s.Sound Q m) (hs : Fill Q m s e s') : s'.Sound Q (m.store e) := by
  refine ⟨hs.inv h.inv, hs.total.2.trans h.ptr, ?_⟩
  cases hs with
  | @poke g hfed =>
      intro hidle
      refine ⟨rfl, hfed ?_⟩
      have hidle : ¬ busy (m.writeStatus + 1) := hidle
      rw [busy_succ] at hidle
      exact not_not.mp hidle
  | inner hb hs => exact fun hidle => absurd (hs.status ▸ hb) hidle
  | value hb => exact fun hidle => absurd hb hidle
  | key hb => exact fun hidle => absurd hb hidle

theorem Stage.Inv.known (h : s.Inv Q m) (ha : a ≤ m.malloced) {i : Fin 16} {b : Addr}
    (hb : (m.node a).nodes i = .node b) : b ≤ m.malloced := by
  obtain ⟨g, f⟩ := s
  cases f with
  | none =>
      have h : Tcradix.Inv Q m g := h
      exact h.known a ha i b hb
  | some key =>
      obtain ⟨v, -, -, hn, h⟩ := h
      by_cases h0 : a = 0
      · subst h0
        rw [hn] at hb
        cases hb
      · refine h.known a ha i b ?_
        rwa [show (m.store (.onlyVal 0 NULL)).node a = m.node a from Function.update_of_ne h0 _ _]

theorem Stage.Inv.paired (h : s.Inv Q m) (ha : a ≤ m.malloced) (hf : s.filling = none ∨ a ≠ 0)
    (h0 : (m.node a).onlyKey ≠ 0) : (m.node a).onlyVal = NULL ∨ Q (m.node a).onlyKey (m.node a).onlyVal := by
  obtain ⟨g, f⟩ := s
  cases f with
  | none =>
      have h : Tcradix.Inv Q m g := h
      exact h.paired a ha h0
  | some key =>
      obtain ⟨v, -, -, -, h⟩ := h
      have hn : (m.store (.onlyVal 0 NULL)).node a = m.node a := Function.update_of_ne (hf.resolve_left (by simp)) _ _
      have hp := h.paired a ha
      rw [hn] at hp
      exact hp h0

/-- A run from a new structure up to the end of a call. -/
structure Run (Q : Word → ℕ → Prop) (node : Addr → Node) (F : List Event) : Prop where
  path : ∃ g', Path (Fill Q) (tcradixNew node) ⟨.new, none⟩ F ⟨g', none⟩

variable {node : Addr → Node}

theorem sound_new (Q : Word → ℕ → Prop) (node : Addr → Node) : Stage.Sound Q (tcradixNew node) ⟨.new, none⟩ :=
  ⟨(quiet_new (fun _ => true) Q node).toInv, rfl, fun _ => ⟨rfl, (quiet_new (fun _ => true) Q node).fed⟩⟩

/-- A moment of a run. -/
theorem Run.at (h : Run Q node (L ++ L')) : ∃ s g', Path (Fill Q) (tcradixNew node) ⟨.new, none⟩ L s ∧
    s.Sound Q (storeAll (tcradixNew node) L) ∧ Path (Fill Q) (storeAll (tcradixNew node) L) s L' ⟨g', none⟩ := by
  obtain ⟨g', hp⟩ := h.path
  obtain ⟨s, hp₁, hp₂⟩ := hp.split
  exact ⟨s, g', hp₁, hp₁.inv (fun hs h => h.step hs) (sound_new Q node), hp₂⟩

/-- The first use of the root: the last store was to `only_val`, and the next one is to `only_key`. -/
theorem Path.filling (hp : Path (Fill Q) m ⟨g, none⟩ L s) (hs : s.filling = some key) :
    ∃ L₀ v, L = L₀ ++ [.onlyVal 0 v] := by
  rcases List.eq_nil_or_concat L with rfl | ⟨L₀, e, rfl⟩
  · cases hp
    cases hs
  · rw [List.concat_eq_append] at hp ⊢
    obtain ⟨s₁, -, hp⟩ := hp.split
    cases hp with
    | cons h t =>
        cases t
        cases h with
        | value => exact ⟨L₀, _, rfl⟩
        | _ => cases hs

theorem Path.filled {g' : Ghost TOP} (hp : Path (Fill Q) m s L ⟨g', none⟩) (hs : s.filling = some key) :
    ∃ L', L = .onlyKey 0 key :: L' := by
  obtain ⟨g, f⟩ := s
  obtain rfl : f = some key := hs
  cases hp with
  | cons h t =>
      cases h with
      | key => exact ⟨_, rfl⟩

/-! ## The value of a node -/

theorem le_malloced_storeAll (m : Mem) (log : List Event) : m.malloced ≤ (storeAll m log).malloced := by
  induction log generalizing m with
  | nil => exact le_rfl
  | cons e log ih =>
      refine le_trans ?_ (ih (m.store e))
      cases e with
      | zalloc ok =>
          cases ok
          · exact le_rfl
          · exact Nat.le_succ _
      | _ => exact le_rfl

theorem store_onlyVal (ha : a ≤ m.malloced) (he : ∀ v, e ≠ .onlyVal a v) :
    ((m.store e).node a).onlyVal = (m.node a).onlyVal := by
  have hset : ∀ b (f : Node → Node), (f (m.node a)).onlyVal = (m.node a).onlyVal →
      ((m.setNode b f).node a).onlyVal = (m.node a).onlyVal := by
    intro b f hf
    by_cases hb : a = b
    · subst hb
      rw [Mem.setNode_self]
      exact hf
    · rw [Mem.setNode_ne m hb]
  cases e with
  | nodes b i p => exact hset b (fun x => { x with nodes := Function.update x.nodes i p }) rfl
  | onlyKey b w => exact hset b (fun x => { x with onlyKey := w }) rfl
  | onlyVal b v =>
      have hne : a ≠ b := by
        rintro rfl
        exact he v rfl
      exact congrArg Node.onlyVal (Function.update_of_ne hne _ _)
  | nchildren b n => exact hset b (fun x => { x with nchildren := n }) rfl
  | zalloc ok =>
      cases ok with
      | false => rfl
      | true =>
          have hne : a ≠ m.malloced + 1 := Nat.ne_of_lt (Nat.lt_succ_of_le ha)
          exact congrArg Node.onlyVal (Function.update_of_ne hne _ _)
  | _ => rfl

/-- `only_val` is what was stored last, or what it was. -/
theorem onlyVal_storeAll (ha : a ≤ m.malloced) (log : List Event) :
    ((storeAll m log).node a).onlyVal = (m.node a).onlyVal ∨
      ∃ e₁ v e₂, log = e₁ ++ .onlyVal a v :: e₂ ∧ (∀ w, .onlyVal a w ∉ e₂) ∧ ((storeAll m log).node a).onlyVal = v := by
  induction log using List.reverseRecOn with
  | nil => exact Or.inl rfl
  | append_singleton log e ih =>
      rw [storeAll_append]
      by_cases he : ∃ v, e = .onlyVal a v
      · obtain ⟨v, rfl⟩ := he
        refine Or.inr ⟨log, v, [], rfl, by simp, ?_⟩
        simp [Storable.store, Mem.store, Mem.setNode]
      · have hkeep := store_onlyVal (e := e) (ha.trans (le_malloced_storeAll m log)) fun v hv => he ⟨v, hv⟩
        have hsame : ((storeAll (storeAll m log) [e]).node a).onlyVal = ((storeAll m log).node a).onlyVal := hkeep
        rw [hsame]
        refine ih.imp id ?_
        rintro ⟨e₁, v, e₂, rfl, hlast, hv⟩
        refine ⟨e₁, v, e₂ ++ [e], by simp, fun w hw => ?_, hv⟩
        rcases List.mem_append.mp hw with hw | hw
        · exact hlast w hw
        · exact he ⟨w, (List.mem_singleton.mp hw).symm⟩

/-! ## Readers -/

/-- How often `write_status` was poked. -/
def pokes (log : List Event) : ℕ := log.countP fun | .writeStatus _ => true | _ => false

/-- What may not come between the loads of a lookup that begins after the stores `L`, in a run with the stores `F`. -/
structure Undisturbed (node : Addr → Node) (F L : List Event) (key : Word) (s : List (Act Loc Event)) : Prop where
  /-- the value that is loaded was stored before `only_key` was loaded, or while that was the key -/
  value : ∀ s₁ a es s₂, s = s₁ ++ .load (.onlyKey a) :: (es.map .store ++ .load (.onlyVal a) :: s₂) →
    ∀ e₁ v e₂, es = e₁ ++ .onlyVal a v :: e₂ → (∀ w, .onlyVal a w ∉ e₂) → v ≠ NULL →
      ((storeAll (tcradixNew node) (L ++ stores s₁ ++ e₁)).node a).onlyKey = key
  /-- no other key's insert is between its first stores to the root, which has the mark as its key -/
  root : key = TOP_EMPTY → ∀ s₁ es s₂, s = s₁ ++ .load (.onlyKey 0) :: (es.map .store ++ .load (.onlyVal 0) :: s₂) →
    ∀ e₁ e₂ L₁ v k L₂, es = e₁ ++ e₂ → L ++ stores s₁ ++ e₁ = L₁ ++ [.onlyVal 0 v] →
      F = L₁ ++ .onlyVal 0 v :: .onlyKey 0 k :: L₂ → k = TOP_EMPTY
  /-- `write_status` does not wrap around in one round -/
  rounds : ∀ s₁ t s₂, s = s₁ ++ .load .writeStatus :: (t ++ .load .writeStatus :: s₂) → .load .writeStatus ∉ t →
    pokes (stores t) < 2 ^ 64

theorem Undisturbed.left {t : List (Act Loc Event)} {s : List (Act Loc Event)} (h : Undisturbed node F L key (s ++ t)) :
    Undisturbed node F L key s where
  value s₁ a es s₂ hs := h.value s₁ a es (s₂ ++ t) (by simp [hs])
  root hk s₁ es s₂ hs := h.root hk s₁ es (s₂ ++ t) (by simp [hs])
  rounds s₁ u s₂ hs := h.rounds s₁ u (s₂ ++ t) (by simp [hs])

theorem Undisturbed.right {t : List (Act Loc Event)} {s : List (Act Loc Event)} (h : Undisturbed node F L key (s ++ t)) :
    Undisturbed node F (L ++ stores s) key t where
  value s₁ a es s₂ hs := by
    have hv := h.value (s ++ s₁) a es s₂ (by simp [hs])
    rwa [stores_append, ← List.append_assoc] at hv
  root hk s₁ es s₂ hs := by
    have hr := h.root hk (s ++ s₁) es s₂ (by simp [hs])
    rwa [stores_append, ← List.append_assoc] at hr
  rounds s₁ u s₂ hs := h.rounds (s ++ s₁) u s₂ (by simp [hs])

/-- A value that is loaded after `only_key` was the key. `L` are the stores before the load of `only_key`, `es` those
between the loads. -/
theorem Run.found {es : List Event} (h : Run Q node (L ++ es ++ L'))
    (ha : a ≤ (storeAll (tcradixNew node) L).malloced) (h0 : key ≠ 0)
    (hk : ((storeAll (tcradixNew node) L).node a).onlyKey = key)
    (hvalue : ∀ e₁ v e₂, es = e₁ ++ .onlyVal a v :: e₂ → (∀ w, .onlyVal a w ∉ e₂) → v ≠ NULL →
      ((storeAll (tcradixNew node) (L ++ e₁)).node a).onlyKey = key)
    (hroot : key = TOP_EMPTY → a = 0 → ∀ e₁ e₂ L₁ v k L₂, es = e₁ ++ e₂ → L ++ e₁ = L₁ ++ [.onlyVal 0 v] →
      L ++ es ++ L' = L₁ ++ .onlyVal 0 v :: .onlyKey 0 k :: L₂ → k = TOP_EMPTY) :
    ((storeAll (tcradixNew node) (L ++ es)).node a).onlyVal = NULL ∨
      Q key ((storeAll (tcradixNew node) (L ++ es)).node a).onlyVal := by
  rw [storeAll_append]
  rcases onlyVal_storeAll ha es with hsame | ⟨e₁, v, e₂, rfl, hlast, hv⟩
  · -- it was there when the key was loaded
    rw [hsame]
    rw [List.append_assoc] at h
    obtain ⟨s, g', hp, hsound, hp'⟩ := h.at
    by_cases hf : s.filling = none ∨ a ≠ 0
    · have hpaired := hsound.inv.paired ha hf (hk ▸ h0)
      rwa [hk] at hpaired
    · obtain ⟨hsome, ha0⟩ := not_or.mp hf
      obtain rfl : a = 0 := not_not.mp ha0
      obtain ⟨k', hfill⟩ := Option.ne_none_iff_exists'.mp hsome
      obtain ⟨L₀, v₀, rfl⟩ := Path.filling hp hfill
      obtain ⟨L₂, hnext⟩ := Path.filled hp' hfill
      obtain ⟨g, f⟩ := s
      obtain rfl : f = some k' := hfill
      obtain ⟨v, hq, -, hn, -⟩ := hsound.inv
      rw [hn] at hk ⊢
      obtain rfl : TOP_EMPTY = key := hk
      obtain rfl : k' = TOP_EMPTY := by
        refine hroot rfl rfl [] es L₀ v₀ k' L₂ rfl (by simp) ?_
        rw [List.append_assoc, hnext]
        simp
      exact Or.inr hq
  · by_cases hnull : v = NULL
    · exact Or.inl (hv.trans hnull)
    right
    rw [hv]
    have hkey := hvalue e₁ v e₂ rfl hlast hnull
    have hF : L ++ (e₁ ++ .onlyVal a v :: e₂) ++ L' = (L ++ e₁) ++ (.onlyVal a v :: (e₂ ++ L')) := by simp
    rw [hF] at h
    obtain ⟨s, g', -, hsound, hp⟩ := h.at
    have ha₁ : a ≤ (storeAll (tcradixNew node) (L ++ e₁)).malloced := by
      rw [storeAll_append]
      exact ha.trans (le_malloced_storeAll _ _)
    generalize storeAll (tcradixNew node) (L ++ e₁) = m at hp hsound hkey ha₁
    cases hp with
    | cons hs t =>
        cases hs with
        | inner _ hs =>
            have hpaired := hs.inv.paired a ha₁
            simp only [Mem.store, Mem.setNode_self, hkey] at hpaired
            exact (hpaired h0).resolve_left hnull
        | @value pool held k' v' _ _ hq =>
            obtain ⟨L₂, hnext⟩ := Path.filled t rfl
            have hinv : Tcradix.Inv Q m ⟨mark v', pool, held⟩ := hsound.inv
            rw [hinv.rep.1] at hkey
            obtain rfl : TOP_EMPTY = key := hkey
            obtain rfl : k' = TOP_EMPTY := by
              refine hroot rfl rfl (e₁ ++ [.onlyVal 0 v]) e₂ (L ++ e₁) v k' L₂ (by simp) (by simp) ?_
              rw [hF, hnext]
            exact hq

/-! ## The walk -/

section

variable {s : List (Act Loc Event)} {l : ℕ} {new : Mem}

theorem slotWalk_ret {p : Ptr} {v : ℕ} (h : slotWalk p = .ret v) : v = NULL := by
  unfold slotWalk at h
  split at h
  · cases h
    rfl
  · cases h

theorem slotWalk_next {p p' : Ptr} (h : slotWalk p = .next p') : p = p' := by
  unfold slotWalk at h
  split at h
  · cases h
  · cases h
    rfl

/-- One level: what is returned belongs to the key, and what the reader goes on to is a node. -/
theorem Level.paired {w : Walk} (hl : Level key (l + 1) a (storeAll (tcradixNew node) L) s w)
    (h : Run Q node (L ++ stores s ++ L')) (hu : Undisturbed node (L ++ stores s ++ L') L key s)
    (ha : a ≤ (storeAll (tcradixNew node) L).malloced) :
    (∀ v, w = .ret v → v = NULL ∨ Q key v) ∧
      ∀ b, w = .next (.node b) → b ≤ (storeAll (tcradixNew node) (L ++ stores s)).malloced := by
  cases hl with
  | @found es es' s h0 hk =>
      simp only [stores_append, Prog.stores_map_store, stores_load] at h hu
      simp only [← storeAll_append] at hk ⊢
      refine ⟨fun v hv => ?_, fun b hb => by cases hb⟩
      cases hv
      have hF : L ++ (es ++ (es' ++ stores s)) ++ L' = L ++ es ++ es' ++ (stores s ++ L') := by simp
      rw [hF] at h hu
      have ha₁ : a ≤ (storeAll (tcradixNew node) (L ++ es)).malloced := by
        rw [storeAll_append]
        exact ha.trans (le_malloced_storeAll _ _)
      refine h.found ha₁ h0 hk (fun e₁ v e₂ hes => ?_) fun hkey ha0 e₁ e₂ L₁ v k L₂ hes hL => ?_
      · have hv := hu.value (es.map .store) a es' s rfl e₁ v e₂ hes
        rwa [Prog.stores_map_store] at hv
      · subst ha0
        have hr := hu.root hkey (es.map .store) es' s rfl e₁ e₂ L₁ v k L₂ hes
        rw [Prog.stores_map_store] at hr
        exact hr hL
  | other h0 hk =>
      refine ⟨fun v hv => ?_, fun b hb => by cases hb⟩
      cases hv
      exact Or.inl rfl
  | @slot es es' s h0 =>
      refine ⟨fun v hv => Or.inl (slotWalk_ret hv), fun b hb => ?_⟩
      have hslot := slotWalk_next hb
      simp only [stores_append, Prog.stores_map_store, stores_load] at h ⊢
      simp only [← storeAll_append] at hslot
      have hF : L ++ (es ++ (es' ++ stores s)) ++ L' = L ++ es ++ es' ++ (stores s ++ L') := by simp
      have hF' : L ++ (es ++ (es' ++ stores s)) = L ++ es ++ es' ++ stores s := by simp
      rw [hF] at h
      obtain ⟨s₁, g', -, hsound, -⟩ := h.at
      rw [hF', storeAll_append]
      refine (hsound.inv.known ?_ hslot).trans (le_malloced_storeAll _ _)
      rw [List.append_assoc, storeAll_append]
      exact ha.trans (le_malloced_storeAll _ _)

/-- Where it has the same number again and did not wrap around, nothing was stored, unless somebody was at work. -/
theorem Path.status {s' : Stage} {s : Stage} (hp : Path (Fill Q) m s log s') : ∃ n ≤ pokes log,
    (storeAll m log).writeStatus = m.writeStatus + BitVec.ofNat 64 n ∧ (n = 0 → ¬ busy m.writeStatus → log = []) := by
  induction hp with
  | nil m s => exact ⟨0, Nat.zero_le _, by simp, fun _ _ => rfl⟩
  | @cons m s s₁ s₂ e log hs _ ih =>
      obtain ⟨n, hn, hw, -⟩ := ih
      have hle : pokes log ≤ pokes (e :: log) := (List.sublist_cons_self e log).countP_le
      have hinner : busy m.writeStatus → (m.store e).writeStatus = m.writeStatus → ∃ n ≤ pokes (e :: log),
          (storeAll m (e :: log)).writeStatus = m.writeStatus + BitVec.ofNat 64 n ∧
            (n = 0 → ¬ busy m.writeStatus → e :: log = []) := fun hb he =>
        ⟨n, hn.trans hle, hw.trans (congrArg (· + _) he), fun _ hidle => absurd hb hidle⟩
      cases hs with
      | poke =>
          refine ⟨n + 1, ?_, hw.trans ?_, fun h0 => absurd h0 (Nat.succ_ne_zero n)⟩
          · rw [pokes, List.countP_cons_of_pos rfl]
            exact Nat.succ_le_succ hn
          · show m.writeStatus + 1 + _ = _
            rw [BitVec.add_assoc, Nat.add_comm n 1, BitVec.ofNat_add]
            rfl
      | inner hb hs => exact hinner hb hs.status
      | value hb => exact hinner hb rfl
      | key hb => exact hinner hb rfl

theorem Undisturbed.cut (h : Undisturbed node (F ++ L') L key s) : Undisturbed node F L key s where
  value := h.value
  root := fun hk s₁ es s₂ hs e₁ e₂ L₁ v k L₂ hes hL hF =>
    h.root hk s₁ es s₂ hs e₁ e₂ L₁ v k (L₂ ++ L') hes hL (by rw [hF]; simp)
  rounds := h.rounds

end

/-! ## Runs -/

/-- The first node is taken out of the tree with key 5, and used again for another key. -/
def recycleLog : List Event :=
  [.writeStatus 5, .onlyKey 1 0, .onlyKey 2 0, .nodes 1 0 .null, .onlyVal 2 NULL, .nodes 2 0 .null,
    .deletedNode (.node 2), .nchildren 1 0, .nodes 0 0 .null, .onlyVal 1 NULL, .nodes 1 0 (.node 2),
    .deletedNode (.node 1), .nchildren 0 1, .writeStatus 6, .writeStatus 7, .deletedNode (.node 2), .nodes 1 0 .null,
    .onlyKey 1 (2 * far), .onlyVal 1 30, .nchildren 1 0, .nodes 0 2 (.node 1), .nchildren 0 2, .writeStatus 8]

/-- A reader of the all-ones key that has loaded the mark of a new root. -/
def marked : List (Act Loc Event) :=
  .load .writeStatus :: .load (.onlyKey 0) :: .store (.writeStatus 1) :: .store (.onlyVal 0 7) :: [.load (.onlyVal 0)]

/-- It returns the value of the key that is inserted first. -/
theorem tcradix_get_marked :
    Writes (fun _ => true) blank [.insert 5 7] ([] ++ (stores marked ++ (singleLog 5 7).drop 2)) ∧
      Prog.Exec Mem.load blank marked (tcradixGet TOP_EMPTY 0) (.ok 7) ∧
      ¬ (7 = NULL ∨ WriteBegun (fun _ => true) blank [.insert 5 7] ([] ++ stores marked) (.insert TOP_EMPTY 7)) := by
  refine ⟨single_writes, Prog.exec_of_run rfl, ?_⟩
  rintro (h | h)
  · cases h
  · have hm := h.mem
    simp at hm
    revert hm
    decide

end Ptok.Tcradix
