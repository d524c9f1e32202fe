import Ptok.Tcradix.Lemmas.Root

/-!
# tcradix as a map

While malloc does not fail, tcradix is a map in which the last insert of a key wins.
-/

namespace Ptok.Tcradix

open Lib

/-- A call of a writer. -/
inductive Write
  | insert (key : Word) (value : ℕ)
  | remove (key : Word)

def Write.key : Write → Word
  | .insert key _ => key
  | .remove key => key

def Write.op : Write → Op
  | .insert key value => .insert key value
  | .remove key => .remove key

def write (ok : ℕ → Bool) : Write → W Ret
  | .insert key value => do
    let e ← tcradixInsert ok key value
    pure (.errno e)
  | .remove key => do
    let v ← tcradixRemove key
    pure (.value v)

variable {l : ℕ} {Q : Word → ℕ → Prop} {m m' : Mem} {g : Ghost TOP} {ok : ℕ → Bool} {ops : List Op} {key : Word}

/-! ## tcradix_get -/

/-- What the walk ends with stands for a value. -/
inductive Walk.Gives (v : ℕ) : Walk → Prop
  | ret : Gives v (.ret v)
  | next {p : Ptr} (h : toVoid p = v) : Gives v (.next p)

theorem getSlot_eval (key : Word) (l : ℕ) (a : Addr) (m : Mem) : (getSlot key l a).eval m.load =
    .ok (if (m.node a).nodes (sl key l) = .null then .ret NULL else .next ((m.node a).nodes (sl key l))) := by
  show (if (m.node a).nodes (sl key l) = .null then _ else _ : R Walk).eval m.load = _
  split <;> rfl

theorem getLevels_eval {t : T l} {a : Addr} (hrep : Rep m t) (ha : t.ptr = .node a) (key : Word) :
    ∃ w, (getLevels key l a).eval m.load = .ok w ∧ w.Gives (t.get key) := by
  induction t generalizing a with
  | nil => cases ha
  | last b h w =>
      cases ha
      have hn : m.node b = h.node w := hrep
      refine ⟨_, getSlot_eval key 0 b m, ?_⟩
      rw [hn]
      split
      · rename_i hnull
        rw [T.get_last, show w (sl key 0) = .null from hnull]
        exact .ret
      · exact .next rfl
  | @node l b h c ih =>
      cases ha
      have hkey : m.load (.onlyKey b) = h.onlyKey := congrArg Node.onlyKey hrep.1
      have hval : m.load (.onlyVal b) = h.onlyVal := congrArg Node.onlyVal hrep.1
      have hslot : (m.node b).nodes (sl key (l + 1)) = (c (sl key (l + 1))).ptr := by
        rw [hrep.1, Hdr.node_nodes, T.ptrs_apply]
      by_cases h0 : h.onlyKey = 0
      · have hget : (GETL key (l + 1) b).eval m.load = (getSlot key (l + 1) b).eval m.load := by
          rw [GETL, if_neg (Nat.succ_ne_zero l), Prog.eval_get_bind, if_neg (not_not.mpr (hkey.trans h0))]
        rw [getSlot_eval, hslot] at hget
        rw [T.get_open h0]
        rcases (c (sl key (l + 1))).ptr_cases with hnil | ⟨d, hd⟩
        · rw [hnil, T.ptr_nil, if_pos rfl] at hget
          rw [hnil, getLevels, Prog.eval_bind_ok hget]
          exact ⟨_, rfl, .ret⟩
        · rw [hd, if_neg (by simp)] at hget
          rw [getLevels, Prog.eval_bind_ok hget]
          exact ih _ (hrep.2 _) hd
      · have hget : (GETL key (l + 1) b).eval m.load = .ok (.ret ((T.node b h c).get key)) := by
          rw [GETL, if_neg (Nat.succ_ne_zero l), Prog.eval_get_bind, if_pos (hkey ▸ h0), hkey, T.get_packed h0]
          split
          · rw [Prog.eval_get_bind, hval]
            rfl
          · rfl
        rw [getLevels, Prog.eval_bind_ok hget]
        exact ⟨_, rfl, .ret⟩

theorem tcradixGet_eval (h : Quiet ok Q m g) (key : Word) (fuel : ℕ) :
    (tcradixGet key fuel).eval m.load = .ok (g.tree.get key) := by
  obtain ⟨w, hw, hg⟩ := getLevels_eval h.rep h.ptr key
  have hidle : ¬ busy (m.load .writeStatus) := h.idle
  rw [tcradixGet, Prog.eval_get_bind, if_neg hidle, Prog.eval_bind_ok hw]
  cases hg with
  | ret => rfl
  | next hp =>
      rw [Prog.eval_get_bind, if_neg (not_not.mpr rfl), hp]
      rfl

/-! ## Calls one after another -/

/-- The keys in a tree and their values. -/
def T.map (t : T TOP) : KMap := fun k => if t.get k = NULL then none else some (t.get k)

theorem T.map_val (t : T TOP) (k : Word) : t.map.val k = t.get k := by
  unfold KMap.val T.map
  split <;> simp_all

theorem T.map_congr {t t' : T TOP} {k : Word} (h : t'.get k = t.get k) : t'.map k = t.map k := by
  unfold T.map
  rw [h]

theorem T.map_bind {t t' : T TOP} {value : ℕ} (hv : value ≠ NULL) (hkey : t'.get key = value)
    (h : ∀ k ≠ key, t'.get k = t.get k) : t'.map = t.map.bind key value := by
  funext k
  by_cases hk : k = key
  · subst hk
    rw [KMap.bind_self, T.map, hkey, if_neg hv]
  · rw [KMap.bind_of_ne _ _ hk, T.map_congr (h k hk)]

theorem T.map_unbind {t t' : T TOP} (hkey : t'.get key = NULL) (h : ∀ k ≠ key, t'.get k = t.get k) :
    t'.map = t.map.unbind key := by
  funext k
  by_cases hk : k = key
  · subst hk
    rw [KMap.unbind_self, T.map, hkey, if_pos rfl]
  · rw [KMap.unbind_of_ne _ hk, T.map_congr (h k hk)]

/-- What a map answers in which the last insert of a key wins, and what it is afterwards. `NULL` is no value. -/
def answer (f : KMap) : Op → Ret × KMap
  | .insert key value => (.errno .ok, if value = NULL then f else f.bind key value)
  | .remove key => (.value (f.val key), f.unbind key)
  | .get key => (.value (f.val key), f)

def Ghost.new : Ghost TOP := ⟨mark NULL, [], 0⟩

theorem quiet_new (ok : ℕ → Bool) (Q : Word → ℕ → Prop) (node : Addr → Node) : Quiet ok Q (tcradixNew node) .new where
  known := by
    intro a ha i b hb
    obtain rfl : a = 0 := Nat.le_zero.mp ha
    simp [tcradixNew, Node.zero] at hb
  paired := by
    intro a ha _
    obtain rfl : a = 0 := Nat.le_zero.mp ha
    left
    simp [tcradixNew, Node.zero]
  rep := by
    constructor
    · show Function.update node 0 _ 0 = _
      rw [Function.update_self]
      rfl
    · exact fun _ => trivial
  pool := rfl
  owned := by simp [Ghost.owned, Ghost.new, mark, tcradixNew]
  held := rfl
  ptr := rfl
  whole := by simp [Ghost.owned, Ghost.new, mark, tcradixNew]
  idle := by
    show ¬ busy 0
    decide
  root := Or.inr rfl
  fed k := Or.inl (mark_get_null k)
  sure _ v hv := by
    cases hv
    rfl

/-- What a call does to the tree. -/
inductive Effect (t : T TOP) (ok : ℕ → Bool) : Op → Ret → T TOP → Prop
  | null {key : Word} : Effect t ok (.insert key NULL) (.errno .ok) t
  | insert {key : Word} {value : ℕ} {e : Errno} {t₀ t' : T TOP} (hv : value ≠ NULL) (hs : Started key value t t₀)
      (hins : Inserted 0 key value e t₀ t') (hall : (∀ i, ok i = true) → e = .ok) :
      Effect t ok (.insert key value) (.errno e) t'
  | remove {key : Word} {t' : T TOP} (hgone : t'.get key = NULL) (hkeep : ∀ k ≠ key, t'.get k = t.get k) :
      Effect t ok (.remove key) (.value (t.get key)) t'
  | get {key : Word} : Effect t ok (.get key) (.value (t.get key)) t

/-- The stores of a call are steps, and the call returns. -/
theorem Quiet.write_does {A : Word → ℕ → Prop} (h : Quiet ok Q m g) (w : Write)
    (hq : ∀ key value, w = .insert key value → Q key value) (hA : ∀ v, A w.key v → w = .insert w.key v)
    (hfail : (∀ i, ok i = true) ∨ ∀ k v, ¬ A k v) : ∃ r log g', Does (Stage.Step A Q) (write ok w) m ⟨g, none⟩ r log
      ⟨g', none⟩ ∧ Quiet ok Q (storeAll m log) g' ∧ Effect g.tree ok w.op r g'.tree := by
  cases w with
  | insert key value =>
      by_cases hv : value = NULL
      · subst hv
        exact ⟨_, [], g, .pure _ _ _, h, .null⟩
      · obtain ⟨e, log, g', t, hdo, hquiet, hstart, hins, hall⟩ := tcradixInsert_spec h hv (hq key value rfl)
          (fun v hk => (Write.insert.inj (hA v hk)).2.symm) hfail
        have hdo : Does _ (write ok (.insert key value)) m _ (.errno e) _ _ := hdo.bind (.pure _ _ _)
        rw [List.append_nil] at hdo
        exact ⟨_, log, g', hdo, hquiet, .insert hv hstart hins hall⟩
  | remove key =>
      obtain ⟨log, g', hdo, hquiet, hgone, hkeep⟩ := tcradixRemove_spec h key fun v hk => by cases hA v hk
      have hdo : Does _ (write ok (.remove key)) m _ (.value _) _ _ := hdo.bind (.pure _ _ _)
      rw [List.append_nil] at hdo
      exact ⟨_, log, g', hdo, hquiet, .remove hgone hkeep⟩

theorem call_write (ok : ℕ → Bool) (w : Write) (m : Mem) : call ok w.op m = fun _ => (write ok w).exec m := by
  funext fuel
  cases w with
  | insert key value =>
      simp only [call, Write.op, write, Wr.exec, Wr.bind_apply]
      cases tcradixInsert ok key value m <;> simp [Except.bind, Except.map]
  | remove key =>
      simp only [call, Write.op, write, Wr.exec, Wr.bind_apply]
      cases tcradixRemove key m <;> simp [Except.bind, Except.map]

theorem call_get (ok : ℕ → Bool) (key : Word) (m : Mem) :
    call ok (.get key) m = fun fuel => ((tcradixGet key fuel).eval m.load).map fun v => (Ret.value v, m) := by
  funext fuel
  show (do let v ← (tcradixGet key fuel).eval m.load; pure (Ret.value v, m)) = _
  cases (tcradixGet key fuel).eval m.load <;> rfl

/-- Every call returns. -/
theorem Quiet.call_returns (h : Quiet ok Q m g) (op : Op) (hq : ∀ key value, op = .insert key value → Q key value) :
    ∃ r m' g', Returns (call ok op m) (r, m') ∧ Quiet ok Q m' g' ∧ Effect g.tree ok op r g'.tree := by
  have hwrite : ∀ w : Write, w.op = op →
      ∃ r m' g', Returns (call ok op m) (r, m') ∧ Quiet ok Q m' g' ∧ Effect g.tree ok op r g'.tree := by
    rintro w rfl
    obtain ⟨r, log, g', hdo, hquiet, he⟩ := h.write_does (A := fun _ _ => False) w
      (fun key value hw => hq key value (hw ▸ rfl)) (fun _ hf => hf.elim) (Or.inr fun _ _ hf => hf)
    rw [call_write]
    exact ⟨r, _, g', ⟨0, fun _ _ => Wr.exec_of_apply hdo.run⟩, hquiet, he⟩
  cases op with
  | insert key value => exact hwrite (.insert key value) rfl
  | remove key => exact hwrite (.remove key) rfl
  | get key =>
      rw [call_get]
      exact ⟨_, m, g, Returns.map ⟨0, fun fuel _ => tcradixGet_eval h key fuel⟩ _, h, .get⟩

/-- The memory after some calls, whatever malloc does. -/
inductive Reached (ok : ℕ → Bool) : List Op → Mem → Prop
  | new (node : Addr → Node) : Reached ok [] (tcradixNew node)
  | call {ops : List Op} {m m' : Mem} {op : Op} {r : Ret} (h : Reached ok ops m) (hr : Returns (call ok op m) (r, m')) :
      Reached ok (ops ++ [op]) m'

/-- `Q` is what the inserts promised. -/
theorem Reached.quiet (h : Reached ok ops m) (hq : ∀ key value, .insert key value ∈ ops → Q key value) :
    ∃ g, Quiet ok Q m g := by
  induction h with
  | new node => exact ⟨.new, quiet_new ok Q node⟩
  | @call ops m m' op r _ hr ih =>
      obtain ⟨g, hg⟩ := ih fun key value hm => hq key value (List.mem_append_left _ hm)
      obtain ⟨r', m'', g', hr', hg', -⟩ := hg.call_returns op fun key value he => hq key value (by simp [he])
      cases hr.unique hr'
      exact ⟨g', hg'⟩

/-- Calls of writers one after another, and the log of their stores. -/
abbrev Writes (ok : ℕ → Bool) : Mem → List Write → List Event → Prop := Runs (fun _ _ => True) fun w _ => write ok w

/-- By the time of these stores the call has begun. -/
abbrev WriteBegun (ok : ℕ → Bool) : Mem → List Write → List Event → Write → Prop :=
  Begun (fun _ _ => True) fun w _ => write ok w

/-- What has been stored so far are steps, and the call at work can be finished. -/
theorem Quiet.path {A : Word → ℕ → Prop} {ws : List Write} {l l' : List Event} (h : Quiet ok Q m g)
    (hw : Writes ok m ws (l ++ l')) (hq : ∀ key value, WriteBegun ok m ws l (.insert key value) → Q key value)
    (hA : ∀ w v, WriteBegun ok m ws l w → A w.key v → w = .insert w.key v)
    (hfail : (∀ i, ok i = true) ∨ ∀ k v, ¬ A k v) : ∃ s l₁ l₂ g', l' = l₁ ++ l₂ ∧
      Path (Stage.Step A Q) m ⟨g, none⟩ l s ∧ Path (Stage.Step A Q) (storeAll m l) s l₁ ⟨g', none⟩ ∧
      Quiet ok Q (storeAll m (l ++ l₁)) g' := by
  obtain ⟨s, l₁, l₂, ⟨g', f⟩, hl, hp, hp', rfl, hq'⟩ := hw.path (P := WriteBegun ok m ws l) (S := Stage.Step A Q)
    (I := fun m s => s.filling = none ∧ Quiet ok Q m s.ghost) (fun {m s w} hs _ hbegun => by
      obtain ⟨g, f⟩ := s
      obtain ⟨rfl, hs⟩ := hs
      obtain ⟨r, log, g', hdo, hquiet, -⟩ := hs.write_does w (fun key value hw => hq key value (hw ▸ hbegun))
        (fun v => hA w v hbegun) hfail
      exact ⟨r, log, ⟨g', none⟩, ⟨0, fun _ _ => hdo.run⟩, hdo.path, rfl, hquiet⟩) (fun _ hb => hb)
    (g := ⟨g, none⟩) ⟨rfl, h⟩
  exact ⟨s, l₁, l₂, g', hl, hp, hp', hq'⟩

/-- What is found after an insert that did not fail. -/
theorem Inserted.map_eq {t t₀ t' : T TOP} {value : ℕ} (hv : value ≠ NULL) (hs : Started key value t t₀)
    (h : Inserted 0 key value .ok t₀ t') (hm : ∀ v, t = mark v → v = NULL) : t'.map = t.map.bind key value := by
  refine T.map_bind hv (h.self.trans (if_pos (Or.inl rfl))) fun k hk => ?_
  rw [h.keep k hk (under_top k)]
  cases hs with
  | mark v =>
      obtain rfl := hm v rfl
      rw [mark_get_null]
      by_cases h0 : key = 0
      · rw [T.get_open h0, T.get_nil]
      · exact (T.get_packed h0).trans (if_neg hk.symm)
  | same => rfl

theorem Effect.answer {t t' : T TOP} {op : Op} {r : Ret} (h : Effect t ok op r t') (hall : ∀ i, ok i = true)
    (hm : ∀ v, t = mark v → v = NULL) : Tcradix.answer t.map op = (r, t'.map) := by
  cases h with
  | null => rfl
  | insert hv hs hins he =>
      obtain rfl := he hall
      rw [Tcradix.answer, if_neg hv, hins.map_eq hv hs hm]
  | remove hgone hkeep => rw [Tcradix.answer, T.map_val, T.map_unbind hgone hkeep]
  | get => rw [Tcradix.answer, T.map_val]

/-- The calls return one after the other, and each answers what the map answers. -/
inductive Conforms (ok : ℕ → Bool) : Mem → KMap → List Op → Prop
  | nil (m : Mem) (f : KMap) : Conforms ok m f []
  | cons {m m' : Mem} {f f' : KMap} {op : Op} {ops : List Op} {r : Ret} (hr : Returns (call ok op m) (r, m'))
      (ha : answer f op = (r, f')) (h : Conforms ok m' f' ops) : Conforms ok m f (op :: ops)

theorem Quiet.conforms (h : Quiet ok (fun _ _ => True) m g) (hall : ∀ i, ok i = true) (ops : List Op) :
    Conforms ok m g.tree.map ops := by
  induction ops generalizing m g with
  | nil => exact .nil m _
  | cons op ops ih =>
      obtain ⟨r, m', g', hr, hq, he⟩ := h.call_returns op fun _ _ _ => trivial
      exact .cons hr (he.answer hall (h.sure hall)) (ih hq)

/-- Without allocation failures tcradix is a map in which the last insert wins, on every history. -/
theorem tcradix_conforms (node : Addr → Node) (ops : List Op) :
    Conforms (fun _ => true) (tcradixNew node) .empty ops := by
  have h := (quiet_new (fun _ => true) (fun _ _ => True) node).conforms (fun _ => rfl) ops
  have hmap : Ghost.new.tree.map = .empty := by
    funext k
    exact if_pos (mark_get_null k)
  rwa [hmap] at h

end Ptok.Tcradix
