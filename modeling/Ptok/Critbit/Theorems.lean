import Ptok.Critbit.Lemmas.Remove

/-!
# critbit as a map

`critbit_insert` has no branch for a key that is there already. As long as it is called for absent keys only, critbit is
a partial map.
-/

namespace Ptok.Critbit

open Lib

variable {m m' : Mem} {g : Ghost} {ok : ℕ → Bool}

/-! ## critbit_get -/

/-- The dive ends at the leaf where the walk along the key ends. -/
theorem dive_eval (key : Word) {t : T} {n : Addr} {b fuel : ℕ} (h : Rep m.cell n t) (hwf : bits.WF t b) (hne : t ≠ .nil)
    (hf : t.height < fuel) : ∃ k, Tree.focus (Coding.along bits key) t = .leaf k (m.leafAt k) ∧ k ≠ 0 ∧
      (dive key fuel n).eval m.load = .ok k := by
  induction t generalizing n b fuel with
  | nil => exact absurd rfl hne
  | leaf q l =>
      obtain ⟨rfl, h0, hb, rfl⟩ := rep_leaf.mp h
      obtain ⟨fuel, rfl⟩ := Nat.exists_eq_succ_of_ne_zero (by omega : fuel ≠ 0)
      refine ⟨q, rfl, h0, ?_⟩
      rw [dive, if_neg h0, Prog.eval_get_bind]
      have hbit : ¬ m.load (.bit q) ≠ 0 := not_not.mpr hb
      rw [if_neg hbit]
      rfl
  | node q hdr c ih =>
      obtain ⟨rfl, h0, hb, rfl, hc⟩ := rep_node.mp h
      obtain ⟨fuel, rfl⟩ := Nat.exists_eq_succ_of_ne_zero (by omega : fuel ≠ 0)
      have hdir : dirOf (m.load (.bit q) &&& key) = bits.dig key (bits.pos (m.hdr q)) := dirOf_bit hwf.fits.1 key
      have hlt := Tree.height_child_lt q (m.hdr q) c (bits.dig key (bits.pos (m.hdr q)))
      obtain ⟨k, hfoc, hk, hd⟩ := ih (bits.dig key (bits.pos (m.hdr q))) (hc _)
        ⟨hwf.fits.2.2.2.2 _, hwf.branching.2 _⟩ (child_ne_nil hwf.branching _) (by omega : _ < fuel)
      refine ⟨k, hfoc, hk, ?_⟩
      have hbit : m.load (.bit q) ≠ 0 := hb
      rw [dive, if_neg h0, Prog.eval_get_bind, if_pos hbit, Prog.eval_get_bind, Prog.eval_get_bind, hdir]
      exact hd

theorem critbitGet_eval {t : T} (hrep : Rep m.cell m.root t) (hwf : bits.WF t 0) (key : Word) {fuel : ℕ}
    (hf : t.height < fuel) : (critbitGet key fuel).eval m.load = .ok (t.map.val key) := by
  rw [critbitGet, Prog.eval_get_bind]
  by_cases hempty : m.load .root = 0
  · have hnil := (rep_zero_iff hrep).mp hempty
    rw [if_pos hempty, hnil]
    rfl
  · have hne : t ≠ .nil := fun hn => hempty ((rep_zero_iff hrep).mpr hn)
    obtain ⟨k, hal, -, hd⟩ := dive_eval key hrep hwf hne hf
    have hm := map_of_along hal
    have hd : (dive key fuel (m.load .root)).eval m.load = .ok k := hd
    rw [if_neg hempty, Prog.eval_bind_ok hd, Prog.eval_get_bind]
    by_cases hk : m.load (.path k) = key
    · rw [if_pos hk, KMap.val, hm.trans (if_pos hk)]
      rfl
    · rw [if_neg hk, KMap.val, hm.trans (if_neg hk)]
      rfl

/-! ## Calls one after another -/

/-- What a call did to the map, by its result. -/
def effect (f : KMap) : Op → Ret → KMap
  | .insert key value, .errno .ok => f.bind key value
  | .remove key, _ => f.unbind key
  | _, _ => f

/-- An insert is of an absent key. -/
def Op.Absent (f : KMap) : Op → Prop
  | .insert key _ => f key = none
  | _ => True

/-- The state and the map of the history after a sequence of calls on a new structure, all of which returned. -/
inductive Reached (ok : ℕ → Bool) : List Op → Mem → KMap → Prop
  | new (node : Addr → Node) : Reached ok [] (critbitNew node) .empty
  | call {ops : List Op} {m m' : Mem} {f : KMap} {op : Op} {r : Ret} (h : Reached ok ops m f) (habs : op.Absent f)
      (hr : Returns (call ok op m) (r, m')) : Reached ok (ops ++ [op]) m' (effect f op r)

/-- The answers of a partial map, and what it is afterwards; `b` says whether an allocation would succeed. -/
inductive Answers (f : KMap) (b : Bool) : Op → Ret → KMap → Prop
  | insert {key : Word} {value : ℕ} {e : Errno} {f' : KMap} (h : Inserted f key value b e f') :
      Answers f b (.insert key value) (.errno e) f'
  | remove {key : Word} : Answers f b (.remove key) (.value (f.val key)) (f.unbind key)
  | get {key : Word} : Answers f b (.get key) (.value (f.val key)) f

theorem Answers.effect_eq {f f' : KMap} {b : Bool} {op : Op} {r : Ret} (h : Answers f b op r f') : effect f op r = f' := by
  cases h with
  | insert h => cases h <;> rfl
  | remove => rfl
  | get => rfl

def Ghost.new : Ghost := ⟨.nil, [], 0, 0, 0⟩

theorem quiet_new (node : Addr → Node) : Quiet (critbitNew node) .new where
  leaves := rfl
  nodes := Multiset.nodup_zero
  inner := by simp [Ghost.new]
  rep := rfl
  wf := ⟨trivial, trivial⟩
  list := rfl
  leafBit := by simp [leafHalves, critbitNew]
  closed := by
    rintro a ⟨hl | ⟨i, hi, -⟩, -, -⟩
    · simp [leafHalves, critbitNew] at hl
    · exact absurd hi (Nat.not_lt_zero i)
  cut := rfl
  made := rfl

theorem call_insert (ok : ℕ → Bool) (key : Word) (value : ℕ) (m : Mem) :
    call ok (.insert key value) m = fun fuel =>
      ((critbitInsert ok fuel key value).exec m).map fun r => (Ret.errno r.1, r.2) := by
  funext fuel
  simp only [call]
  cases (critbitInsert ok fuel key value).exec m <;> rfl

theorem call_remove (ok : ℕ → Bool) (key : Word) (m : Mem) :
    call ok (.remove key) m = fun fuel => ((critbitRemove fuel key).exec m).map fun r => (Ret.value r.1, r.2) := by
  funext fuel
  simp only [call]
  cases (critbitRemove fuel key).exec m <;> rfl

theorem call_get (ok : ℕ → Bool) (key : Word) (m : Mem) :
    call ok (.get key) m = fun fuel => ((critbitGet key fuel).eval m.load).map fun v => (Ret.value v, m) := by
  funext fuel
  show (do let v ← (critbitGet key fuel).eval m.load; pure (Ret.value v, m)) = _
  cases (critbitGet key fuel).eval m.load <;> rfl

/-- The stores of a call are steps, and the call returns. -/
theorem returns_of_does {Q : Leaf → Prop} {α : Type} {run : ℕ → W α} {a : α} {log : List Event} {g' : Ghost}
    (h : ∀ fuel, g.tree.height < fuel → Does (Step Q) (run fuel) m g a log g') :
    Returns (fun fuel => (run fuel).exec m) (a, storeAll m log) :=
  ⟨g.tree.height + 1, fun fuel hf => Wr.exec_of_apply (h fuel hf).run⟩

/-- Every call returns and answers what the map answers. -/
theorem Quiet.call_returns (h : Quiet m g) (ok : ℕ → Bool) {op : Op} (habs : op.Absent g.tree.map) :
    ∃ r m' g', Returns (call ok op m) (r, m') ∧ Quiet m' g' ∧
      Answers g.tree.map (ok m.mallocs) op r g'.tree.map := by
  cases op with
  | insert key value =>
      obtain ⟨e, log, g', hdo, hquiet, hins⟩ := critbitInsert_spec h ok value habs
      rw [call_insert]
      exact ⟨_, _, g', (returns_of_does hdo).map _, hquiet, .insert hins⟩
  | remove key =>
      obtain ⟨log, g', hdo, hquiet, hmap⟩ := critbitRemove_spec (Q := fun _ => False) h key
      rw [call_remove]
      exact ⟨_, _, g', (returns_of_does hdo).map _, hquiet, hmap ▸ .remove⟩
  | get key =>
      rw [call_get]
      refine ⟨_, m, g, Returns.map ⟨g.tree.height + 1, fun fuel hf => ?_⟩ _, h, .get⟩
      exact critbitGet_eval h.rep h.wf key hf

theorem Reached.quiet {ops : List Op} {f : KMap} (h : Reached ok ops m f) : ∃ g, Quiet m g ∧ g.tree.map = f := by
  induction h with
  | new node => exact ⟨.new, quiet_new node, rfl⟩
  | @call ops m m' f op r _ habs hr ih =>
      obtain ⟨g, hq, rfl⟩ := ih
      obtain ⟨r', m'', g', hr', hq', ha⟩ := hq.call_returns ok habs
      cases hr.unique hr'
      exact ⟨g', hq', ha.effect_eq.symm⟩

/-! ## Duplicate-free histories -/

/-- Calls in which every insert is of a key that is not bound. -/
def Duplicatefree : KMap → List Op → Prop
  | _, [] => True
  | f, op :: ops => op.Absent f ∧ Duplicatefree (effect f op (.errno .ok)) ops

/-- The calls return one after the other, and each answers what the map answers. -/
inductive Conforms (ok : ℕ → Bool) : Mem → KMap → List Op → Prop
  | nil (m : Mem) (f : KMap) : Conforms ok m f []
  | cons {m m' : Mem} {f f' : KMap} {op : Op} {ops : List Op} {r : Ret} (hr : Returns (call ok op m) (r, m'))
      (ha : Answers f true op r f') (h : Conforms ok m' f' ops) : Conforms ok m f (op :: ops)

theorem Answers.of_ok {f f' : KMap} {op : Op} {r : Ret} (h : Answers f true op r f') :
    effect f op (.errno .ok) = f' := by
  cases h with
  | insert h => cases h; rfl
  | remove => rfl
  | get => rfl

theorem Quiet.conforms {ops : List Op} (h : Quiet m g) (hops : Duplicatefree g.tree.map ops) :
    Conforms (fun _ => true) m g.tree.map ops := by
  induction ops generalizing m g with
  | nil => exact .nil m _
  | cons op ops ih =>
      obtain ⟨habs, hops⟩ := hops
      obtain ⟨r, m', g', hr, hq, ha⟩ := h.call_returns (fun _ => true) habs
      exact .cons hr ha (ih hq (ha.of_ok ▸ hops))

/-- Without allocation failures critbit is a map on every duplicate-free history. -/
theorem critbit_conforms (node : Addr → Node) {ops : List Op} (hops : Duplicatefree .empty ops) :
    Conforms (fun _ => true) (critbitNew node) .empty ops :=
  (quiet_new node).conforms hops

theorem critbit_conforms_again :
    Conforms (fun _ => true) (critbitNew fun _ => .zero) .empty [.insert 5 7, .get 5, .remove 5, .insert 5 0] :=
  critbit_conforms _ (by simp [Duplicatefree, Op.Absent, effect, KMap.empty])

end Ptok.Critbit
