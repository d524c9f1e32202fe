import Ptok.Critnib.Lemmas.Read

/-!
# Calls one after another

A state is reached when a sequence of calls on a new structure returned and left it. The map of the history is
what the results reported: an insert that returned 0 bound its key, a remove unbound its own.
-/

namespace Ptok.Critnib

open Lib

/-- The answers of a partial map, and what it is afterwards. An insert asks for a leaf and then, if the key is
unbound, maybe for a node; `leafOk` and `nodeOk` say that no such allocation failed. -/
inductive Answers (f : KMap) (leafOk nodeOk : Bool) : Op → Ret → KMap → Prop
  | noLeaf {key : Word} {value : ℕ} (hl : leafOk = false) :
      Answers f leafOk nodeOk (.insert key value) (.errno .ENOMEM) f
  | bound {key : Word} {value : ℕ} (hl : leafOk = true) (hb : f key ≠ none) :
      Answers f leafOk nodeOk (.insert key value) (.errno .EEXIST) f
  | noNode {key : Word} {value : ℕ} (hl : leafOk = true) (hb : f key = none) (hn : nodeOk = false) :
      Answers f leafOk nodeOk (.insert key value) (.errno .ENOMEM) f
  | bind {key : Word} {value : ℕ} (hl : leafOk = true) (hb : f key = none) (hn : nodeOk = true) :
      Answers f leafOk nodeOk (.insert key value) (.errno .ok) (f.bind key value)
  | remove {key : Word} : Answers f leafOk nodeOk (.remove key) (.value (f.val key)) (f.unbind key)
  | get {key : Word} : Answers f leafOk nodeOk (.get key) (.value (f.val key)) f
  | findLe {key : Word} {v : ℕ} (h : f.LeVal key v) : Answers f leafOk nodeOk (.findLe key) (.value v) f

/-- What a call did to the map, by its result. -/
def effect (f : KMap) : Op → Ret → KMap
  | .insert key value, .errno .ok => f.bind key value
  | .remove key, _ => f.unbind key
  | _, _ => f

/-- The state and the map of the history after a sequence of calls on a new structure, all of which returned. -/
inductive Reached (ok : ℕ → Bool) : List Op → Mem → KMap → Prop
  | new (node : Addr → Node) (leaf : Addr → Leaf) : Reached ok [] (critnibNew node leaf) .empty
  | call {ops : List Op} {m m' : Mem} {f : KMap} {op : Op} {r : Ret} (h : Reached ok ops m f)
      (hr : Returns (call ok op m) (r, m')) : Reached ok (ops ++ [op]) m' (effect f op r)

/-- The calls return one after the other and lead from one state to another. -/
inductive Calls (ok : ℕ → Bool) : Mem → List Op → Mem → Prop
  | nil (m : Mem) : Calls ok m [] m
  | cons {m m' m'' : Mem} {op : Op} {ops : List Op} {r : Ret} (hr : Returns (call ok op m) (r, m'))
      (h : Calls ok m' ops m'') : Calls ok m (op :: ops) m''

theorem Reached.calls {ok : ℕ → Bool} {ops ops' : List Op} {m m' : Mem} {f : KMap} (h : Reached ok ops m f)
    (hc : Calls ok m ops' m') : ∃ f', Reached ok (ops ++ ops') m' f' := by
  induction hc generalizing ops f with
  | nil m => exact ⟨f, by simpa using h⟩
  | @cons m m' m'' op ops' r hr _ ih =>
      obtain ⟨f', hf⟩ := ih (h.call hr)
      exact ⟨f', by simpa using hf⟩

/-- No allocation of the kind failed between the two states. -/
def leafOk (m m' : Mem) : Bool := m'.leafFails = m.leafFails

def nodeOk (m m' : Mem) : Bool := m'.nodeFails = m.nodeFails

/-! ## What each call does -/

def Ghost.new : Ghost where
  tree := .nil
  ns := []
  ls := []
  pn := fun _ => .null
  pl := fun _ => 0
  fn := 0
  fl := 0

theorem quiet_new (node : Addr → Node) (leaf : Addr → Leaf) : Quiet (critnibNew node leaf) .new where
  rep := rfl
  fits := trivial
  nodePool := rfl
  leafPool := rfl
  nodes := by simp [Ghost.nodes, Ghost.new, nodesOf, critnibNew, ptrOwn]
  leaves := by simp [Ghost.leaves, Ghost.new, leavesOf, critnibNew, leafOwn]
  wf := ⟨trivial, trivial⟩
  pn := rfl
  pl := rfl
  fn := rfl
  fl := rfl

variable {m : Mem} {g : Ghost}

theorem call_insert (ok : ℕ → Bool) (key : Word) (value : ℕ) (m : Mem) :
    call ok (.insert key value) m = fun fuel =>
      ((critnibInsert ok fuel key value).exec m).map fun r => (Ret.errno r.1, r.2) := by
  funext fuel
  simp only [call]
  cases (critnibInsert ok fuel key value).exec m <;> rfl

theorem call_remove (ok : ℕ → Bool) (key : Word) (m : Mem) :
    call ok (.remove key) m = fun fuel =>
      ((critnibRemove fuel key).exec m).map fun r => (Ret.value r.1, r.2) := by
  funext fuel
  simp only [call]
  cases (critnibRemove fuel key).exec m <;> rfl

theorem call_get (ok : ℕ → Bool) (key : Word) (m : Mem) :
    call ok (.get key) m = fun fuel => ((critnibGet key fuel).eval m.load).map fun v => (Ret.value v, m) := by
  funext fuel
  show (do let v ← (critnibGet key fuel).eval m.load; pure (Ret.value v, m)) = _
  cases (critnibGet key fuel).eval m.load <;> rfl

theorem call_findLe (ok : ℕ → Bool) (key : Word) (m : Mem) :
    call ok (.findLe key) m = fun fuel =>
      ((critnibFindLe key fuel).eval m.load).map fun v => (Ret.value v, m) := by
  funext fuel
  show (do let v ← (critnibFindLe key fuel).eval m.load; pure (Ret.value v, m)) = _
  cases (critnibFindLe key fuel).eval m.load <;> rfl

theorem returns_of_does {α : Type} {run : ℕ → W α} {a : α} {log : List Event} {g' : Ghost}
    (h : ∀ fuel, g.tree.height < fuel → Does (run fuel) m g a log g') :
    Returns (fun fuel => (run fuel).exec m) (a, storeAll m log) :=
  ⟨g.tree.height + 1, fun fuel hf => Wr.exec_of_apply (h fuel hf).run⟩

/-- An insert returns and does what the map does. -/
theorem insert_returns (h : Quiet m g) (ok : ℕ → Bool) (key : Word) (value : ℕ) :
    ∃ r m' g', Returns (call ok (.insert key value) m) (r, m') ∧ Quiet m' g' ∧ m'.removeCount = m.removeCount ∧
      Answers g.tree.map (leafOk m m') (nodeOk m m') (.insert key value) r g'.tree.map ∧
      ((∀ i, ok i = true) → leafOk m m' = true ∧ nodeOk m m' = true) := by
  obtain ⟨e, log, g', hdo, hquiet, hcount, -, hins⟩ := critnibInsert_spec h ok key value
  rw [call_insert]
  refine ⟨_, _, g', (returns_of_does hdo).map _, hquiet, hcount, ?_⟩
  generalize storeAll m log = m' at hins
  generalize hf' : g'.tree.map = f' at hins
  cases hins with
  | noLeaf hok hl hn hf =>
      subst hf
      obtain ⟨i, hi⟩ := hok
      exact ⟨.noLeaf (by simp [leafOk, hl]), fun hall => by simp [hall i] at hi⟩
  | bound hl hn hb hf =>
      subst hf
      exact ⟨.bound (by simp [leafOk, hl]) hb, fun _ => by simp [leafOk, nodeOk, hl, hn]⟩
  | noNode hok hl hn hb hf =>
      subst hf
      obtain ⟨i, hi⟩ := hok
      exact ⟨.noNode (by simp [leafOk, hl]) hb (by simp [nodeOk, hn]), fun hall => by simp [hall i] at hi⟩
  | new hl hn hb hf =>
      subst hf
      exact ⟨.bind (by simp [leafOk, hl]) hb (by simp [nodeOk, hn]), fun _ => by simp [leafOk, nodeOk, hl, hn]⟩

/-- So does a remove. -/
theorem remove_returns (h : Quiet m g) (ok : ℕ → Bool) (key : Word) (lo no : Bool) :
    ∃ r m' g', Returns (call ok (.remove key) m) (r, m') ∧ Quiet m' g' ∧
      m'.removeCount = (if m.root = .null then m.removeCount else m.removeCount + 1) ∧
      Answers g.tree.map lo no (.remove key) r g'.tree.map := by
  obtain ⟨v, log, g', hdo, hquiet, hcount, -, hrem⟩ := critnibRemove_spec h key
  rw [call_remove]
  refine ⟨_, _, g', (returns_of_does hdo).map _, hquiet, hcount, ?_⟩
  rw [hrem.value, hrem.map]
  exact .remove

/-- A get returns while the sum with `remove_count` does not wrap around. -/
theorem get_returns (h : Inv m g) (ok : ℕ → Bool) (key : Word) (hc : m.removeCount.toNat < 2 ^ 64 - 16) :
    Returns (call ok (.get key) m) (.value (g.tree.map.val key), m) := by
  rw [call_get]
  exact ((critnibGet_eval h key).1 hc).map _

theorem get_diverges (h : Inv m g) (ok : ℕ → Bool) (key : Word) (hc : 2 ^ 64 - 16 ≤ m.removeCount.toNat) :
    Diverges (call ok (.get key) m) := by
  rw [call_get]
  exact ((critnibGet_eval h key).2 hc).map _

theorem findLe_returns (h : Quiet m g) (ok : ℕ → Bool) (key : Word) (hc : m.removeCount.toNat < 2 ^ 64 - 16) :
    Returns (call ok (.findLe key) m) (.value (g.tree.leVal key), m) := by
  rw [call_findLe]
  exact ((critnibFindLe_eval h.toInv h.wf.branching key).1 hc).map _

theorem findLe_diverges (h : Quiet m g) (ok : ℕ → Bool) (key : Word) (hc : 2 ^ 64 - 16 ≤ m.removeCount.toNat) :
    Diverges (call ok (.findLe key) m) := by
  rw [call_findLe]
  exact ((critnibFindLe_eval h.toInv h.wf.branching key).2 hc).map _

/-- Readers change nothing. -/
theorem get_mem {ok : ℕ → Bool} {key : Word} {r : Ret} {m' : Mem}
    (h : Returns (call ok (.get key) m) (r, m')) : m' = m ∧ ∃ v, r = .value v := by
  rw [call_get] at h
  obtain ⟨_, v, -, he⟩ := h.of_map
  cases he
  exact ⟨rfl, v, rfl⟩

theorem findLe_mem {ok : ℕ → Bool} {key : Word} {r : Ret} {m' : Mem}
    (h : Returns (call ok (.findLe key) m) (r, m')) : m' = m ∧ ∃ v, r = .value v := by
  rw [call_findLe] at h
  obtain ⟨_, v, -, he⟩ := h.of_map
  cases he
  exact ⟨rfl, v, rfl⟩

/-- The map has one answer. -/
theorem Answers.unique {f f₁ f₂ : KMap} {lo no : Bool} {op : Op} {r₁ r₂ : Ret} (h₁ : Answers f lo no op r₁ f₁)
    (h₂ : Answers f lo no op r₂ f₂) : r₁ = r₂ ∧ f₁ = f₂ := by
  cases h₁ with
  | findLe h₁ =>
      cases h₂ with
      | findLe h₂ => exact ⟨by rw [h₁.unique h₂], rfl⟩
  | remove => cases h₂; exact ⟨rfl, rfl⟩
  | get => cases h₂; exact ⟨rfl, rfl⟩
  | noLeaf => cases h₂ <;> simp_all
  | bound => cases h₂ <;> simp_all
  | noNode => cases h₂ <;> simp_all
  | bind => cases h₂ <;> simp_all

/-- What an answer of the map leaves is what the result reports. -/
theorem Answers.effect {f f' : KMap} {lo no : Bool} {op : Op} {r : Ret} (h : Answers f lo no op r f') :
    f' = Critnib.effect f op r := by
  cases h <;> rfl

/-- After a call the invariant holds again, and the tree's map is what the result reports. -/
theorem Quiet.of_returns {ok : ℕ → Bool} {op : Op} {r : Ret} {m' : Mem} (h : Quiet m g)
    (hr : Returns (call ok op m) (r, m')) : ∃ g', Quiet m' g' ∧ g'.tree.map = effect g.tree.map op r := by
  cases op with
  | insert key value =>
      obtain ⟨r', m'', g', hr', hq', -, hans, -⟩ := insert_returns h ok key value
      cases hr.unique hr'
      exact ⟨g', hq', hans.effect⟩
  | remove key =>
      obtain ⟨r', m'', g', hr', hq', -, hans⟩ := remove_returns h ok key true true
      cases hr.unique hr'
      exact ⟨g', hq', hans.effect⟩
  | get key =>
      obtain ⟨rfl, v, rfl⟩ := get_mem hr
      exact ⟨g, h, rfl⟩
  | findLe key =>
      obtain ⟨rfl, v, rfl⟩ := findLe_mem hr
      exact ⟨g, h, rfl⟩

/-- The invariant holds after every call, and the tree's map is that of the history. -/
theorem Reached.quiet {ok : ℕ → Bool} {ops : List Op} {f : KMap} (h : Reached ok ops m f) :
    ∃ g, Quiet m g ∧ g.tree.map = f := by
  induction h with
  | new node leaf => exact ⟨_, quiet_new node leaf, rfl⟩
  | call _ hr ih =>
      obtain ⟨g, hq, rfl⟩ := ih
      exact hq.of_returns hr

/-- Removes of an absent key only draw numbers. -/
theorem removes_calls (h : Quiet m g) (ok : ℕ → Bool) {k key : Word} (hk : g.tree.map k ≠ none)
    (hkey : g.tree.map key = none) (n : ℕ) :
    ∃ m' g', Calls ok m (List.replicate n (.remove key)) m' ∧ Quiet m' g' ∧ g'.tree.map = g.tree.map ∧
      m'.removeCount = m.removeCount + BitVec.ofNat 64 n := by
  induction n generalizing m g with
  | zero => exact ⟨m, g, .nil m, h, rfl, by simp⟩
  | succ n ih =>
      obtain ⟨r, m₁, g₁, hr, hq, hcount, ha⟩ := remove_returns h ok key true true
      have hmap : g₁.tree.map = g.tree.map := by
        have := ha.effect
        rw [this]
        exact unbind_of_none hkey
      have hroot : m.root ≠ .null := by
        intro hn
        have hnil : g.tree = .nil := rep_null (hn ▸ h.rep)
        rw [hnil] at hk
        exact hk rfl
      rw [if_neg hroot] at hcount
      obtain ⟨m', g', hcalls, hq', hmap', hcount'⟩ := ih hq (by rwa [hmap]) (by rwa [hmap])
      refine ⟨m', g', ?_, hq', hmap'.trans hmap, ?_⟩
      · rw [List.replicate_succ]
        exact .cons hr hcalls
      · rw [hcount', hcount, BitVec.add_assoc]
        congr 1
        rw [Nat.add_comm, BitVec.ofNat_add]
        rfl

/-! ## Running calls -/

/-- The calls one after another, each with the same fuel. -/
def runAll (ok : ℕ → Bool) (fuel : ℕ) (ops : List Op) (m : Mem) : Option Mem :=
  ops.foldlM (fun m op => (call ok op m fuel).toOption.map (·.2)) m

def Op.IsUpdate : Op → Prop
  | .insert _ _ => True
  | .remove _ => True
  | _ => False

/-- 17 levels of fuel are enough for an update. -/
theorem returns_of_call (h : Quiet m g) {ok : ℕ → Bool} {op : Op} (hop : op.IsUpdate) {fuel : ℕ} (hf : 16 < fuel)
    {x : Ret × Mem} (hx : call ok op m fuel = .ok x) : Returns (call ok op m) x := by
  have hf := h.height_le.trans_lt hf
  cases op with
  | insert key value =>
      obtain ⟨e, log, g', hdo, -⟩ := critnibInsert_spec h ok key value
      have hret := returns_of_does hdo
      rw [call_insert] at hx ⊢
      simp only [Wr.exec_of_apply (hdo fuel hf).run] at hx
      cases hx
      exact hret.map _
  | remove key =>
      obtain ⟨v, log, g', hdo, -⟩ := critnibRemove_spec h key
      have hret := returns_of_does hdo
      rw [call_remove] at hx ⊢
      simp only [Wr.exec_of_apply (hdo fuel hf).run] at hx
      cases hx
      exact hret.map _
  | get key => exact hop.elim
  | findLe key => exact hop.elim

theorem calls_of_runAll {ok : ℕ → Bool} {fuel : ℕ} (hf : 16 < fuel) {ops : List Op} (hops : ∀ op ∈ ops, op.IsUpdate)
    {m m' : Mem} {f : KMap} {ops₀ : List Op} (h : Reached ok ops₀ m f) (hr : runAll ok fuel ops m = some m') :
    Calls ok m ops m' := by
  induction ops generalizing m f ops₀ with
  | nil =>
      cases hr
      exact .nil _
  | cons op ops ih =>
      obtain ⟨g, hq, -⟩ := h.quiet
      rw [runAll, List.foldlM_cons] at hr
      obtain ⟨m₁, h₁, hr⟩ := Option.bind_eq_some_iff.mp hr
      obtain ⟨⟨r, m₂⟩, h₂, rfl⟩ := Option.map_eq_some_iff.mp h₁
      have hcall : call ok op m fuel = .ok (r, m₂) := by
        cases hc : call ok op m fuel with
        | error e => rw [hc] at h₂; cases h₂
        | ok x => rw [hc] at h₂; cases h₂; rfl
      have hret := returns_of_call hq (hops op (by simp)) hf hcall
      exact .cons hret (ih (fun op ho => hops op (by simp [ho])) (h.call hret) hr)

end Ptok.Critnib
