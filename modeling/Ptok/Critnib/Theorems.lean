import Ptok.Critnib.Calls

/-!
# critnib as a map

The invariant of all reachable states, and the calls against the map of the history.
-/

namespace Ptok.Critnib

open Lib

/-! ## The representation invariant -/

/-- Followed from the root. -/
def Mem.Live (m : Mem) (p : Ptr) : Prop := Reaches m.cell m.root p

/-- What every node and every leaf under the root satisfies. -/
structure WellFormed (m : Mem) : Prop where
  shift : ∀ a, m.Live (.node a) → (m.node a).shift % 4 = 0 ∧ (m.node a).shift ≤ 60
  branching : ∀ a, m.Live (.node a) → ∃ i j, i ≠ j ∧ (m.node a).child i ≠ .null ∧ (m.node a).child j ≠ .null
  /-- the path ends above the node's slice -/
  path : ∀ a, m.Live (.node a) → (m.node a).path.toNat % 2 ^ ((m.node a).shift + 4) = 0
  /-- the keys below agree with the path above the slice, and the slice selects the child -/
  keys : ∀ a i k, m.Live (.node a) → Reaches m.cell ((m.node a).child i) (.leaf k) →
    (m.leaf k).key.toNat / 2 ^ ((m.node a).shift + 4) = (m.node a).path.toNat / 2 ^ ((m.node a).shift + 4) ∧
      sliceIndex (m.leaf k).key (m.node a).shift = i
  decreasing : ∀ a b i, m.Live (.node a) → (m.node a).child i = .node b → (m.node b).shift < (m.node a).shift
  unique : ∀ k k', m.Live (.leaf k) → m.Live (.leaf k') → (m.leaf k).key = (m.leaf k').key → k = k'

section

variable {m : Mem} {g : Ghost}

/-- A live node is the root of a subtree. -/
theorem Quiet.node_of_live (h : Quiet m g) {a : Addr} (ha : m.Live (.node a)) :
    ∃ c b, Rep m.cell (.node a) (.node (.node a) ⟨(m.node a).path, (m.node a).shift⟩ c) ∧
      nibs.Fits (.node (.node a) ⟨(m.node a).path, (m.node a).shift⟩ c) b ∧
      Coding.Branching (.node (.node a) ⟨(m.node a).path, (m.node a).shift⟩ c : T) := by
  obtain ⟨u, hu, hrep⟩ := h.rep.reaches ha
  obtain ⟨b, -, hfit⟩ := h.fits.sub hu
  have hbr := h.wf.branching.sub hu
  cases u with
  | nil => cases hrep
  | leaf p l => obtain ⟨_, ⟨⟩, -⟩ := rep_leaf.mp hrep
  | node p n c =>
      obtain ⟨a', ⟨⟩, rfl, rfl, -⟩ := rep_node.mp hrep
      exact ⟨c, b, hrep, hfit, hbr⟩

theorem sub_leaf_of_reaches {p : Ptr} {t : T} {k : Addr} (h : Rep m.cell p t) (hk : Reaches m.cell p (.leaf k)) :
    Tree.Sub (.leaf (.leaf k) (m.leaf k)) t := by
  obtain ⟨u, hu, hrep⟩ := h.reaches hk
  cases u with
  | nil => cases hrep
  | leaf p l =>
      obtain ⟨k', ⟨⟩, rfl, rfl⟩ := rep_leaf.mp hrep
      exact hu
  | node p n c => obtain ⟨_, ⟨⟩, -⟩ := rep_node.mp hrep

theorem Quiet.wellFormed (h : Quiet m g) : WellFormed m where
  shift := by
    intro a ha
    obtain ⟨c, b, -, hfit, -⟩ := h.node_of_live ha
    exact ⟨hfit.1.1, hfit.1.2.1⟩
  branching := by
    intro a ha
    obtain ⟨c, b, hrep, -, ⟨i, j, hij, hi, hj⟩, -⟩ := h.node_of_live ha
    obtain ⟨_, ⟨⟩, -, -, hc⟩ := rep_node.mp hrep
    refine ⟨i, j, hij, fun hn => hi ?_, fun hn => hj ?_⟩
    · exact rep_null (hn ▸ hc i)
    · exact rep_null (hn ▸ hc j)
  path := by
    intro a ha
    obtain ⟨c, b, -, hfit, -⟩ := h.node_of_live ha
    exact mod_of_and_pathMask hfit.1.2.2
  keys := by
    intro a i k ha hk
    obtain ⟨c, b, hrep, hfit, -⟩ := h.node_of_live ha
    obtain ⟨_, ⟨⟩, -, -, hc⟩ := rep_node.mp hrep
    have hsub := sub_leaf_of_reaches (hc i) hk
    obtain ⟨hag, hd⟩ := hfit.2.2.2.1 i _ (hsub.has rfl)
    rw [dig_pos hfit.1] at hd
    exact ⟨((agree_pos_iff hfit.1 _ _).mp hag).symm, hd⟩
  decreasing := by
    intro a b i ha hb
    obtain ⟨c, pos, hrep, hfit, -⟩ := h.node_of_live ha
    obtain ⟨_, ⟨⟩, -, -, hc⟩ := rep_node.mp hrep
    have hci := hc i
    rw [hb] at hci
    have hfi := hfit.2.2.2.2 i
    generalize c i = u at hci hfi
    cases u with
    | nil => cases hci
    | leaf p l => obtain ⟨_, ⟨⟩, -⟩ := rep_leaf.mp hci
    | node p n c' =>
        obtain ⟨_, ⟨⟩, -, rfl, -⟩ := rep_node.mp hci
        have h₁ := nibs_pos hfit.1
        have h₂ := nibs_pos hfi.1
        have h₃ := hfi.2.1
        have h₄ := nibs_pos_lt hfi.1
        simp only at h₁ h₂
        omega
  unique := by
    intro k k' hk hk' he
    have h₁ := Coding.focus_along_of_sub h.fits.routed (sub_leaf_of_reaches h.rep hk)
    have h₂ := Coding.focus_along_of_sub h.fits.routed (sub_leaf_of_reaches h.rep hk')
    rw [nibs_key] at h₁ h₂
    rw [he, h₂] at h₁
    cases h₁
    rfl

end

/-- A structure with one leaf, for concrete runs: `critnib_insert(c, key, value)` on a new one. -/
def single (key : Word) (value : ℕ) : Mem :=
  storeAll (critnibNew (fun _ => ⟨fun _ => .null, 0, 0⟩) fun _ => ⟨0, 0⟩)
    [.mallocLeaf true, .key 1 key, .value 1 value, .slot .root (.leaf 1)]

theorem single_returns (key : Word) (value : ℕ) :
    Returns (call (fun _ => true) (.insert key value) (critnibNew (fun _ => ⟨fun _ => .null, 0, 0⟩) fun _ => ⟨0, 0⟩))
      (.errno .ok, single key value) :=
  ⟨0, fun _ _ => rfl⟩

theorem single_reached (key : Word) (value : ℕ) :
    Reached (fun _ => true) [.insert key value] (single key value) (KMap.empty.bind key value) :=
  .call (.new _ _) (single_returns key value)

/-- Calls of the map: everything but the predecessor search. -/
def Op.IsMap : Op → Prop
  | .findLe _ => False
  | _ => True

/-- The calls return one after the other, and each answers what the map answers. -/
inductive Conforms (ok : ℕ → Bool) : Mem → KMap → List Op → Prop
  | nil (m : Mem) (f : KMap) : Conforms ok m f []
  | cons {m m' : Mem} {f f' : KMap} {op : Op} {ops : List Op} {r : Ret} (hr : Returns (call ok op m) (r, m'))
      (ha : Answers f (leafOk m m') (nodeOk m m') op r f') (h : Conforms ok m' f' ops) :
      Conforms ok m f (op :: ops)

/-- Every get of the sequence is called with `remove_count` below `2^64 - 16`. -/
def InTime (ok : ℕ → Bool) : Mem → List Op → Prop
  | _, [] => True
  | m, op :: ops =>
    (∀ key, op = .get key → m.removeCount.toNat < 2 ^ 64 - 16) ∧
      ∀ r m', Returns (call ok op m) (r, m') → InTime ok m' ops

section

variable {ok : ℕ → Bool} {m m' : Mem} {g : Ghost} {op : Op} {r : Ret}

/-- A call that returns answers what the map answers. -/
theorem Quiet.answers (h : Quiet m g) (hop : op.IsMap) (hr : Returns (call ok op m) (r, m')) :
    ∃ g', Quiet m' g' ∧ Answers g.tree.map (leafOk m m') (nodeOk m m') op r g'.tree.map := by
  cases op with
  | insert key value =>
      obtain ⟨r', m'', g', hr', hq, -, ha, -⟩ := insert_returns h ok key value
      cases hr.unique hr'
      exact ⟨g', hq, ha⟩
  | remove key =>
      obtain ⟨r', m'', g', hr', hq, -, ha⟩ := remove_returns h ok key (leafOk m m') (nodeOk m m')
      cases hr.unique hr'
      exact ⟨g', hq, ha⟩
  | get key =>
      by_cases hc : m.removeCount.toNat < 2 ^ 64 - 16
      · cases hr.unique (get_returns h.toInv ok key hc)
        exact ⟨g, h, .get⟩
      · exact absurd hr ((get_diverges h.toInv ok key (not_lt.mp hc)).not_returns _)
  | findLe key => exact hop.elim

/-- It returns unless it is a get that comes too late. -/
theorem Quiet.returns (h : Quiet m g) (ok : ℕ → Bool) (hop : op.IsMap)
    (ht : ∀ key, op = .get key → m.removeCount.toNat < 2 ^ 64 - 16) :
    ∃ r m', Returns (call ok op m) (r, m') := by
  cases op with
  | insert key value =>
      obtain ⟨r, m', g', hr, -⟩ := insert_returns h ok key value
      exact ⟨r, m', hr⟩
  | remove key =>
      obtain ⟨r, m', g', hr, -⟩ := remove_returns h ok key true true
      exact ⟨r, m', hr⟩
  | get key => exact ⟨_, _, get_returns h.toInv ok key (ht key rfl)⟩
  | findLe key => exact hop.elim

theorem Quiet.conforms_iff {ops : List Op} (h : Quiet m g) (hops : ∀ op ∈ ops, op.IsMap) :
    Conforms ok m g.tree.map ops ↔ InTime ok m ops := by
  induction ops generalizing m g with
  | nil => exact ⟨fun _ => trivial, fun _ => .nil m _⟩
  | cons op ops ih =>
      have hop := hops op (by simp)
      have hops : ∀ op ∈ ops, op.IsMap := fun op ho => hops op (by simp [ho])
      constructor
      · rintro (_ | @⟨_, m', _, f', _, _, r, hr, ha, hconf⟩)
        obtain ⟨g', hq, ha'⟩ := h.answers hop hr
        rw [ha.effect, ← ha'.effect] at hconf
        refine ⟨?_, ?_⟩
        · rintro key rfl
          by_contra hc
          exact (get_diverges h.toInv ok key (not_lt.mp hc)).not_returns _ hr
        · intro r' m'' hr'
          cases hr.unique hr'
          exact (ih hq hops).mp hconf
      · rintro ⟨ht, htail⟩
        obtain ⟨r, m', hr⟩ := h.returns ok hop ht
        obtain ⟨g', hq, ha⟩ := h.answers hop hr
        exact .cons hr ha ((ih hq hops).mpr (htail r m' hr))

end

/-- critnib is a map exactly as long as every get is called in time. -/
theorem critnib_conforms_iff (ok : ℕ → Bool) (node : Addr → Node) (leaf : Addr → Leaf) (ops : List Op)
    (hops : ∀ op ∈ ops, op.IsMap) :
    Conforms ok (critnibNew node leaf) .empty ops ↔ InTime ok (critnibNew node leaf) ops :=
  (quiet_new node leaf).conforms_iff hops

theorem critnib_conforms_iff_pair :
    Conforms (fun _ => true) (critnibNew (fun _ => ⟨fun _ => .null, 0, 0⟩) fun _ => ⟨0, 0⟩) .empty
        [.insert 5 7, .get 5] ↔
      InTime (fun _ => true) (critnibNew (fun _ => ⟨fun _ => .null, 0, 0⟩) fun _ => ⟨0, 0⟩)
        [.insert 5 7, .get 5] :=
  critnib_conforms_iff _ _ _ _ (by simp [Op.IsMap])

theorem Conforms.rest {ok : ℕ → Bool} {m m' : Mem} {f : KMap} {ops ops' : List Op}
    (h : Conforms ok m f (ops ++ ops')) (hc : Calls ok m ops m') : ∃ f', Conforms ok m' f' ops' := by
  induction hc generalizing f with
  | nil m => exact ⟨f, h⟩
  | cons hr _ ih =>
      rcases h with _ | ⟨hr', -, h⟩
      cases hr.unique hr'
      exact ih h

/-- A structure with one key after `2^64 - 16` removes of another one. -/
theorem late (key : Word) (value : ℕ) (other : Word) (hne : other ≠ key) :
    ∃ m g, Calls (fun _ => true) (single key value) (List.replicate (2 ^ 64 - 16) (.remove other)) m ∧ Quiet m g ∧
      g.tree.map = KMap.empty.bind key value ∧ m.removeCount.toNat = 2 ^ 64 - 16 := by
  obtain ⟨g₀, hq₀, hmap₀⟩ := (single_reached key value).quiet
  have hkey : g₀.tree.map key ≠ none := by simp [hmap₀]
  have hother : g₀.tree.map other = none := by
    rw [hmap₀, KMap.bind_of_ne _ _ hne]
    rfl
  obtain ⟨m, g, hcalls, hq, hmap, hcount⟩ := removes_calls hq₀ (fun _ => true) hkey hother (2 ^ 64 - 16)
  refine ⟨m, g, hcalls, hq, hmap.trans hmap₀, ?_⟩
  have h0 : (single key value).removeCount = 0#64 := rfl
  rw [hcount, h0, BitVec.zero_add, BitVec.toNat_ofNat]
  rfl

/-- A get that comes after `2^64 - 16` removes never returns: the sum with `DELETED_LIFE` wraps around. -/
theorem critnib_get_late :
    ¬ Conforms (fun _ => true) (critnibNew (fun _ => ⟨fun _ => .null, 0, 0⟩) fun _ => ⟨0, 0⟩) .empty
      (.insert 0 1 :: (List.replicate (2 ^ 64 - 16) (.remove 1) ++ [.get 0])) := by
  rintro (_ | ⟨hr, -, h⟩)
  cases hr.unique (single_returns 0 1)
  obtain ⟨m, g, hcalls, hq, -, hcount⟩ := late 0 1 1 (by decide)
  obtain ⟨f', h⟩ := h.rest hcalls
  rcases h with _ | ⟨hr, -, -⟩
  exact (get_diverges hq.toInv _ 0 hcount.ge).not_returns _ hr

/-! ## Predecessor lookup -/

/-- Inserts of values that are not `NULL`, and removes. -/
def Op.NonNull : Op → Prop
  | .insert _ value => value ≠ NULL
  | .remove _ => True
  | _ => False

theorem Reached.nonNull {ok : ℕ → Bool} {ops : List Op} {m : Mem} {f : KMap} (h : Reached ok ops m f)
    (hops : ∀ op ∈ ops, op.NonNull) (k : Word) : f k ≠ some NULL := by
  induction h with
  | new => simp [KMap.empty]
  | @call ops m m' f op r _ _ ih =>
      have ih := ih fun op ho => hops op (by simp [ho])
      have hop := hops op (by simp)
      cases op with
      | get key => exact ih
      | findLe key => exact ih
      | remove key =>
          show f.unbind key k ≠ _
          by_cases hk : k = key
          · simp [hk]
          · rwa [KMap.unbind_of_ne _ hk]
      | insert key value =>
          have hvalue : value ≠ NULL := hop
          have hbind : f.bind key value k ≠ some NULL := by
            by_cases hk : k = key
            · simpa [hk] using hvalue
            · rwa [KMap.bind_of_ne _ _ hk]
          rcases r with (_ | _ | _) | v
          · exact hbind
          · exact ih
          · exact ih
          · exact ih

end Ptok.Critnib
