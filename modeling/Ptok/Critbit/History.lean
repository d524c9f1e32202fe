import Ptok.Critbit.Ownership

/-!
# The shape of critbit's tree

It is determined by the map: the nodes stand at the bits where the keys below them differ first.
-/

namespace Ptok.Critbit

open Lib

variable {m m' : Mem} {g g' : Ghost}

/-! ## Well-formedness -/

/-- In the tree. -/
def Mem.Live (m : Mem) (a : Addr) : Prop := a ≠ 0 ∧ Reaches m.cell m.root a

/-- What every inner node under the root satisfies. -/
structure WellFormed (m : Mem) : Prop where
  bit : ∀ a, m.Live a → (m.node a).bit ≠ 0 → ∃ i < 64, (m.node a).bit = BitVec.twoPow 64 i
  children : ∀ a i, m.Live a → (m.node a).bit ≠ 0 → (m.node a).child i ≠ 0
  /-- the path is what the keys below have in common below `bit` -/
  path : ∀ a k, m.Live a → (m.node a).bit ≠ 0 → Reaches m.cell a k → (m.node k).bit = 0 →
    (m.node a).path = (m.node k).path &&& ((m.node a).bit - 1)
  /-- the bit selects the child -/
  keys : ∀ a i k, m.Live a → (m.node a).bit ≠ 0 → Reaches m.cell ((m.node a).child i) k → (m.node k).bit = 0 →
    dirOf ((m.node k).path &&& (m.node a).bit) = i
  increasing : ∀ a i, m.Live a → (m.node a).bit ≠ 0 → (m.node ((m.node a).child i)).bit ≠ 0 →
    (m.node a).bit < (m.node ((m.node a).child i)).bit

theorem Inv.sub_of_live (h : Inv m g) {a : Addr} (ha : m.Live a) (hb : (m.node a).bit ≠ 0) :
    ∃ c b, bits.Fits (.node a (m.hdr a) c : T) b ∧ Coding.Branching (.node a (m.hdr a) c : T) ∧
      ∀ i, Rep m.cell ((m.node a).child i) (c i) := by
  obtain ⟨h0, hr⟩ := ha
  obtain ⟨u, hu, hrep⟩ := h.rep.reaches hr
  obtain ⟨b, -, hfit⟩ := h.wf.fits.sub hu
  have hbr := h.wf.branching.sub hu
  cases u with
  | nil => exact absurd (rep_nil.mp hrep) h0
  | leaf q l =>
      obtain ⟨rfl, -, hb', -⟩ := rep_leaf.mp hrep
      exact absurd hb' hb
  | node q n c =>
      obtain ⟨rfl, -, -, rfl, hc⟩ := rep_node.mp hrep
      exact ⟨c, b, hfit, hbr, hc⟩

/-- A leaf that is reached is in the tree, if nothing in it is missing. -/
theorem has_of_reaches {p k : Addr} {t : T} (hrep : Rep m.cell p t) (hbr : Coding.Branching t) (hne : t ≠ .nil)
    (hk : Reaches m.cell p k) (hb : (m.node k).bit = 0) : t.Has (m.leafAt k) := by
  obtain ⟨u, hu, hr⟩ := hrep.reaches hk
  have hune : u ≠ .nil := by
    clear hr hrep
    induction hu with
    | refl => exact hne
    | child _ ih => exact ih (hbr.2 _) (child_ne_nil hbr _)
  cases u with
  | nil => exact absurd rfl hune
  | leaf q l =>
      obtain ⟨rfl, -, -, rfl⟩ := rep_leaf.mp hr
      exact hu.has rfl
  | node q n c => exact absurd hb (rep_node.mp hr).2.2.1

/-- The keys below a node. -/
theorem Inv.leaf_below (h : Inv m g) {a k : Addr} {i : Fin 2} (ha : m.Live a) (hb : (m.node a).bit ≠ 0)
    (hk : Reaches m.cell ((m.node a).child i) k) (hbk : (m.node k).bit = 0) :
    bits.ok (m.hdr a) ∧ (m.node a).path = (m.node k).path &&& ((m.node a).bit - 1) ∧
      dirOf ((m.node k).path &&& (m.node a).bit) = i := by
  obtain ⟨c, b, hfit, hbr, hc⟩ := h.sub_of_live ha hb
  have hhas := has_of_reaches (hc i) (hbr.2 i) (child_ne_nil hbr i) hk hbk
  obtain ⟨hag, hd⟩ := hfit.2.2.2.1 i _ hhas
  refine ⟨hfit.1, ((and_bit_eq_iff hfit.1 _).mpr hag).symm, ?_⟩
  rw [BitVec.and_comm, ← hd]
  exact dirOf_bit hfit.1 _

theorem Inv.wellFormed (h : Inv m g) : WellFormed m where
  bit := by
    intro a ha hb
    obtain ⟨c, b, hfit, -⟩ := h.sub_of_live ha hb
    obtain ⟨hlt, hbit, -⟩ := bits_ok_iff.mp hfit.1
    exact ⟨_, hlt, hbit⟩
  children := by
    intro a i ha hb h0
    obtain ⟨c, b, -, hbr, hc⟩ := h.sub_of_live ha hb
    exact child_ne_nil hbr i ((rep_zero_iff (hc i)).mp h0)
  path := by
    intro a k ha hb hk hbk
    cases hk with
    | refl => exact absurd hbk hb
    | @child _ _ n ch i hp hr =>
        cases (cell_node ha.1 hb).symm.trans hp
        exact (h.leaf_below ha hb hr hbk).2.1
  keys := by
    intro a i k ha hb hk hbk
    exact (h.leaf_below ha hb hk hbk).2.2
  increasing := by
    intro a i ha hb hbi
    obtain ⟨u, hu, hrep⟩ := h.rep.reaches ha.2
    have hmem := hrep.mem (mt (rep_zero_iff hrep).mpr ha.1)
    have hl : g.Linked m.malloced a := by
      refine h.tree_linked ?_
      rw [Multiset.mem_add] at hmem ⊢
      exact hmem.imp hu.mem_nodes hu.mem_leaves
    obtain ⟨hok, hc⟩ := h.closed a hl hb
    obtain ⟨hok', -⟩ := h.closed _ (hc i).1 hbi
    exact bit_lt hok hok' ((hc i).2 hbi)

/-! ## History independence -/

/-- The same nesting of nodes and slots, with the same contents, at whatever addresses. -/
inductive SameTree (m m' : Mem) : Addr → Addr → Prop
  | null : SameTree m m' 0 0
  | leaf {k k' : Addr} (hk : k ≠ 0) (hk' : k' ≠ 0) (hb : (m.node k).bit = 0) (hb' : (m'.node k').bit = 0)
      (hkey : (m.node k).path = (m'.node k').path) (hvalue : (m.node k).child 0 = (m'.node k').child 0) :
      SameTree m m' k k'
  | node {a a' : Addr} (ha : a ≠ 0) (ha' : a' ≠ 0) (hb : (m.node a).bit ≠ 0)
      (hbit : (m.node a).bit = (m'.node a').bit) (hpath : (m.node a).path = (m'.node a').path)
      (hc : ∀ i, SameTree m m' ((m.node a).child i) ((m'.node a').child i)) : SameTree m m' a a'

end Ptok.Critbit
