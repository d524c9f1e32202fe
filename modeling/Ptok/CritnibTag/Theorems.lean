import Ptok.Critnib.Theorems
import Ptok.CritnibTag.Lemmas

/-!
# critnib and critnib_tag side by side

The same calls on a new structure of each. Nothing in the two files but the map that their trees stand for
decides what they return.
-/

namespace Ptok.CritnibTag

open Lib Critnib

/-- The walk along the key meets an empty slot of a node. -/
def MeetsNull (m : Mem) (key : Word) : Prop := m.root ≠ .null ∧ (dive key 17 m.root).eval m.load = .ok .null

/-- Where a call of critnib_tag has no trouble: the walk of a remove does not meet an empty slot, and the sum of a
reader with `remove_count` does not wrap around. -/
def Fine (m : Mem) : Op → Prop
  | .insert _ _ => True
  | .remove key => ¬ MeetsNull m key
  | .get _ => m.removeCount.toNat < 2 ^ 64 - 16
  | .findLe _ => m.removeCount.toNat < 2 ^ 64 - 16

/-- So is every call of the sequence. No allocation fails. -/
def AllFine : Mem → List Op → Prop
  | _, [] => True
  | m, op :: ops =>
    Fine m op ∧ ∀ r m', Returns (Critnib.call (fun _ => true) op m) (r, m') → AllFine m' ops

/-- Call by call both return, and they return the same. -/
inductive Agrees : Mem → Mem → List Op → Prop
  | nil (m mt : Mem) : Agrees m mt []
  | cons {m m' mt mt' : Mem} {op : Op} {ops : List Op} {r : Ret}
      (hr : Returns (Critnib.call (fun _ => true) op m) (r, m')) (ht : Returns (call (fun _ => true) op mt) (r, mt'))
      (h : Agrees m' mt' ops) : Agrees m mt (op :: ops)

/-- Two structures for the same map. -/
def Sim (m mt : Mem) : Prop :=
  ∃ g gt, Quiet m g ∧ Quiet mt gt ∧ g.tree.map = gt.tree.map ∧ m.removeCount = mt.removeCount

theorem meetsNull_iff {m : Mem} {g : Ghost} (h : Quiet m g) (key : Word) :
    MeetsNull m key ↔ g.tree ≠ .nil ∧ Tree.focus (Coding.along nibs key) g.tree = .nil := by
  obtain ⟨n, hd, hrep⟩ := dive_eval key 17 h.rep h.fits (by have := h.height_le; omega)
  rw [MeetsNull, Ne, rep_null_iff h.rep, hd, ← rep_null_iff hrep]
  simp

variable {m m' mt mt' : Mem} {op : Op} {r r' : Ret}

/-- A fine call returns the same on both sides and leaves two structures for the same map. -/
theorem Sim.step (h : Sim m mt) (hf : Fine m op) :
    ∃ r m' mt', Returns (Critnib.call (fun _ => true) op m) (r, m') ∧ Returns (call (fun _ => true) op mt) (r, mt') ∧
      Sim m' mt' := by
  obtain ⟨g, gt, hq, hqt, hmap, hcount⟩ := h
  have hshape := T.sameShape hq.wf hqt.wf hmap
  cases op with
  | insert key value =>
      obtain ⟨r, m', g', hr, hq', hc, ha, hall⟩ := insert_returns hq (fun _ => true) key value
      obtain ⟨rt, mt', gt', ht, hqt', hct, hat, hallt⟩ := insert_returns hqt (fun _ => true) key value
      obtain ⟨hl, hn⟩ := hall fun _ => rfl
      obtain ⟨hlt, hnt⟩ := hallt fun _ => rfl
      rw [hl, hn, hmap] at ha
      rw [hlt, hnt] at hat
      obtain ⟨rfl, hmap'⟩ := ha.unique hat
      exact ⟨r, m', mt', hr, ht, g', gt', hq', hqt', hmap', by rw [hc, hct, hcount]⟩
  | remove key =>
      obtain ⟨r, m', g', hr, hq', hc, ha⟩ := Critnib.remove_returns hq (fun _ => true) key true true
      obtain ⟨rt, mt', gt', ht, hqt', hct, hat⟩ := Critnib.remove_returns hqt (fun _ => true) key true true
      rw [hmap] at ha
      obtain ⟨rfl, hmap'⟩ := ha.unique hat
      have hwalk : gt.tree = .nil ∨ Tree.focus (Coding.along nibs key) gt.tree ≠ .nil := by
        have hf : ¬ MeetsNull m key := hf
        rw [meetsNull_iff hq, focus_along_nil_iff hshape] at hf
        have hnil := nil_iff hshape
        tauto
      have hroot : m.root = .null ↔ mt.root = .null := by
        rw [rep_null_iff hq.rep, rep_null_iff hqt.rep, nil_iff hshape]
      exact ⟨r, m', mt', hr, remove_returns hqt _ hwalk ht, g', gt', hq', hqt', hmap', by simp only [hc, hct, hcount, hroot]⟩
  | get key =>
      have ht := get_returns hqt.toInv (fun _ => true) key (by rw [← hcount]; exact hf)
      rw [← hmap] at ht
      exact ⟨_, m, mt, get_returns hq.toInv _ key hf, ht, g, gt, hq, hqt, hmap, hcount⟩
  | findLe key =>
      have ht := findLe_returns hqt (fun _ => true) key (by rw [← hcount]; exact hf)
      rw [← leVal_eq hshape, ← call_findLe_eq] at ht
      exact ⟨_, m, mt, findLe_returns hq _ key hf, ht, g, gt, hq, hqt, hmap, hcount⟩

/-- A call that returns on both sides is fine. -/
theorem Sim.fine (h : Sim m mt) (hr : Returns (Critnib.call (fun _ => true) op m) (r, m'))
    (ht : Returns (call (fun _ => true) op mt) (r', mt')) : Fine m op := by
  obtain ⟨g, gt, hq, hqt, hmap, hcount⟩ := h
  cases op with
  | insert key value => trivial
  | remove key =>
      show ¬ MeetsNull m key
      rw [meetsNull_iff hq]
      rintro ⟨hne, hnil⟩
      have hshape := T.sameShape hq.wf hqt.wf hmap
      obtain ⟨N, hN⟩ := ht
      have hstuck := remove_stuck hqt (fun _ => true) (fun hnilt => hne ((nil_iff hshape).mpr hnilt))
        ((focus_along_nil_iff hshape).mp hnil) (show gt.tree.height + 1 < N + gt.tree.height + 2 by omega)
      cases (hN _ (by omega)).symm.trans hstuck
  | get key =>
      show m.removeCount.toNat < 2 ^ 64 - 16
      by_contra hc
      exact (get_diverges hq.toInv _ key (not_lt.mp hc)).not_returns _ hr
  | findLe key =>
      show m.removeCount.toNat < 2 ^ 64 - 16
      by_contra hc
      exact (findLe_diverges hq _ key (not_lt.mp hc)).not_returns _ hr

theorem Sim.agrees_iff {ops : List Op} (h : Sim m mt) : Agrees m mt ops ↔ AllFine m ops := by
  induction ops generalizing m mt with
  | nil => exact ⟨fun _ => trivial, fun _ => .nil m mt⟩
  | cons op ops ih =>
      constructor
      · rintro (_ | ⟨hr, ht, hrest⟩)
        have hf := h.fine hr ht
        obtain ⟨r', m₁, mt₁, hr', ht', hsim⟩ := h.step hf
        cases hr.unique hr'
        cases ht.unique ht'
        refine ⟨hf, fun r'' m'' hr'' => ?_⟩
        cases hr.unique hr''
        exact (ih hsim).mp hrest
      · rintro ⟨hf, hrest⟩
        obtain ⟨r, m', mt', hr, ht, hsim⟩ := h.step hf
        exact .cons hr ht ((ih hsim).mpr (hrest r m' hr))

theorem sim_new (node node' : Addr → Node) (leaf leaf' : Addr → Leaf) :
    Sim (critnibNew node leaf) (critnibNew node' leaf') :=
  ⟨.new, .new, quiet_new node leaf, quiet_new node' leaf', rfl, rfl⟩

/-- critnib_tag answers as critnib does exactly as long as no remove walks into an empty slot and no reader comes
too late. -/
theorem critnibTag_agrees_iff (node node' : Addr → Node) (leaf leaf' : Addr → Leaf) (ops : List Op) :
    Agrees (critnibNew node leaf) (critnibNew node' leaf') ops ↔ AllFine (critnibNew node leaf) ops :=
  (sim_new node node' leaf leaf').agrees_iff

/-- The structure with two keys that test.c builds: the first nibbles differ, and the root is a node. -/
def pair : Mem :=
  storeAll (single 0xdf19b817a2a574f0 1)
    ([.mallocLeaf true, .key 2 0xc624b394880c9216, .value 2 2, .mallocNode true] ++
      (List.finRange 16).map (fun i => .slot (.child (.node 0) i) .null) ++
      [.slot (.child (.node 0) 12) (.leaf 2), .slot (.child (.node 0) 13) (.leaf 1), .shift (.node 0) 60,
        .path (.node 0) 0, .slot .root (.node 0)])

theorem pair_returns :
    Returns (Critnib.call (fun _ => true) (.insert 0xc624b394880c9216 2) (single 0xdf19b817a2a574f0 1))
      (.errno .ok, pair) := by
  refine ⟨1, fun fuel hf => ?_⟩
  obtain ⟨fuel, rfl⟩ := Nat.exists_eq_succ_of_ne_zero (by omega : fuel ≠ 0)
  rfl

theorem pair_meetsNull : MeetsNull pair 0xb2dfb9f1c6c36aa2 := ⟨fun h => (by cases h), rfl⟩

/-- The calls of test.c. -/
theorem critnibTag_remove_absent :
    ¬ Agrees (critnibNew (fun _ => ⟨fun _ => .null, 0, 0⟩) fun _ => ⟨0, 0⟩)
        (critnibNew (fun _ => ⟨fun _ => .null, 0, 0⟩) fun _ => ⟨0, 0⟩)
        [.insert 0xdf19b817a2a574f0 1, .insert 0xc624b394880c9216 2, .remove 0xb2dfb9f1c6c36aa2] := by
  rw [(sim_new _ _ _ _).agrees_iff]
  rintro ⟨-, h⟩
  obtain ⟨-, h⟩ := h _ _ (single_returns _ _)
  obtain ⟨hf, -⟩ := h _ _ pair_returns
  exact hf pair_meetsNull

end Ptok.CritnibTag
