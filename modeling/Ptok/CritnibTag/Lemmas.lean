import Ptok.Critnib.Calls
import Ptok.CritnibTag.Model

/-!
# The functions of critnib_tag against those of critnib

Where the walk of a remove does not end in an empty slot, the two files do the same.
-/

namespace Ptok.CritnibTag

open Lib Critnib

variable {m : Mem} {g : Ghost}

/-! ## Remove -/

/-- The two loops, if the walk ends at a leaf. -/
theorem removeDive_of_some {key : Word} {r : Slot Ptr (Fin 16) × Ptr × Addr} (fuel : ℕ) {kParent nParent : Slot Ptr (Fin 16)}
    {n kn : Ptr} (h : Critnib.removeDive m key fuel kParent nParent n kn = .ok (some r)) :
    removeDive m key fuel kParent nParent n kn = .ok r := by
  induction fuel generalizing kParent nParent n kn with
  | zero => cases h
  | succ fuel ih =>
      cases kn with
      | null => cases h
      | leaf k => cases h; rfl
      | node a =>
          simp only [Critnib.removeDive] at h
          split at h
          · cases h
          · exact ih h

/-- critnib's loop notices the empty slot; this one follows it. -/
theorem removeDive_of_none {key : Word} {fuel fuel' : ℕ} (hf : fuel < fuel') {kParent nParent : Slot Ptr (Fin 16)}
    {n kn : Ptr} (h : Critnib.removeDive m key fuel kParent nParent n kn = .ok none) :
    removeDive m key fuel' kParent nParent n kn = .error .nullDeref := by
  induction fuel generalizing fuel' kParent nParent n kn with
  | zero => cases h
  | succ fuel ih =>
      obtain ⟨fuel', rfl⟩ := Nat.exists_eq_succ_of_ne_zero (by omega : fuel' ≠ 0)
      cases kn with
      | null => cases h
      | leaf k => cases h
      | node a =>
          simp only [Critnib.removeDive] at h
          simp only [removeDive]
          split at h
          · rename_i hnull
            obtain ⟨fuel', rfl⟩ := Nat.exists_eq_succ_of_ne_zero (by omega : fuel' ≠ 0)
            rw [hnull]
            rfl
          · exact ih (by omega) h

theorem shrink_of_ok {del : Fin 16} {nParent : Slot Ptr (Fin 16)} {n : Ptr} {k : Addr} {r : ℕ × List Event}
    (h : Critnib.shrink del nParent n k m = .ok r) : shrink del nParent n k m = .ok r := by
  obtain ⟨v, log⟩ := r
  obtain ⟨x, l, l', hx, h', hl⟩ := Wr.bind_ok.mp h
  refine Wr.bind_ok.mpr ⟨x, l, l', hx, ?_, hl⟩
  generalize onlyChild x.child (List.finRange 16) none = o at h'
  rcases o with _ | _ | o
  · exact h'
  · cases h'
  · exact h'

theorem removeLeaf_of_ok {del : Fin 16} {key : Word} {nParent : Slot Ptr (Fin 16)} {n : Ptr} {k : Addr}
    {r : ℕ × List Event} (h : Critnib.removeLeaf del key nParent n k m = .ok r) :
    removeLeaf del key nParent n k m = .ok r := by
  obtain ⟨v, log⟩ := r
  obtain ⟨x, l, l', hx, h', hl⟩ := Wr.bind_ok.mp h
  obtain ⟨_, l₁, l₂, he, hs, hl'⟩ := Wr.bind_ok.mp h'
  exact Wr.bind_ok.mpr ⟨x, l, l', hx, Wr.bind_ok.mpr ⟨(), l₁, l₂, he, shrink_of_ok hs, hl'⟩, hl⟩

/-- A run of `critnib_remove` whose loop ends at a leaf is one of `critnib_tag_remove`. -/
theorem critnibTagRemove_of_ok {key : Word} {fuel : ℕ} {r : ℕ × List Event} (h : critnibRemove fuel key m = .ok r)
    (hw : ∀ del log a, recycle m = .ok (del, log) → m.root = .node a →
      Critnib.removeDive (storeAll m log) key fuel .root .root (.node a) (.node a) ≠ .ok none) :
    critnibTagRemove fuel key m = .ok r := by
  obtain ⟨v, log⟩ := r
  obtain ⟨n, l, l', hn, h₁, hl⟩ := Wr.bind_ok.mp h
  obtain ⟨rfl, rfl⟩ : n = m.root ∧ l = [] := by
    cases hn
    exact ⟨rfl, rfl⟩
  refine Wr.bind_ok.mpr ⟨m.root, [], l', rfl, ?_, hl⟩
  rw [storeAll_nil] at h₁ ⊢
  by_cases hr : m.root = .null
  · rw [if_pos hr] at h₁ ⊢
    exact h₁
  rw [if_neg hr] at h₁ ⊢
  obtain ⟨del, l₁, l₂, hrec, h₂, hl'⟩ := Wr.bind_ok.mp h₁
  refine Wr.bind_ok.mpr ⟨del, l₁, l₂, hrec, ?_, hl'⟩
  cases hroot : m.root with
  | null => exact absurd hroot hr
  | leaf k =>
      rw [hroot] at h₂
      exact h₂
  | node a =>
      rw [hroot] at h₂
      obtain ⟨r, l₃, l₄, hd, h₃, hl''⟩ := Wr.bind_ok.mp h₂
      rw [Wr.query_apply] at hd
      rcases hd' : Critnib.removeDive (storeAll m l₁) key fuel .root .root (.node a) (.node a) with
        e | _ | ⟨nParent, n, k⟩
      · rw [hd'] at hd
        cases hd
      · exact absurd hd' (hw del l₁ a hrec hroot)
      · rw [hd'] at hd
        cases hd
        refine Wr.bind_ok.mpr ⟨(nParent, n, k), [], l₄, ?_, ?_, hl''⟩
        · rw [Wr.query_apply, removeDive_of_some fuel hd']
          rfl
        · obtain ⟨k_, l₅, l₆, hk, h₄, hl₃⟩ := Wr.bind_ok.mp h₃
          refine Wr.bind_ok.mpr ⟨k_, l₅, l₆, hk, ?_, hl₃⟩
          split at h₄
          · rename_i hkey
            rw [if_pos hkey]
            exact h₄
          · rename_i hkey
            rw [if_neg hkey]
            exact removeLeaf_of_ok h₄

theorem call_remove (ok : ℕ → Bool) (key : Word) (m : Mem) :
    call ok (.remove key) m = fun fuel =>
      ((critnibTagRemove fuel key).exec m).map fun r => (Ret.value r.1, r.2) := by
  funext fuel
  simp only [call]
  cases (critnibTagRemove fuel key).exec m <;> rfl

/-- The walk of the remove does not end in an empty slot of a node. -/
theorem remove_returns (h : Quiet m g) (ok : ℕ → Bool) {key : Word}
    (hw : g.tree = .nil ∨ Tree.focus (Coding.along nibs key) g.tree ≠ .nil) {r : Ret × Mem}
    (hr : Returns (Critnib.call ok (.remove key) m) r) : Returns (call ok (.remove key) m) r := by
  obtain ⟨v, log, g', hdo, -⟩ := critnibRemove_spec h key
  have hret := (returns_of_does hdo).map fun r => (Ret.value r.1, r.2)
  rw [Critnib.call_remove] at hr
  cases hr.unique hret
  rw [call_remove]
  refine Returns.map (a := (v, storeAll m log)) ⟨g.tree.height + 1, fun fuel hf => ?_⟩ _
  refine Wr.exec_of_apply (critnibTagRemove_of_ok (hdo fuel hf).run ?_)
  intro del log' a hrec hroot
  obtain ⟨g₁, hdo₁, hq₁, htree⟩ := recycle_spec h
  obtain ⟨dn, nd, dl, lf, hframe⟩ := recycleLog_frame m
  cases hrec.symm.trans hdo₁.run
  have hrep := hq₁.rep
  have hroot₁ : (storeAll m (recycleLog m)).root = m.root := by rw [hframe]
  rw [hroot₁, hroot] at hrep
  cases hfoc : Tree.focus (Coding.along nibs key) g₁.tree with
  | node p n c => exact absurd hfoc (Coding.focus_along_not_node key _)
  | nil =>
      rw [htree] at hfoc
      rcases hw with hnil | hne
      · rw [htree, hnil] at hrep
        cases hrep
      · exact absurd hfoc hne
  | leaf q l =>
      obtain ⟨a', k, -, -, hd, -⟩ := removeDive_leaf key (.node a) .root .root hrep hq₁.fits hfoc
      rw [hd fuel (by rw [htree]; exact hf)]
      simp

/-- It does: `critnib_tag_remove` follows the `NULL` it finds there. -/
theorem remove_stuck (h : Quiet m g) (ok : ℕ → Bool) {key : Word} (hne : g.tree ≠ .nil)
    (hnil : Tree.focus (Coding.along nibs key) g.tree = .nil) {fuel : ℕ} (hf : g.tree.height + 1 < fuel) :
    call ok (.remove key) m fuel = .error .nullDeref := by
  obtain ⟨g₁, hdo₁, hq₁, htree⟩ := recycle_spec h
  obtain ⟨dn, nd, dl, lf, hframe⟩ := recycleLog_frame m
  have hroot₁ : (storeAll m (recycleLog m)).root = m.root := by rw [hframe]
  have hr : m.root ≠ .null := fun hr => hne (rep_null (hr ▸ h.rep))
  have hrep := hq₁.rep
  rw [hroot₁] at hrep
  rw [call_remove]
  have hrun : critnibTagRemove fuel key m = .error .nullDeref := by
    unfold critnibTagRemove
    rw [Wr.bind_apply, Wr.read_apply]
    simp only [Except.bind, storeAll_nil, if_neg hr]
    rw [Wr.bind_apply, hdo₁.run]
    simp only [Except.bind]
    cases hroot : m.root with
    | null => exact absurd hroot hr
    | leaf k =>
        have hleaf := rep_leaf_ptr (hroot ▸ h.rep)
        rw [hleaf] at hnil
        cases hnil
    | node a =>
        rw [hroot] at hrep
        have hd := removeDive_nil key (.node a) .root .root hrep hq₁.fits
          (by rw [htree]; exact Nat.lt_succ_self _) (htree ▸ hnil)
        have := removeDive_of_none hf hd
        simp only
        rw [Wr.bind_apply, Wr.query_apply, this]
        rfl
  simp only [Wr.exec, hrun]
  rfl

/-! ## Readers -/

/-- A child that is there is loaded twice; alone this makes no difference. -/
theorem findLeft_eval_eq (fuel : ℕ) (n : Ptr) (is : List (Fin 16)) :
    (findLeft fuel n is).eval m.load = (Critnib.findLeft fuel n is).eval m.load := by
  induction is with
  | nil => rfl
  | cons i is ih =>
      cases n with
      | null => rfl
      | leaf k => rfl
      | node a =>
          have hload : (loadChild (.node a) i).eval m.load = .ok ((m.node a).child i) := rfl
          rw [findLeft, Critnib.findLeft, Prog.eval_bind_ok hload, Prog.eval_bind_ok hload]
          split
          · rename_i hnull
            rw [hnull]
            exact ih
          · rename_i hne
            rw [Prog.eval_bind_ok hload]
            cases hch : (m.node a).child i with
            | null => exact absurd hch hne
            | leaf k => rfl
            | node a' => rfl

theorem findLe_eval_eq (key : Word) (fuel : ℕ) (n : Ptr) :
    (findLe key fuel n).eval m.load = (Critnib.findLe key fuel n).eval m.load := by
  induction fuel generalizing n with
  | zero => rfl
  | succ fuel ih =>
      cases n with
      | null => rfl
      | leaf k => rfl
      | node a =>
          have hload := fun l => Prog.eval_get m.load l
          rw [findLe, Critnib.findLe, Prog.eval_bind_ok (hload _), Prog.eval_bind_ok (hload _),
            Prog.eval_bind_ok (hload _), Prog.eval_bind_ok (hload _)]
          split
          · rfl
          · rw [Prog.eval_bind_ok (hload _), Prog.eval_bind_ok (hload _)]
            simp only
            rw [Prog.eval_bind_ok (hload _), Prog.eval_bind_ok (hload _), Prog.eval_bind, Prog.eval_bind, ih]
            congr 1
            funext value
            split
            · rfl
            · exact findLeft_eval_eq fuel _ _

theorem untilFresh_congr {lookup lookup' : R ℕ} (h : lookup.eval m.load = lookup'.eval m.load) (fuel : ℕ) :
    (untilFresh lookup fuel).eval m.load = (untilFresh lookup' fuel).eval m.load := by
  induction fuel with
  | zero => rfl
  | succ fuel ih =>
      rw [untilFresh, untilFresh, Prog.eval_get_bind, Prog.eval_get_bind, Prog.eval_bind m.load lookup,
        Prog.eval_bind m.load lookup', h]
      congr 1
      funext res
      rw [Prog.eval_get_bind, Prog.eval_get_bind]
      split
      · exact ih
      · rfl

theorem critnibTagFindLe_eval_eq (key : Word) (fuel : ℕ) :
    (critnibTagFindLe key fuel).eval m.load = (critnibFindLe key fuel).eval m.load := by
  apply untilFresh_congr
  rw [findLeLookup, Prog.eval_get_bind, Prog.eval_get_bind]
  split
  · rfl
  · exact findLe_eval_eq key fuel _

theorem call_findLe_eq (ok : ℕ → Bool) (key : Word) (m : Mem) :
    call ok (.findLe key) m = Critnib.call ok (.findLe key) m := by
  funext fuel
  simp only [call, Critnib.call, critnibTagFindLe_eval_eq]

/-! ## Trees of one shape -/

theorem last_eq {t t' : T} (h : t.SameShape t') : t.last = t'.last := by
  induction t generalizing t' with
  | nil => cases t' <;> first | rfl | exact h.elim
  | leaf p l =>
      cases t' with
      | leaf p' l' => exact congrArg some h
      | _ => exact h.elim
  | node p n c ih =>
      cases t' with
      | node p' n' c' =>
          obtain ⟨-, hc⟩ := h
          simp only [T.last, fun i => ih i (hc i)]
      | _ => exact h.elim

theorem leVal_eq {key : Word} {t t' : T} (h : t.SameShape t') : t.leVal key = t'.leVal key := by
  induction t generalizing t' with
  | nil => cases t' <;> first | rfl | exact h.elim
  | leaf p l =>
      cases t' with
      | leaf p' l' =>
          cases (h : l = l')
          rfl
      | _ => exact h.elim
  | node p n c ih =>
      cases t' with
      | node p' n' c' =>
          have hlast := last_eq h
          obtain ⟨rfl, hc⟩ := h
          simp only [T.leVal, leftLast, hlast, fun i => ih i (hc i), fun i => last_eq (hc i)]
      | _ => exact h.elim

theorem nil_iff {t t' : T} (h : t.SameShape t') : t = .nil ↔ t' = .nil := by
  cases t <;> cases t' <;> first | exact h.elim | simp

theorem focus_along_nil_iff {key : Word} {t t' : T} (h : t.SameShape t') :
    Tree.focus (Coding.along nibs key) t = .nil ↔ Tree.focus (Coding.along nibs key) t' = .nil := by
  induction t generalizing t' with
  | nil => cases t' <;> first | rfl | exact h.elim
  | leaf p l => cases t' <;> first | exact h.elim | exact iff_of_false (by simp [Tree.focus]) (by simp [Tree.focus])
  | node p n c ih =>
      cases t' with
      | node p' n' c' =>
          obtain ⟨rfl, hc⟩ := h
          have hi := ih (nibs.dig key (nibs.pos n)) (hc (nibs.dig key (nibs.pos n)))
          exact hi
      | _ => exact h.elim

end Ptok.CritnibTag
