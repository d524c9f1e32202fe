import Ptok.Critnib.Concurrent.Get
import Ptok.Critnib.Concurrent.Linear

/-!
# The life of a node

A reader that holds a node loads its slots one after another. As long as the node is in the tree, each load says
something about the map of that moment. A node that has left the tree is not written any more, so a later load says
something about the map of the last moment at which it was there; by then it had a single child.
-/

namespace Ptok.Critnib

open Lib

variable {m : Mem} {g g' : Ghost} {e : Event} {c : ℕ} {a k : Addr} {p q : Ptr}

/-- All slots but one are empty. -/
def Mem.Alone (m : Mem) (a : Addr) : Prop := ∃ o, ∀ i ≠ o, (m.node a).child i = .null

/-- A node leaves the tree when it has a single child. -/
theorem Step.alone (hs : Step m g e g') (h : Inv m g) (ha : g.InTree (.node a)) (ha' : ¬ g'.InTree (.node a)) :
    m.Alone a := by
  obtain ⟨d, -, hpark⟩ := (hs.inTree h ha).resolve_left ha'
  have hpn : .node a ∈ ptrOwn (g'.pn d) := by
    refine (Multiset.mem_add.mp hpark).resolve_right fun hl => ?_
    obtain ⟨k, ⟨⟩⟩ := leafOwn_isLeaf hl
  -- it was not parked before
  have hout : .node a ∉ ptrOwn (g.pn d) := fun hp => (h.parked_out (Multiset.mem_add.mpr (Or.inl hp))).1 ha
  cases hs with
  | draw =>
      by_cases hd : d = m.del
      · subst hd
        simp [ptrOwn] at hpn
      · exact absurd (by simpa [Function.update_of_ne hd] using hpn) hout
  | @collapse key a' hdr c o d' hfoc hempty ho honly hd hpn' =>
      by_cases he : d = d'
      · subst he
        obtain rfl : a = a' := by simpa [ptrOwn] using hpn
        obtain ⟨q, -, hq⟩ := Rep.focus (Coding.toParent nibs key) (h := m.heap) (s := .root) h.rep rfl
        rw [hfoc] at hq
        obtain ⟨_, rfl, ⟨⟩, -, hc⟩ := rep_node.mp hq
        exact ⟨o, fun i hi => rep_nil.mp (honly i hi ▸ hc i)⟩
      · exact absurd (by simpa [Function.update_of_ne he] using hpn) hout
  | _ => exact absurd hpn hout

/-! ## A reader's round -/

/-- The stores from moment `i` on to moment `n`, for a reader that saw the number `c`. -/
structure Within (c : ℕ) (mem : ℕ → Mem) (gh : ℕ → Ghost) (i n : ℕ) : Prop where
  step : ∀ t, i ≤ t → t < n → ∃ e, Step (mem t) (gh t) e (gh (t + 1)) ∧ mem (t + 1) = (mem t).store e ∧
    InLife c (mem t) e
  inv : ∀ t, i ≤ t → t ≤ n → Inv (mem t) (gh t)
  fed : ∀ t, i ≤ t → t ≤ n → Coding.Fed (gh t).tree
  count : ∀ t, i ≤ t → t ≤ n → c ≤ (mem t).removeCount.toNat

/-- What has left the tree is parked, and its slot will not be drawn. -/
def Gone (c : ℕ) (m : Mem) (g : Ghost) (p : Ptr) : Prop := ∃ d, Recent c m.removeCount.toNat d ∧ g.Parked d p

theorem Gone.step (h : Gone c m g p) (hs : Step m g e g') (hl : InLife c m e) : Gone c (m.store e) g' p := by
  obtain ⟨d, hd, hp⟩ := h
  obtain ⟨hr, hnd⟩ := hd.step hs hl
  exact ⟨d, hr, (hs.parked hp).resolve_right hnd⟩

theorem Gone.not_inTree (h : Gone c m g p) (hi : Inv m g) : ¬ g.InTree p := by
  obtain ⟨d, -, hp⟩ := h
  exact (hi.parked_out hp).1

variable {mem : ℕ → Mem} {gh : ℕ → Ghost} {i i' n t : ℕ}

namespace Within

theorem mono (h : Within c mem gh i n) (hi : i ≤ i') : Within c mem gh i' n :=
  ⟨fun t ht => h.step t (hi.trans ht), fun t ht => h.inv t (hi.trans ht), fun t ht => h.fed t (hi.trans ht),
    fun t ht => h.count t (hi.trans ht)⟩

theorem grace (h : Within c mem gh i n) (hp : (gh i).InTree p) (ht : i ≤ t) (hn : t ≤ n) :
    ∃ X, Grace c (mem t) (gh t) X ∧ X p := by
  induction t, ht using Nat.le_induction with
  | base => exact ⟨_, (h.inv i le_rfl hn).grace (h.count i le_rfl hn), Or.inr hp⟩
  | succ t ht ih =>
      obtain ⟨X, hg, hX⟩ := ih (by omega)
      obtain ⟨e, hs, hm, hl⟩ := h.step t ht hn
      rw [hm]
      exact ⟨_, hg.step (h.inv t ht (by omega)) hs hl, Or.inl hX⟩

theorem sameAt (h : Within c mem gh i n) (hp : (gh i).InTree p) (ht : i ≤ t) (hn : t ≤ n) : SameAt (mem i) (mem t) p := by
  induction t, ht using Nat.le_induction with
  | base =>
      cases p with
      | null => trivial
      | node a => exact ⟨rfl, rfl⟩
      | leaf k => rfl
  | succ t ht ih =>
      obtain ⟨X, hg, hX⟩ := h.grace hp ht (by omega)
      obtain ⟨e, hs, hm, hl⟩ := h.step t ht hn
      have hsame := hg.sameAt (h.inv t ht (by omega)) hs hX
      rw [← hm] at hsame
      exact (ih (by omega)).trans hsame

end Within

/-- A node is in the tree up to moment `t` of a round that ends at `n`, and not written after. -/
structure Life (mem : ℕ → Mem) (gh : ℕ → Ghost) (a : Addr) (i n t : ℕ) : Prop where
  start : i ≤ t
  le : t ≤ n
  inTree : ∀ s, i ≤ s → s ≤ t → (gh s).InTree (.node a)
  same : ∀ s, t ≤ s → s ≤ n → (mem s).node a = (mem t).node a
  alone : t = n ∨ (mem t).Alone a

theorem Within.life (h : Within c mem gh i n) (ha : (gh i).InTree (.node a)) (hn : i ≤ n) :
    ∃ t, Life mem gh a i n t := by
  -- by moment `s` it is still there, or it is gone
  have hall : ∀ s, i ≤ s → s ≤ n → (∀ r, i ≤ r → r ≤ s → (gh r).InTree (.node a)) ∨
      Gone c (mem s) (gh s) (.node a) ∧ ∃ t, i ≤ t ∧ t ≤ s ∧ (∀ r, i ≤ r → r ≤ t → (gh r).InTree (.node a)) ∧
        (∀ r, t ≤ r → r ≤ s → (mem r).node a = (mem t).node a) ∧ (mem t).Alone a := by
    intro s hs
    induction s, hs using Nat.le_induction with
    | base =>
        intro _
        refine Or.inl fun r hr hr' => ?_
        rwa [le_antisymm hr' hr]
    | succ s hs ih =>
        intro hsn
        have hinv := h.inv s hs (by omega)
        obtain ⟨e, hstep, hm, hl⟩ := h.step s hs hsn
        have hextend : ∀ t, (∀ r, t ≤ r → r ≤ s → (mem r).node a = (mem t).node a) →
            (mem (s + 1)).node a = (mem s).node a → t ≤ s →
            ∀ r, t ≤ r → r ≤ s + 1 → (mem r).node a = (mem t).node a := by
          intro t hsame hnext hts r hr hr'
          rcases Nat.le_succ_iff.mp hr' with hr' | rfl
          · exact hsame r hr hr'
          · exact hnext.trans (hsame s hts le_rfl)
        rcases ih (by omega) with hin | ⟨hgone, t, hit, hts, hin, hsame, halone⟩
        · have hnow := hin s hs le_rfl
          by_cases hnext : (gh (s + 1)).InTree (.node a)
          · refine Or.inl fun r hr hr' => ?_
            rcases Nat.le_succ_iff.mp hr' with hr' | rfl
            · exact hin r hr hr'
            · exact hnext
          · -- it leaves the tree with this store
            right
            obtain ⟨d, hd, hpark⟩ := (hstep.inTree hinv hnow).resolve_left hnext
            have hrec : Recent c (mem s).removeCount.toNat d :=
              ⟨_, h.count s hs (by omega), le_rfl, by omega, by rw [hd, Mem.del]⟩
            refine ⟨⟨d, by rw [hm]; exact (hrec.step hstep hl).1, hpark⟩, s, hs, by omega, hin, ?_,
              hstep.alone hinv hnow hnext⟩
            refine hextend s (fun r hr hr' => by rw [le_antisymm hr' hr]) ?_ le_rfl
            rw [hm]
            exact hstep.node_eq (hinv.inTree_not_held hnow).1 hnext
        · right
          have hgone' := hgone.step hstep hl
          rw [← hm] at hgone'
          refine ⟨hgone', t, hit, by omega, hin, hextend t hsame ?_ hts, halone⟩
          rw [hm]
          obtain ⟨d, -, hpark⟩ := hgone
          exact hstep.node_eq (hinv.parked_out hpark).2.1 (hgone'.not_inTree (h.inv (s + 1) (by omega) hsn))
  rcases hall n hn le_rfl with hin | ⟨-, t, hit, htn, hin, hsame, halone⟩
  · exact ⟨n, hn, le_rfl, hin, fun s hs hs' => by rw [le_antisymm hs' hs], Or.inl rfl⟩
  · exact ⟨t, hit, htn, hin, hsame, Or.inr halone⟩

/-- What is loaded at some moment was there at an earlier one at which the node was in the tree. -/
theorem Life.child_eq (h : Life mem gh a i n t) {s : ℕ} (hn : s ≤ n) (j : Fin 16) :
    ((mem s).node a).child j = ((mem (min s t)).node a).child j := by
  rcases le_total s t with hst | hst
  · rw [min_eq_left hst]
  · rw [min_eq_right hst, h.same s hst hn]

end Ptok.Critnib
