import Ptok.Lib.Steps
import Ptok.Critnib.Concurrent.Pred

/-!
# Lookups end

As long as fewer than 16 numbers are drawn during a lookup, it makes one round, and every node that it comes to is
deeper than the one before, in whatever state of the tree it found them. So it ends after a bounded number of its own
loads, whatever the writers do and wherever they stop.
-/

namespace Ptok.Critnib

open Lib

attribute [local instance] keyOrder

variable {m : Mem} {g g' : Ghost} {key : Word} {a b : Addr} {d : Fin 16} {p : Ptr} {c i j n s t fuel v : ℕ}
  {mem : ℕ → Mem} {gh : ℕ → Ghost} {r : Except Stuck ℕ}

/-! ## Levels -/

/-- How many levels are above a node at least. -/
def Mem.pos (m : Mem) (a : Addr) : ℕ := nibs.pos ⟨(m.node a).path, (m.node a).shift⟩

theorem Inv.pos_child (h : Inv m g) (ha : g.InTree (.node a)) (hb : (m.node a).child d = .node b) : m.pos a < m.pos b := by
  obtain ⟨u, hsub, hrep⟩ := h.sub_of_node ha
  obtain ⟨b', -, hfit⟩ := h.fits.sub hsub
  have hrep := hrep d
  have hfit := hfit.2.2.2.2 d
  rw [hb] at hrep
  generalize u d = w at hrep hfit
  cases w with
  | nil => cases hrep
  | leaf q l => obtain ⟨_, ⟨⟩, -⟩ := rep_leaf.mp hrep
  | node q x ch =>
      obtain ⟨_, ⟨⟩, rfl, rfl, -⟩ := rep_node.mp hrep
      exact hfit.2.1

theorem Inv.pos_lt (h : Inv m g) (ha : g.InTree (.node a)) : m.pos a < 16 := nibs_pos_lt (h.ok_of_inTree ha)

theorem SameAt.pos {m' : Mem} (h : SameAt m m' (.node a)) : m'.pos a = m.pos a := by
  unfold Mem.pos
  rw [h.1, h.2]

/-- The child that a reader loads was in the tree at some moment since, deeper than the node. -/
theorem Life.child_deeper (h : Life mem gh a i n t) (hw : Within c mem gh i n) (hi : i ≤ s) (hn : s ≤ n) (d : Fin 16) :
    (((mem s).node a).child d = .null ∨ (gh (min s t)).InTree (((mem s).node a).child d)) ∧
      ∀ b, ((mem s).node a).child d = .node b → (mem i).pos a < (mem (min s t)).pos b := by
  have hu := h.min_le hi
  have hun : min s t ≤ n := (Nat.min_le_left s t).trans hn
  have hin := h.inTree _ hu (Nat.min_le_right s t)
  have hinv := hw.inv _ hu hun
  rw [h.child_eq hn]
  refine ⟨hinv.inTree_child hin d, fun b hb => ?_⟩
  rw [← (hw.sameAt (h.inTree i le_rfl h.start) hu hun).pos]
  exact hinv.pos_child hin hb

/-- So much fuel is enough below a pointer. -/
def Enough (levels : ℕ) (m : Mem) (p : Ptr) (fuel : ℕ) : Prop := 0 < fuel ∧ ∀ a, p = .node a → levels < m.pos a + fuel

/-! ## critnib_get -/

/-- A lookup has come to an end: with a value, or with the `NULL` that `find_successor` may follow. -/
def Ended (r : Except Stuck ℕ) : Prop := (∃ v, r = .ok v) ∨ r = .error .nullDeref

theorem Ended.ret (v : ℕ) : Ended (.ok v) := Or.inl ⟨v, rfl⟩

theorem firstChild_ok {is : List (Fin 16)} {r : Except Stuck (Option (Fin 16))}
    (hx : Prog.Timed Mem.load mem i (firstChild (.node a) is) r j) : ∃ o, r = .ok o := by
  induction is generalizing i with
  | nil => exact ⟨_, hx.of_ret⟩
  | cons d is ih =>
      rw [firstChild, loadChild_node] at hx
      obtain ⟨s, -, hx⟩ := hx.of_get_bind
      split at hx
      · exact ih hx
      · exact ⟨_, hx.of_ret⟩

theorem findSuccessor_null (hx : Prog.Timed Mem.load mem i (findSuccessor fuel .null) r j) (hf : 0 < fuel) :
    r = .error .nullDeref := by
  obtain ⟨fuel, rfl⟩ := Nat.exists_eq_succ_of_ne_zero hf.ne'
  exact hx.of_ret

theorem value_ended {k : Addr} (hx : Prog.Timed Mem.load mem i (load (.value k)) r j) : Ended r := by
  obtain ⟨_, -, -, hr⟩ := hx.of_load
  exact Or.inl ⟨_, hr⟩

theorem findSuccessor_ends (hw : Within c mem gh i n) (ha : (gh i).InTree (.node a)) (hf : 16 < (mem i).pos a + fuel)
    (hj : j ≤ n) (hx : Prog.Timed Mem.load mem i (findSuccessor fuel (.node a)) r j) : Ended r := by
  induction fuel generalizing a i with
  | zero =>
      have := (hw.inv i le_rfl (hx.le.trans hj)).pos_lt ha
      omega
  | succ fuel ih =>
      have hlt := (hw.inv i le_rfl (hx.le.trans hj)).pos_lt ha
      obtain ⟨t, hl⟩ := hw.life ha (hx.le.trans hj)
      rw [findSuccessor] at hx
      rcases hx.bind with ⟨o, s, hfirst, hnext⟩ | ⟨e, hfirst, -⟩
      · have his := hfirst.le
        cases o with
        | none =>
            rw [hnext.of_ret]
            exact .ret _
        | some d =>
            simp only [loadChild_node] at hnext
            obtain ⟨s', hss', hnext⟩ := hnext.of_get_bind
            have his' := his.trans hss'
            obtain ⟨hin, hdeep⟩ := hl.child_deeper hw his' (hnext.le.trans hj) d
            cases hchild : ((mem s').node a).child d with
            | null =>
                simp only [Mem.load, hchild] at hnext
                exact Or.inr (findSuccessor_null hnext (by omega))
            | leaf k =>
                simp only [Mem.load, hchild] at hnext
                exact value_ended hnext
            | node b =>
                simp only [Mem.load, hchild] at hnext
                rw [hchild] at hin
                have := hdeep b hchild
                exact ih (hw.mono (hl.min_le his')) (hin.resolve_left (by simp)) (by omega)
                  (hnext.start (Nat.min_le_left s' t))
      · obtain ⟨o, ho⟩ := firstChild_ok hfirst
        cases ho

theorem findLeft_ends (hw : Within c mem gh i n) (ha : (gh i).InTree (.node a)) (hf : 15 < (mem i).pos a + fuel)
    {is : List (Fin 16)} {s : ℕ} (hi : i ≤ s) (hj : j ≤ n)
    (hx : Prog.Timed Mem.load mem s (findLeft fuel (.node a) is) r j) : Ended r := by
  induction is generalizing s with
  | nil =>
      rw [hx.of_ret]
      exact .ret _
  | cons d is ih =>
      obtain ⟨t, hl⟩ := hw.life ha (hi.trans (hx.le.trans hj))
      rw [findLeft, loadChild_node] at hx
      obtain ⟨s', hss', hx⟩ := hx.of_get_bind
      have his' := hi.trans hss'
      obtain ⟨hin, hdeep⟩ := hl.child_deeper hw his' (hx.le.trans hj) d
      cases hchild : ((mem s').node a).child d with
      | null =>
          simp only [Mem.load, hchild] at hx
          exact ih his' hx
      | leaf k =>
          simp only [Mem.load, hchild] at hx
          exact value_ended hx
      | node b =>
          simp only [Mem.load, hchild] at hx
          rw [hchild] at hin
          have := hdeep b hchild
          exact findSuccessor_ends (hw.mono (hl.min_le his')) (hin.resolve_left (by simp)) (by omega) hj
            (hx.start (Nat.min_le_left s' t))

theorem findLe_ends (hw : Within c mem gh i n) (hp : p = .null ∨ (gh i).InTree p) (hf : Enough 17 (mem i) p fuel) (hj : j ≤ n)
    (hx : Prog.Timed Mem.load mem i (findLe key fuel p) r j) : Ended r := by
  induction fuel generalizing p i j r with
  | zero => exact absurd hf.1 (lt_irrefl 0)
  | succ fuel ih =>
      cases p with
      | null =>
          rw [hx.of_ret]
          exact .ret _
      | leaf k =>
          obtain ⟨s, -, hx⟩ := hx.of_get_bind
          split at hx
          · exact value_ended hx
          · rw [hx.of_ret]
            exact .ret _
      | node a =>
          have ha := hp.resolve_left (by simp)
          have hpos := hf.2 a rfl
          have hlt := (hw.inv i le_rfl (hx.le.trans hj)).pos_lt ha
          obtain ⟨t, hl⟩ := hw.life ha (hx.le.trans hj)
          obtain ⟨s₁, h₁, hx⟩ := hx.of_get_bind
          obtain ⟨s₂, h₂, hx⟩ := hx.of_get_bind
          split at hx
          · obtain ⟨s₃, h₃, hx⟩ := hx.of_get_bind
            split at hx
            · exact findSuccessor_ends hw ha (by omega) hj (hx.start ((h₁.trans h₂).trans h₃))
            · rw [hx.of_ret]
              exact .ret _
          · obtain ⟨s₃, h₃, hx⟩ := hx.of_get_bind
            obtain ⟨s, h₄, hx⟩ := hx.of_get_bind
            have his := ((h₁.trans h₂).trans h₃).trans h₄
            obtain ⟨hin, hdeep⟩ :=
              hl.child_deeper hw his (hx.le.trans hj) (sliceIndex key (Mem.load (mem s₃) (.shift a)))
            have hends : ∀ {r' j'}, j' ≤ j → Prog.Timed Mem.load mem s
                (findLe key fuel (((mem s).node a).child (sliceIndex key (Mem.load (mem s₃) (.shift a))))) r' j' →
                Ended r' := by
              intro r' j' hj' hpath
              refine ih (hw.mono (hl.min_le his)) hin ⟨by omega, fun b hb => ?_⟩ (hj'.trans hj)
                (hpath.start (Nat.min_le_left s t))
              have := hdeep b hb
              omega
            rcases hx.bind with ⟨value, s', hpath, hnext⟩ | ⟨e, hpath, rfl⟩
            · split at hnext
              · rw [hnext.of_ret]
                exact .ret _
              · exact findLeft_ends hw ha (by omega) (his.trans hpath.le) hj hnext
            · exact (hends le_rfl hpath).imp (fun ⟨v, hv⟩ => by cases hv) fun he => by cases he; rfl

theorem findLeLookup_ends (hw : Within c mem gh i n) (hf : 17 < fuel) (hj : j ≤ n)
    (hx : Prog.Timed Mem.load mem i (findLeLookup key fuel) r j) : Ended r := by
  obtain ⟨s, his, hx⟩ := hx.of_get_bind
  have hroot := (hw.inv s his (hx.le.trans hj)).inTree_root
  split at hx
  · rw [hx.of_ret]
    exact .ret _
  · exact findLe_ends (hw.mono his) hroot ⟨by omega, fun _ _ => by omega⟩ hj hx

/-! ## Loads of one round -/

open Prog (AtMost)

theorem dive_atMost : (dive key fuel p).AtMost (2 * fuel) := by
  induction fuel generalizing p with
  | zero => exact .ret _
  | succ fuel ih =>
      cases p with
      | null => exact .ret _
      | leaf k => exact .ret _
      | node a => exact AtMost.get_bind fun shift => AtMost.get_bind fun n => ih

variable {ok : ℕ → Bool} {ops : List Op} {log l rest : List Event} {node : Addr → Node} {leaf : Addr → Leaf}

/-- A round among few stores is not repeated. -/
theorem untilFresh_once {q : R ℕ} {s : List (Act Loc Event)} (hx : Prog.Exec Mem.load m s (untilFresh q (fuel + 1)) r)
    (hp : Path m g (stores s) g') (hfew : draws (stores s) < 16)
    (hb : m.removeCount.toNat + draws (stores s) < 2 ^ 64 - 16) :
    ∃ l s₁ s₂, s = l.map .store ++ .load .removeCount :: (s₁ ++ s₂) ∧
      Prog.Exec Mem.load (storeAll m l) s₁ q r ∧ s₂.length ≤ (stores s₂).length + 1 := by
  obtain ⟨l, s', rfl, hx'⟩ := hx.of_get_bind
  obtain ⟨s₁, s₂, r₁, rfl, hround, hrest⟩ := hx'.bind
  refine ⟨l, s₁, s₂, rfl, ?_⟩
  cases r₁ with
  | error e =>
      obtain ⟨rfl, hs⟩ := Prog.Exec.of_ret hrest
      rw [Prog.eq_map_store hs]
      exact ⟨hround, by simp⟩
  | ok v =>
      obtain ⟨l', s₃, rfl, hlast⟩ := Prog.Exec.of_get_bind hrest
      simp only [stores_append, Prog.stores_map_store, stores_load, draws_append] at hp hfew hb
      obtain ⟨g₁, hp₁, hp⟩ := hp.split
      obtain ⟨g₂, hp₂, hp⟩ := hp.split
      obtain ⟨g₃, hp₃, -⟩ := hp.split
      have hcount₁ := hp₁.removeCount (by omega)
      have hcount₂ := hp₂.removeCount (by omega)
      have hcount₃ := hp₃.removeCount (by omega)
      have hadd : ((storeAll m l).removeCount + DELETED_LIFE).toNat = (storeAll m l).removeCount.toNat + 16 := by
        rw [BitVec.toNat_add]
        exact Nat.mod_eq_of_lt (by simp; omega)
      have hfresh : ¬ (storeAll m l).load .removeCount + DELETED_LIFE ≤
          (storeAll (storeAll (storeAll m l) (stores s₁)) l').load .removeCount := by
        simp only [Mem.load]
        rw [BitVec.le_def, hadd]
        omega
      rw [if_neg hfresh] at hlast
      obtain ⟨rfl, hs⟩ := Prog.Exec.of_ret hlast
      refine ⟨hround, ?_⟩
      rw [Prog.eq_map_store hs]
      simp
      omega

/-- What comes between two moments of a run, when few numbers are drawn. -/
theorem Writes.within (hw : Writes ok (critnibNew node leaf) ops (l ++ log ++ rest))
    (hops : ops.countP Op.IsRemove < 2 ^ 64 - 16) (hfew : draws log < 16) :
    ∃ gh, Within (storeAll (critnibNew node leaf) l).removeCount.toNat
        (fun t => storeAll (critnibNew node leaf) (l ++ log.take t)) gh 0 log.length ∧
      ((∀ op ∈ ops, op.NonNull) → ∀ t y, maps gh t y ≠ some NULL) := by
  obtain ⟨gh, hm, hnull⟩ := hw.moments hops
  refine ⟨gh, hm.within le_rfl (by simp) ?_, hnull⟩
  obtain ⟨g', hp⟩ := (quiet_new node leaf).path hw
  have hdraws := hw.draws_le
  simp only [draws_append] at hdraws
  obtain ⟨g₂, hp, -⟩ := hp.split
  obtain ⟨g₁, hp₁, hp₂⟩ := hp.split
  have hzero : (critnibNew node leaf).removeCount.toNat = 0 := rfl
  have hcount₁ := hp₁.removeCount (by omega)
  have hcount₂ := hp₂.removeCount (by omega)
  rw [List.take_length, storeAll_append, hcount₂]
  omega

/-- A lookup among few stores: it ends well if its round does, with the loads of one round. -/
theorem Writes.once {q : R ℕ} {good : Except Stuck ℕ → Prop} {s : List (Act Loc Event)}
    (hw : Writes ok (critnibNew node leaf) ops (l ++ stores s ++ rest)) (hops : ops.countP Op.IsRemove < 2 ^ 64 - 16)
    (hfew : draws (stores s) < 16) (hq : q.AtMost n)
    (hgood : ∀ {c mem gh n r}, Within c mem gh 0 n → Prog.Timed Mem.load mem 0 q r n → good r)
    (hx : Prog.Exec Mem.load (storeAll (critnibNew node leaf) l) s (untilFresh q (fuel + 1)) r) :
    good r ∧ s.length ≤ (stores s).length + (n + 2) := by
  have hnew := quiet_new node leaf
  obtain ⟨g', hp⟩ := hnew.path hw
  have hdraws := hw.draws_le
  simp only [draws_append] at hdraws
  obtain ⟨g₂, hp, -⟩ := hp.split
  obtain ⟨g₁, hp₁, hp₂⟩ := hp.split
  have hzero : (critnibNew node leaf).removeCount.toNat = 0 := rfl
  have hcount := hp₁.removeCount (by omega)
  obtain ⟨l₁, s₁, s₂, rfl, hround, hlast⟩ := untilFresh_once hx hp₂ hfew (by omega)
  have hlen := hround.length_le hq
  simp only [stores_append, Prog.stores_map_store, stores_load, draws_append] at hw hfew
  refine ⟨?_, by simp; omega⟩
  have hsplit : l ++ (l₁ ++ (stores s₁ ++ stores s₂)) ++ rest = (l ++ l₁) ++ stores s₁ ++ (stores s₂ ++ rest) := by
    simp
  obtain ⟨gh, hwithin, -⟩ := (hsplit ▸ hw).within hops (by omega)
  refine hgood hwithin ?_
  have htimed : Prog.Timed Mem.load (fun t => storeAll (critnibNew node leaf) (l ++ l₁ ++ (stores s₁).take t)) 0 q r
      (0 + (stores s₁).length) :=
    hround.timed fun k _ => by rw [Nat.zero_add, storeAll_append, storeAll_append]
  rwa [Nat.zero_add] at htimed

variable {ι : Type} [DecidableEq ι] {ps ps' : ι → R ℕ} {before during : List (Sys.Act ι Event Loc Loc.Val ℕ)} {k : ι}

end Ptok.Critnib
