import Ptok.Critnib.Concurrent.Grace

/-!
# critnib_get among writers

Whatever a reader returns was the map's answer at some moment of the call.
-/

namespace Ptok.Critnib

open Lib

variable {m : Mem} {g g' : Ghost} {key : Word} {W : ℕ → Prop} {c : ℕ} {p : Ptr}

/-- A reader that saw the number `c` stands at a pointer. If nothing were stored any more, it would come to an answer
that was current. -/
structure Stands (c : ℕ) (key : Word) (W : ℕ → Prop) (m : Mem) (g : Ghost) (p : Ptr) : Prop where
  inv : Inv m g
  grace : ∃ X, Grace c m g X ∧ X p
  finds : ∀ r, nibs.Finds m.cell key p r → W (leafVal r)

/-- The two memories agree on what a reader loads at a pointer, but for the children. -/
def SameAt (m m' : Mem) : Ptr → Prop
  | .null => True
  | .node a => (m'.node a).path = (m.node a).path ∧ (m'.node a).shift = (m.node a).shift
  | .leaf k => m'.leaf k = m.leaf k

theorem SameAt.trans {m₁ m₂ m₃ : Mem} {p : Ptr} (h : SameAt m₁ m₂ p) (h' : SameAt m₂ m₃ p) : SameAt m₁ m₃ p := by
  cases p with
  | null => trivial
  | node a => exact ⟨h'.1.trans h.1, h'.2.trans h.2⟩
  | leaf k => exact Eq.trans h' h

theorem Grace.sameAt {X : Ptr → Prop} {e : Event} (hg : Grace c m g X) (h : Inv m g) (hs : Step m g e g') (hp : X p) :
    SameAt m (m.store e) p := by
  by_cases hnull : p = .null
  · subst hnull
    trivial
  obtain ⟨hfn, hfl⟩ := hg.not_held h hp hnull
  cases p with
  | null => exact absurd rfl hnull
  | leaf k => exact hs.leaf_eq hfl
  | node a =>
      rcases hs.relink h with hsame | ⟨sel, u, q, rfl, -⟩
      · have hcell := hsame _ hfn hfl
        simp only [Mem.cell, Cell.node.injEq, Hdr.mk.injEq] at hcell
        exact hcell.1
      · generalize Tree.slotOf sel .root g.tree = s
        rcases s with _ | ⟨_ | b | _, i⟩
        · exact ⟨rfl, rfl⟩
        · exact ⟨rfl, rfl⟩
        · by_cases hab : a = b
          · subst hab
            simp [SameAt, Mem.store, Mem.setNode]
          · simp [SameAt, Mem.store, Mem.setNode, Function.update_of_ne hab]
        · exact ⟨rfl, rfl⟩

/-- The stores of writers during a round that is not repeated: the count stays below `c + 16`. -/
structure Round (c : ℕ) (key : Word) (W : ℕ → Prop) (m : Mem) (g : Ghost) (log : List Event) (g' : Ghost) : Prop where
  path : Path m g log g'
  small : c < 2 ^ 64 - 16
  life : m.removeCount.toNat + draws log ≤ c + 15
  current : ∀ l l', log = l ++ l' → ∀ v, Gives (storeAll m l) key v → W v

theorem Round.split {l l' : List Event} (h : Round c key W m g (l ++ l') g') :
    ∃ g₁, Round c key W m g l g₁ ∧ Round c key W (storeAll m l) g₁ l' g' := by
  obtain ⟨g₁, hp, hp'⟩ := h.path.split
  have hlife := h.life
  have hsmall := h.small
  rw [draws_append] at hlife
  refine ⟨g₁, ⟨hp, hsmall, by omega, fun l₁ l₂ he => h.current l₁ (l₂ ++ l') (by simp [he])⟩, ⟨hp', hsmall, ?_, ?_⟩⟩
  · rw [hp.removeCount (by omega)]
    omega
  · intro l₁ l₂ he v hv
    exact h.current (l ++ l₁) l₂ (by simp [he]) v (by rwa [storeAll_append])

/-- The stores do not disturb the reader. -/
theorem Stands.round {log : List Event} (h : Stands c key W m g p) (hr : Round c key W m g log g') :
    Stands c key W (storeAll m log) g' p ∧ SameAt m (storeAll m log) p := by
  induction log generalizing m g with
  | nil =>
      cases hr.path
      refine ⟨h, ?_⟩
      cases p with
      | null => trivial
      | node a => exact ⟨rfl, rfl⟩
      | leaf k => rfl
  | cons e log ih =>
      obtain ⟨g₁, hr₁, hr₂⟩ := hr.split (l := [e])
      obtain ⟨X, hg, hX⟩ := h.grace
      have hs : Step m g e g₁ := by
        cases hr₁.path with
        | cons hs t =>
            cases t
            exact hs
      have hlife := hr₁.life
      have hsmall := hr₁.small
      have hcount : (m.store e).removeCount.toNat = m.removeCount.toNat + draws [e] :=
        Path.removeCount (.single hs) (by omega)
      have hl : InLife c m e := ⟨by omega, by omega⟩
      have hnow : ∀ v, Gives (m.store e) key v → W v := hr₁.current [e] [] rfl
      have hstands : Stands c key W (m.store e) g₁ p :=
        ⟨hs.inv h.inv, ⟨_, hg.step h.inv hs hl, Or.inl hX⟩, hg.finds h.inv hs hnow hX h.finds⟩
      obtain ⟨h₁, h₂⟩ := ih hstands hr₂
      exact ⟨h₁, (hg.sameAt h.inv hs hX).trans h₂⟩

/-! ## One round -/

/-- One level down. -/
theorem Stands.child {a : Addr} (h : Stands c key W m g (.node a)) :
    Stands c key W m g ((m.node a).child (sliceIndex key (m.node a).shift)) := by
  obtain ⟨X, hg, hX⟩ := h.grace
  refine ⟨h.inv, ⟨X, hg, hg.closed a hX _⟩, fun r hr => h.finds r (.node rfl ?_)⟩
  rwa [dig_pos (hg.ok a hX)]

theorem dive_stands {fuel : ℕ} {n n' : Ptr} {s : List (Act Loc Event)} (h : Stands c key W m g n)
    (hx : Prog.Exec Mem.load m s (dive key fuel n) (.ok n')) (hr : Round c key W m g (stores s) g') :
    Stands c key W (storeAll m (stores s)) g' n' ∧ ∀ a, n' ≠ .node a := by
  induction fuel generalizing m g s n with
  | zero => cases hx.of_ret.1
  | succ fuel ih =>
      cases n with
      | null =>
          cases hx.of_ret.1
          exact ⟨(h.round hr).1, by simp⟩
      | leaf k =>
          cases hx.of_ret.1
          exact ⟨(h.round hr).1, by simp⟩
      | node a =>
          obtain ⟨l₁, s₁, rfl, hx₁⟩ := hx.of_get_bind
          obtain ⟨l₂, s₂, rfl, hx₂⟩ := hx₁.of_get_bind
          simp only [stores_append, Prog.stores_map_store, stores_load] at hr ⊢
          obtain ⟨g₁, hr₁, hr⟩ := hr.split
          obtain ⟨g₂, hr₂, hr₃⟩ := hr.split
          obtain ⟨h₁, -⟩ := h.round hr₁
          obtain ⟨h₂, hsame⟩ := h₁.round hr₂
          -- the shift is still the same when the child is loaded
          have hshift : (storeAll m l₁).load (.shift a) = ((storeAll (storeAll m l₁) l₂).node a).shift := hsame.2.symm
          rw [hshift] at hx₂
          rw [storeAll_append, storeAll_append]
          exact ih h₂.child hx₂ hr₃

theorem leafValue_current {n : Ptr} {v : ℕ} {s : List (Act Loc Event)} (h : Stands c key W m g n)
    (hn : ∀ a, n ≠ .node a) (hx : Prog.Exec Mem.load m s (leafValue key n) (.ok v))
    (hr : Round c key W m g (stores s) g') : W v := by
  cases n with
  | node a => exact absurd rfl (hn a)
  | null =>
      cases hx.of_ret.1
      exact h.finds none (.nil rfl)
  | leaf k =>
      have hleaf := h.finds _ (.leaf rfl)
      obtain ⟨l₁, s₁, rfl, hx₁⟩ := hx.of_get_bind
      simp only [stores_append, Prog.stores_map_store, stores_load] at hr
      obtain ⟨g₁, hr₁, hr⟩ := hr.split
      obtain ⟨h₁, hsame₁⟩ := h.round hr₁
      have hkey : (storeAll m l₁).load (.key k) = (m.leaf k).key := congrArg Leaf.key hsame₁
      rw [hkey] at hx₁
      by_cases hk : (m.leaf k).key = key
      · rw [if_pos hk] at hx₁
        obtain ⟨l₂, s₂, rfl, hx₂⟩ := hx₁.of_load
        simp only [stores_append, Prog.stores_map_store, stores_load] at hr
        obtain ⟨g₂, hr₂, -⟩ := hr.split
        obtain ⟨-, hsame₂⟩ := h₁.round hr₂
        have hvalue : (storeAll (storeAll m l₁) l₂).load (.value k) = (m.leaf k).value :=
          congrArg Leaf.value (hsame₁.trans hsame₂)
        rw [hvalue] at hx₂
        cases hx₂.of_ret.1
        simpa [leafVal, hk] using hleaf
      · rw [if_neg hk] at hx₁
        cases hx₁.of_ret.1
        simpa [leafVal, hk] using hleaf

/-- A round that is not repeated returns what was current during it. -/
theorem getLookup_current {fuel : ℕ} {v : ℕ} {s : List (Act Loc Event)} (h : Inv m g)
    (hx : Prog.Exec Mem.load m s (getLookup key fuel) (.ok v)) (hc : c ≤ m.removeCount.toNat)
    (hr : Round c key W m g (stores s) g') : W v := by
  obtain ⟨l₁, s₁, rfl, hx₁⟩ := hx.of_get_bind
  obtain ⟨s₂, s₃, n, rfl, hx₂, hx₃⟩ := hx₁.bind_ok
  simp only [stores_append, Prog.stores_map_store, stores_load] at hr
  have hlife := hr.life
  have hsmall := hr.small
  obtain ⟨g₁, hr₁, hr⟩ := hr.split
  obtain ⟨g₂, hr₂, hr₃⟩ := hr.split
  have hinv := hr₁.path.inv h
  rw [draws_append] at hlife
  have hcount := hr₁.path.removeCount (by omega)
  have hroot : Stands c key W (storeAll m l₁) g₁ (storeAll m l₁).root := by
    refine ⟨hinv, ⟨_, hinv.grace (c := c) (by omega), hinv.inTree_root⟩, fun r hf => ?_⟩
    rw [(Coding.finds_iff hinv.rep).mp hf]
    exact hr₁.current l₁ [] (by simp) _ (hinv.gives key)
  obtain ⟨hn, hleaf⟩ := dive_stands hroot hx₂ hr₂
  exact leafValue_current hn hleaf hx₃ hr₃

/-! ## The whole call -/

theorem untilFresh_current {fuel₀ fuel : ℕ} {v : ℕ} {s : List (Act Loc Event)} (h : Inv m g)
    (hx : Prog.Exec Mem.load m s (untilFresh (getLookup key fuel₀) fuel) (.ok v)) (hp : Path m g (stores s) g')
    (hb : m.removeCount.toNat + draws (stores s) < 2 ^ 64 - 16)
    (hcur : ∀ l l', stores s = l ++ l' → ∀ v, Gives (storeAll m l) key v → W v) : W v := by
  induction fuel generalizing m g s with
  | zero => cases hx.of_ret.1
  | succ fuel ih =>
      obtain ⟨l₁, s₁, rfl, hx₁⟩ := hx.of_get_bind
      obtain ⟨s₂, s₃, res, rfl, hx₂, hx₃⟩ := hx₁.bind_ok
      obtain ⟨l₄, s₄, rfl, hx₄⟩ := hx₃.of_get_bind
      simp only [stores_append, Prog.stores_map_store, stores_load, draws_append] at hp hb hcur
      obtain ⟨g₁, hp₁, hp'⟩ := hp.split
      obtain ⟨g₂, hp₂, hp''⟩ := hp'.split
      obtain ⟨g₃, hp₃, hp₄⟩ := hp''.split
      have hcount₁ := hp₁.removeCount (by omega)
      have hcount₂ := hp₂.removeCount (by omega)
      have hcount₃ := hp₃.removeCount (by omega)
      by_cases hstale : (storeAll m l₁).load .removeCount + DELETED_LIFE ≤
          (storeAll (storeAll (storeAll m l₁) (stores s₂)) l₄).load .removeCount
      · rw [if_pos hstale] at hx₄
        have hinv := ((hp₁.append hp₂).append (by rwa [storeAll_append])).inv h
        rw [storeAll_append, storeAll_append] at hinv
        refine ih hinv hx₄ hp₄ (by omega) fun l l' he v hv => ?_
        exact hcur (l₁ ++ (stores s₂ ++ (l₄ ++ l))) l' (by simp [he]) v (by simpa using hv)
      · rw [if_neg hstale] at hx₄
        cases hx₄.of_ret.1
        have hadd : ((storeAll m l₁).removeCount + DELETED_LIFE).toNat = (storeAll m l₁).removeCount.toNat + 16 := by
          rw [BitVec.toNat_add]
          exact Nat.mod_eq_of_lt (by simp; omega)
        have hfresh : ¬ ((storeAll m l₁).removeCount + DELETED_LIFE).toNat ≤
            (storeAll (storeAll (storeAll m l₁) (stores s₂)) l₄).removeCount.toNat := hstale
        rw [hadd] at hfresh
        refine getLookup_current (hp₁.inv h) hx₂ le_rfl ⟨hp₂, by omega, by omega, fun l l' he v hv => ?_⟩
        exact hcur (l₁ ++ l) (l' ++ (l₄ ++ stores s₄)) (by simp [he]) v (by rwa [storeAll_append])

/-- Readers among the stores of a run, of which so far some prefix was made. Reader `i` calls `critnib_get`; if it has
returned, then the map gave its answer at some moment since the call. -/
theorem critnib_get_current {ok : ℕ → Bool} {node : Addr → Node} {leaf : Addr → Leaf} {ops : List Op} {log rest : List Event}
    (hw : Writes ok (critnibNew node leaf) ops (log ++ rest)) (hops : ops.countP Op.IsRemove < 2 ^ 64 - 16)
    {ι : Type} [DecidableEq ι] {ps ps' : ι → R ℕ} {before during : List (Sys.Act ι Event Loc Loc.Val ℕ)} {i : ι}
    {key : Word} {fuel v : ℕ}
    (hx : Sys.Exec Mem.load (critnibNew node leaf) ps (before ++ .call i (critnibGet key fuel) :: during) ps')
    (hlog : Sys.stores (before ++ .call i (critnibGet key fuel) :: during) = log)
    (hcall : ∀ p, .call i p ∉ during) (hret : ps' i = .ret (.ok v)) :
    ∃ s t, during = s ++ t ∧ Gives (storeAll (critnibNew node leaf) (Sys.stores before ++ Sys.stores s)) key v := by
  subst hlog
  obtain ⟨s, t, tr, rfl, hexec, hstores⟩ := hx.lookup hcall hret
  obtain ⟨g', hp⟩ := (quiet_new node leaf).path hw
  have hdraws := hw.draws_le
  simp only [Sys.stores_append, Sys.stores] at hp hdraws
  obtain ⟨g₁, hp₁, -⟩ := hp.split
  obtain ⟨g₂, hp₂, hp₃⟩ := hp₁.split
  obtain ⟨g₃, hp₄, -⟩ := hp₃.split
  simp only [draws_append] at hdraws
  have hzero : (critnibNew node leaf).removeCount.toNat = 0 := rfl
  have hcount := hp₂.removeCount (by omega)
  rw [← hstores] at hp₄ hdraws
  refine untilFresh_current (W := fun v => ∃ s' t', s ++ t = s' ++ t' ∧
    Gives (storeAll (critnibNew node leaf) (Sys.stores before ++ Sys.stores s')) key v)
    (hp₂.inv (quiet_new node leaf).toInv) hexec hp₄ (by omega) fun l l' he v hv => ?_
  rw [hstores] at he
  obtain ⟨s₁, s₂, rfl, rfl⟩ := Sys.stores_split he
  exact ⟨s₁, s₂ ++ t, by simp, by rwa [storeAll_append]⟩

/-- A new structure with nothing in the heap. -/
abbrev blank : Mem := critnibNew (fun _ => ⟨fun _ => .null, 0, 0⟩) fun _ => ⟨0, 0⟩

/-- `critnib_insert(c, 5, 7)` on it: what comes before a reader calls `critnib_get(c, 5)`, and what comes after. -/
def insertBefore : List (Sys.Act Unit Event Loc Loc.Val ℕ) :=
  [.store (.mallocLeaf true), .store (.key 1 5), .store (.value 1 7)]

def insertDuring : List (Sys.Act Unit Event Loc Loc.Val ℕ) :=
  [.load (), .store (.slot .root (.leaf 1)), .load (), .load (), .load (), .load ()]

theorem insert_writes : Writes (fun _ => true) blank [.insert 5 7]
    ([.mallocLeaf true, .key 1 5, .value 1 7, .slot .root (.leaf 1)] ++ []) :=
  .insert (e := .ok) ⟨0, fun _ _ => rfl⟩ (.nil _)

theorem insert_exec : Sys.Exec Mem.load blank (fun _ => .ret (.ok 0))
    (insertBefore ++ .call () (critnibGet 5 2) :: insertDuring) fun _ => .ret (.ok 7) :=
  .store (.store (.store (.call rfl (.load rfl (.store (.load rfl (.load rfl (.load rfl (.load rfl (.nil _ _))))))))))

theorem critnib_get_current_insert : ∃ s t, insertDuring = s ++ t ∧
    Gives (storeAll blank (Sys.stores insertBefore ++ Sys.stores s)) 5 7 :=
  critnib_get_current insert_writes (by decide) insert_exec rfl (by simp [insertDuring]) rfl

end Ptok.Critnib
