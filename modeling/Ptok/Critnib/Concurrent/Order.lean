import Ptok.Critnib.Concurrent.Pred

/-!
# One order of all calls

Inserts and removes count from the store that links or unlinks their leaf. In this order each get that has returned can
be put at a moment of its own call, and it returned what the calls before it had left.
-/

namespace Ptok.Critnib

open Lib

variable {m : Mem} {g : Ghost} {key : Word} {v : ℕ} {ok : ℕ → Bool} {ops : List Op} {log rest : List Event}

theorem Gives.value (h : Inv m g) (hv : Gives m key v) : v = g.tree.map.val key := by
  have hroutes := h.fits.routed
  rcases hv with ⟨k, hk, rfl, rfl⟩ | ⟨rfl, hnone⟩
  · have hbound : g.tree.map (m.leaf k).key = some (m.leaf k).value :=
      (T.map_eq_some hroutes).mpr ⟨_, (sub_leaf_of_reaches h.rep hk).has rfl, rfl, rfl⟩
    simp [KMap.val, hbound]
  · have hfree : g.tree.map key = none := by
      by_contra hbound
      obtain ⟨l, hl, hkey⟩ := (T.map_ne_none hroutes).mp hbound
      obtain ⟨k, hk, rfl⟩ := h.exists_live hl
      exact hnone k hk hkey
    simp [KMap.val, hfree]

/-- A lookup among the stores of a run that comes after some others. -/
theorem Writes.get_gives {node : Addr → Node} {leaf : Addr → Leaf} {fuel : ℕ} {s : List (Act Loc Event)}
    (hw : Writes ok (critnibNew node leaf) ops (log ++ stores s ++ rest)) (hops : ops.countP Op.IsRemove < 2 ^ 64 - 16)
    (hx : Prog.Exec Mem.load (storeAll (critnibNew node leaf) log) s (critnibGet key fuel) (.ok v)) :
    ∃ l l', stores s = l ++ l' ∧ Gives (storeAll (critnibNew node leaf) (log ++ l)) key v := by
  have hnew := quiet_new node leaf
  obtain ⟨g', hp⟩ := hnew.path hw
  have hdraws := hw.draws_le
  simp only [draws_append] at hdraws
  obtain ⟨g₂, hp, -⟩ := hp.split
  obtain ⟨g₁, hp₁, hp₂⟩ := hp.split
  have hzero : (critnibNew node leaf).removeCount.toNat = 0 := rfl
  have hcount := hp₁.removeCount (by omega)
  refine untilFresh_current
    (W := fun v => ∃ l l', stores s = l ++ l' ∧ Gives (storeAll (critnibNew node leaf) (log ++ l)) key v)
    (hp₁.inv hnew.toInv) hx hp₂ (by omega) fun l l' he v hv => ?_
  rw [← storeAll_append] at hv
  exact ⟨l, l', he, hv⟩

/-- The map of the history has this value for the key after these calls on a structure, one at a time. -/
def ValueAfter (ok : ℕ → Bool) (m : Mem) (ops : List Op) (key : Word) (v : ℕ) : Prop :=
  ∃ log f, Writes ok m ops log ∧ Reached ok ops (storeAll m log) f ∧ v = f.val key

theorem Order.valueAfter {node : Addr → Node} {leaf : Addr → Leaf} {count : ℕ → ℕ} {l l' : List Event}
    (h : Order ok (critnibNew node leaf) ops log count) (hlog : log = l ++ l')
    (hv : Gives (storeAll (critnibNew node leaf) l) key v) :
    ValueAfter ok (critnibNew node leaf) (ops.take (count l.length)) key v := by
  obtain ⟨log₁, g₁, g₂, hw, hq, hshows⟩ := h.shows l l' hlog
  obtain ⟨f, hf⟩ := (Reached.new node leaf).calls hw.toCalls
  obtain ⟨g₃, hq₃, rfl⟩ := hf.quiet
  refine ⟨log₁, _, hw, hf, ?_⟩
  rw [hv.value hshows.inv, hshows.map, hq.rep.unique hq₃.rep]

theorem Order.get_returned {node : Addr → Node} {leaf : Addr → Leaf} {count : ℕ → ℕ}
    (h : Order ok (critnibNew node leaf) ops (log ++ rest) count) (hw : Writes ok (critnibNew node leaf) ops (log ++ rest))
    (hops : ops.countP Op.IsRemove < 2 ^ 64 - 16) {ι : Type} [DecidableEq ι] {ps ps' : ι → R ℕ}
    {before during after : List (Sys.Act ι Event Loc Loc.Val ℕ)} {i : ι} {fuel : ℕ}
    (hlog : Sys.stores (before ++ .call i (critnibGet key fuel) :: (during ++ after)) = log)
    (hx : Sys.Exec Mem.load (critnibNew node leaf) ps (before ++ .call i (critnibGet key fuel) :: during) ps')
    (hcall : ∀ p, .call i p ∉ during) (hret : ps' i = .ret (.ok v)) :
    ∃ s t, during = s ++ t ∧
      ValueAfter ok (critnibNew node leaf) (ops.take (count (Sys.stores (before ++ s)).length)) key v := by
  obtain ⟨s₁, s₂, tr, rfl, hexec, htr⟩ := hx.lookup hcall hret
  have hsplit : log ++ rest = Sys.stores before ++ Lib.stores tr ++ (Sys.stores s₂ ++ Sys.stores after ++ rest) := by
    rw [← hlog, htr]
    simp [Sys.stores_append, Sys.stores]
  rw [hsplit] at hw h
  obtain ⟨l, l', hl, hgives⟩ := hw.get_gives hops hexec
  rw [htr] at hl
  obtain ⟨s, t, rfl, rfl⟩ := Sys.stores_split hl
  refine ⟨s, t ++ s₂, by simp, ?_⟩
  rw [Sys.stores_append]
  have hlist : Sys.stores before ++ Lib.stores tr ++ (Sys.stores s₂ ++ Sys.stores after ++ rest) =
      (Sys.stores before ++ Sys.stores s) ++ (l' ++ (Sys.stores s₂ ++ Sys.stores after ++ rest)) := by
    rw [htr, hl]
    simp
  exact h.valueAfter hlist hgives

/-- Readers among the stores of a run of inserts and removes, of which so far some prefix was made. There is one order
of the calls: the inserts and removes as they hold the mutex, each at a moment of its own, and every get that has
returned at a moment of its own. What the get returned is the value after the calls before it. -/
theorem critnib_linearizable {node : Addr → Node} {leaf : Addr → Leaf}
    (hw : Writes ok (critnibNew node leaf) ops (log ++ rest)) (hops : ops.countP Op.IsRemove < 2 ^ 64 - 16)
    {ι : Type} [DecidableEq ι] {ps : ι → R ℕ} {sched : List (Sys.Act ι Event Loc Loc.Val ℕ)}
    (hlog : Sys.stores sched = log) :
    ∃ count : ℕ → ℕ, Monotone count ∧
      (∀ l l', log = l ++ l' → Upto ok (critnibNew node leaf) ops l (ops.take (count l.length))) ∧
      ∀ before during after i key fuel v ps', sched = before ++ .call i (critnibGet key fuel) :: (during ++ after) →
        Sys.Exec Mem.load (critnibNew node leaf) ps (before ++ .call i (critnibGet key fuel) :: during) ps' →
        (∀ p, .call i p ∉ during) → ps' i = .ret (.ok v) →
        ∃ s t, during = s ++ t ∧
          ValueAfter ok (critnibNew node leaf) (ops.take (count (Sys.stores (before ++ s)).length)) key v := by
  obtain ⟨count, ho⟩ := (quiet_new node leaf).order hw
  refine ⟨count, ho.mono, fun l l' hl => ho.upto l (l' ++ rest) (by simp [hl]), ?_⟩
  rintro before during after i key fuel v ps' rfl hx hcall hret
  exact ho.get_returned hw hops hlog hx hcall hret

theorem critnib_linearizable_insert : ∃ count : ℕ → ℕ, Monotone count ∧
    (∀ l l', [.mallocLeaf true, .key 1 5, .value 1 7, .slot .root (.leaf 1)] = l ++ l' →
      Upto (fun _ => true) blank [.insert 5 7] l ([Op.insert 5 7].take (count l.length))) ∧
    ∀ before during after i key fuel v ps',
      insertBefore ++ .call () (critnibGet 5 2) :: insertDuring =
        before ++ .call i (critnibGet key fuel) :: (during ++ after) →
      Sys.Exec Mem.load blank (fun _ => .ret (.ok 0)) (before ++ .call i (critnibGet key fuel) :: during) ps' →
      (∀ p, .call i p ∉ during) → ps' i = .ret (.ok v) →
      ∃ s t, during = s ++ t ∧ ValueAfter (fun _ => true) blank
        ([Op.insert 5 7].take (count (Sys.stores (before ++ s)).length)) key v :=
  critnib_linearizable insert_writes (by decide) rfl

end Ptok.Critnib
