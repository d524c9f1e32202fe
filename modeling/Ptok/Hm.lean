import Ptok.Lib.Refine
import Ptok.Critbit.Theorems
import Ptok.Tcradix.Theorems
import Ptok.CritnibTag.Lemmas
import Ptok.Critnib.Theorems

/-!
# hmproto.h and hmload.c

The four implementations in one table, as the test programs use them. A test asks for what it needs, and an
implementation that does not offer it is left out. On everything else the four return the same.
-/

namespace Ptok.Hmload

open Lib
open Critnib (Op Ret)

/-- `struct hm` without `hm_delete`. The last argument of a function is the fuel; malloc does not fail. -/
structure Hm where
  Heap : Type
  Mem : Type
  hmNew : Heap → Mem
  hmInsert : Word → ℕ → Mem → ℕ → Except Stuck (Errno × Mem)
  hmRemove : Word → Mem → ℕ → Except Stuck (ℕ × Mem)
  hmGet : Word → Mem → ℕ → Except Stuck ℕ
  hmFindLe : Word → Mem → ℕ → Except Stuck ℕ
  hmName : String
  /-- what it does not offer; 2 stands for inserts of keys that are there and for `find_le` -/
  hmImmutable : ℕ

abbrev critbit : Hm where
  Heap := Critbit.Addr → Critbit.Node
  Mem := Critbit.Mem
  hmNew := Critbit.critbitNew
  hmInsert key value m fuel := (Critbit.critbitInsert (fun _ => true) fuel key value).exec m
  hmRemove key m fuel := (Critbit.critbitRemove fuel key).exec m
  hmGet key m fuel := (Critbit.critbitGet key fuel).eval m.load
  -- `abort()`
  hmFindLe _ _ _ := .error .assertion
  hmName := "critbit"
  hmImmutable := 2

abbrev tcradix : Hm where
  Heap := Tcradix.Addr → Tcradix.Node
  Mem := Tcradix.Mem
  hmNew := Tcradix.tcradixNew
  hmInsert key value m _ := (Tcradix.tcradixInsert (fun _ => true) key value).exec m
  hmRemove key m _ := (Tcradix.tcradixRemove key).exec m
  hmGet key m fuel := (Tcradix.tcradixGet key fuel).eval m.load
  -- `abort()`
  hmFindLe _ _ _ := .error .assertion
  hmName := "tcradix"
  hmImmutable := 2

abbrev critnib : Hm where
  Heap := (Critnib.Addr → Critnib.Node) × (Critnib.Addr → Critnib.Leaf)
  Mem := Critnib.Mem
  hmNew h := Critnib.critnibNew h.1 h.2
  hmInsert key value m fuel := (Critnib.critnibInsert (fun _ => true) fuel key value).exec m
  hmRemove key m fuel := (Critnib.critnibRemove fuel key).exec m
  hmGet key m fuel := (Critnib.critnibGet key fuel).eval m.load
  hmFindLe key m fuel := (Critnib.critnibFindLe key fuel).eval m.load
  hmName := "critnib"
  hmImmutable := 0

abbrev critnibTag : Hm where
  Heap := (Critnib.Addr → Critnib.Node) × (Critnib.Addr → Critnib.Leaf)
  Mem := Critnib.Mem
  hmNew h := Critnib.critnibNew h.1 h.2
  hmInsert key value m fuel := (CritnibTag.critnibTagInsert (fun _ => true) fuel key value).exec m
  hmRemove key m fuel := (CritnibTag.critnibTagRemove fuel key).exec m
  hmGet key m fuel := (CritnibTag.critnibTagGet key fuel).eval m.load
  hmFindLe key m fuel := (CritnibTag.critnibTagFindLe key fuel).eval m.load
  hmName := "critnib_tag"
  hmImmutable := 0

def hms : Fin 4 → Hm
  | 0 => critbit
  | 1 => tcradix
  | 2 => critnib
  | 3 => critnibTag

/-- A call through the pointers that `hm_select` has set. -/
def Hm.call (h : Hm) (op : Op) (m : h.Mem) (fuel : ℕ) : Except Stuck (Ret × h.Mem) :=
  match op with
  | .insert key value => (h.hmInsert key value m fuel).map fun r => (.errno r.1, r.2)
  | .remove key => (h.hmRemove key m fuel).map fun r => (.value r.1, r.2)
  | .get key => (h.hmGet key m fuel).map fun v => (.value v, m)
  | .findLe key => (h.hmFindLe key m fuel).map fun v => (.value v, m)

/-! ## What a test may do -/

/-- The map, and how many removes there have been. -/
structure Abs where
  map : KMap
  removes : ℕ

/-- What every implementation answers. -/
inductive Answers : Abs → Op → Ret → Abs → Prop
  | insert {a : Abs} {key : Word} {value : ℕ} (h : a.map key = none) :
      Answers a (.insert key value) (.errno .ok) ⟨a.map.bind key value, a.removes⟩
  | again {a : Abs} {key : Word} {value : ℕ} (h : a.map key ≠ none) : Answers a (.insert key value) (.errno .EEXIST) a
  | remove {a : Abs} {key : Word} : Answers a (.remove key) (.value (a.map.val key)) ⟨a.map.unbind key, a.removes + 1⟩
  | get {a : Abs} {key : Word} : Answers a (.get key) (.value (a.map.val key)) a
  | findLe {a : Abs} {key : Word} {v : ℕ} (h : a.map.LeVal key v) : Answers a (.findLe key) (.value v) a

/-- The calls of a test with this `req`. It removes only what is there, inserts a key that is there only if the test
asks for it, and so with `find_le`; then no value but that of the least key is `NULL`. -/
def Suits (req : ℕ) (a : Abs) : Op → Prop
  | .insert key _ => 2 &&& req = 0 → a.map key = none
  | .remove key => a.map key ≠ none
  | .get _ => a.removes < 2 ^ 64 - 16
  | .findLe _ => 2 &&& req ≠ 0 ∧ a.removes < 2 ^ 64 - 16 ∧ a.map.NullLeast

theorem answers_one : OneAnswer Answers := by
  intro a op r r' a₁ a₂ h h'
  cases h with
  | insert h =>
      cases h' with
      | insert => exact ⟨rfl, rfl⟩
      | again h' => exact absurd h h'
  | again h =>
      cases h' with
      | insert h' => exact absurd h' h
      | again => exact ⟨rfl, rfl⟩
  | remove =>
      cases h'
      exact ⟨rfl, rfl⟩
  | get =>
      cases h'
      exact ⟨rfl, rfl⟩
  | findLe h =>
      cases h' with
      | findLe h' => exact ⟨by rw [h.unique h'], rfl⟩

variable {req : ℕ}

/-! ## critbit -/

theorem critbit_refines (hreq : 2 &&& req = 0) : Refines Answers (Suits req) critbit.call
    fun m a => ∃ g, Critbit.Quiet m g ∧ g.tree.map = a.map where
  step := by
    rintro m ⟨f, n⟩ op ⟨g, hq, rfl⟩ hpre
    cases op with
    | insert key value =>
        obtain ⟨e, log, g', hdo, hq', hins⟩ := Critbit.critbitInsert_spec hq (fun _ => true) value (hpre hreq)
        generalize hf : g'.tree.map = f' at hins
        cases hins with
        | new => exact ⟨_, _, _, (Critbit.returns_of_does hdo).map _, .insert (hpre hreq), g', hq', hf⟩
    | remove key =>
        obtain ⟨log, g', hdo, hq', hmap⟩ := Critbit.critbitRemove_spec (Q := fun _ => False) hq key
        exact ⟨_, _, _, (Critbit.returns_of_does hdo).map _, .remove, g', hq', hmap⟩
    | get key =>
        refine ⟨_, m, _, Returns.map ⟨g.tree.height + 1, fun fuel hf => ?_⟩ _, .get, g, hq, rfl⟩
        exact Critbit.critbitGet_eval hq.rep hq.wf key hf
    | findLe key => exact absurd hreq hpre.1

/-! ## tcradix -/

theorem val_bind (f : KMap) (key : Word) (value : ℕ) (k : Word) :
    (f.bind key value).val k = if k = key then value else f.val k := by
  unfold KMap.val KMap.bind
  by_cases hk : k = key <;> simp [hk]

theorem val_unbind (f : KMap) (key k : Word) : (f.unbind key).val k = if k = key then NULL else f.val k := by
  unfold KMap.val KMap.unbind
  by_cases hk : k = key <;> simp [hk]

/-- `NULL` is no value there, so only the values as the lookups report them agree. -/
theorem tcradix_refines (hreq : 2 &&& req = 0) : Refines Answers (Suits req) tcradix.call
    fun m a => ∃ g, Tcradix.Quiet (fun _ => true) (fun _ _ => True) m g ∧ g.tree.map.val = a.map.val where
  step := by
    rintro m ⟨f, n⟩ op ⟨g, hq, hval⟩ hpre
    cases op with
    | insert key value =>
        have hnew : KMap.val f key = NULL := by
          have hf : f key = none := hpre hreq
          simp [KMap.val, hf]
        by_cases hv : value = NULL
        · subst hv
          refine ⟨_, m, _, ⟨0, fun fuel _ => rfl⟩, .insert (hpre hreq), g, hq, hval.trans (funext fun k => ?_)⟩
          rw [val_bind]
          split
          · next hk => rw [hk, hnew]
          · rfl
        · obtain ⟨e, log, g', t, hdo, hq', hs, hins, hall⟩ :=
            Tcradix.tcradixInsert_spec (A := fun _ _ => False) hq hv trivial (fun _ h => h.elim) (Or.inl fun _ => rfl)
          obtain rfl := hall fun _ => rfl
          have hr : Returns (tcradix.hmInsert key value m) (.ok, storeAll m log) :=
            ⟨0, fun fuel _ => Wr.exec_of_apply hdo.run⟩
          refine ⟨_, _, _, hr.map _, .insert (hpre hreq), g', hq', funext fun k => ?_⟩
          rw [hins.map_eq hv hs (hq.sure fun _ => rfl), val_bind, hval, val_bind]
    | remove key =>
        obtain ⟨log, g', hdo, hq', hgone, hkeep⟩ :=
          Tcradix.tcradixRemove_spec (A := fun _ _ => False) hq key fun _ h => h
        have hr : Returns (tcradix.hmRemove key m) (g.tree.get key, storeAll m log) :=
          ⟨0, fun fuel _ => Wr.exec_of_apply hdo.run⟩
        rw [← Tcradix.T.map_val, hval] at hr
        refine ⟨_, _, _, hr.map _, .remove, g', hq', funext fun k => ?_⟩
        rw [Tcradix.T.map_unbind hgone hkeep, val_unbind, hval, val_unbind]
    | get key =>
        have hr : Returns (tcradix.hmGet key m) (g.tree.get key) :=
          ⟨0, fun fuel _ => Tcradix.tcradixGet_eval hq key fuel⟩
        rw [← Tcradix.T.map_val, hval] at hr
        exact ⟨_, m, _, hr.map _, .get, g, hq, hval⟩
    | findLe key => exact absurd hreq hpre.1

/-! ## critnib and critnib-tag -/

/-- `remove_count` is the number of removes while it does not wrap around. -/
def Rel (m : Critnib.Mem) (a : Abs) : Prop :=
  ∃ g, Critnib.Quiet m g ∧ g.tree.map = a.map ∧ m.removeCount.toNat ≤ a.removes

theorem calls_refine : Refines Answers (Suits req) (Critnib.call fun _ => true) Rel where
  step := by
    rintro m ⟨f, n⟩ op ⟨g, hq, rfl, hcount⟩ hpre
    cases op with
    | insert key value =>
        obtain ⟨r, m', g', hr, hq', hc, hans, hall⟩ := Critnib.insert_returns hq (fun _ => true) key value
        obtain ⟨hl, hn⟩ := hall fun _ => rfl
        rw [hl, hn] at hans
        generalize hf : g'.tree.map = f' at hans
        cases hans with
        | noLeaf hl => cases hl
        | bound _ hb => exact ⟨_, _, _, hr, .again hb, g', hq', hf, hc ▸ hcount⟩
        | noNode _ _ hn => cases hn
        | bind _ hb => exact ⟨_, _, _, hr, .insert hb, g', hq', hf, hc ▸ hcount⟩
    | remove key =>
        obtain ⟨r, m', g', hr, hq', hc, hans⟩ := Critnib.remove_returns hq (fun _ => true) key true true
        generalize hf : g'.tree.map = f' at hans
        cases hans with
        | remove =>
            refine ⟨_, _, _, hr, .remove, g', hq', hf, ?_⟩
            show m'.removeCount.toNat ≤ n + 1
            rw [hc]
            split
            · exact Nat.le_succ_of_le hcount
            · rw [BitVec.toNat_add]
              exact (Nat.mod_le _ _).trans (Nat.succ_le_succ hcount)
    | get key =>
        have hc := Nat.lt_of_le_of_lt hcount hpre
        exact ⟨_, _, _, Critnib.get_returns hq.toInv _ key hc, .get, g, hq, rfl, hcount⟩
    | findLe key =>
        obtain ⟨-, hremoves, hnull⟩ := hpre
        have hc := Nat.lt_of_le_of_lt hcount hremoves
        exact ⟨_, _, _, Critnib.findLe_returns hq _ key hc, .findLe (hq.leVal hnull key), g, hq, rfl, hcount⟩

theorem critnib_call (op : Op) (m : Critnib.Mem) : critnib.call op m = Critnib.call (fun _ => true) op m := by
  cases op with
  | insert key value => exact (Critnib.call_insert _ key value m).symm
  | remove key => exact (Critnib.call_remove _ key m).symm
  | get key => exact (Critnib.call_get _ key m).symm
  | findLe key => exact (Critnib.call_findLe _ key m).symm

theorem critnib_refines : Refines Answers (Suits req) critnib.call Rel where
  step := by
    intro (m : Critnib.Mem) a op hR hpre
    obtain ⟨r, m', a', hr, hans, hR'⟩ := calls_refine.step hR hpre
    rw [← critnib_call] at hr
    exact ⟨r, m', a', hr, hans, hR'⟩

/-- A remove of a bound key does not walk into an empty slot. -/
theorem critnibTag_returns {m : Critnib.Mem} {a : Abs} {op : Op} {r : Ret × Critnib.Mem} (hR : Rel m a)
    (hpre : Suits req a op) (hr : Returns (Critnib.call (fun _ => true) op m) r) :
    Returns (CritnibTag.call (fun _ => true) op m) r := by
  obtain ⟨g, hq, hmap, -⟩ := hR
  cases op with
  | insert key value => exact hr
  | remove key =>
      apply CritnibTag.remove_returns hq _ (Or.inr _) hr
      intro hnil
      apply hpre
      rw [← hmap, Critnib.T.map, Coding.get_eq_focus, hnil]
      rfl
  | get key => exact hr
  | findLe key => rwa [CritnibTag.call_findLe_eq]

theorem critnibTag_call (op : Op) (m : Critnib.Mem) : critnibTag.call op m = CritnibTag.call (fun _ => true) op m := by
  cases op with
  | insert key value => exact (Critnib.call_insert _ key value m).symm
  | remove key => exact (CritnibTag.call_remove _ key m).symm
  | get key => exact (Critnib.call_get (fun _ => true) key m).symm
  | findLe key =>
      funext fuel
      show ((CritnibTag.critnibTagFindLe key fuel).eval m.load).map _ = _
      cases h : (CritnibTag.critnibTagFindLe key fuel).eval m.load <;> simp [CritnibTag.call, h] <;> rfl

theorem critnibTag_refines : Refines Answers (Suits req) critnibTag.call Rel where
  step := by
    intro (m : Critnib.Mem) a op hR hpre
    obtain ⟨r, m', a', hr, hans, hR'⟩ := calls_refine.step hR hpre
    have ht := critnibTag_returns hR hpre hr
    rw [← critnibTag_call] at ht
    exact ⟨r, m', a', ht, hans, hR'⟩

/-! ## The table -/

theorem hms_refine (i : Fin 4) (hreq : (hms i).hmImmutable &&& req = 0) (heap : (hms i).Heap) :
    ∃ R, Refines Answers (Suits req) (hms i).call R ∧ R ((hms i).hmNew heap) ⟨.empty, 0⟩ := by
  match i with
  | 0 => exact ⟨_, critbit_refines hreq, .new, Critbit.quiet_new heap, rfl⟩
  | 1 =>
      refine ⟨_, tcradix_refines hreq, .new, Tcradix.quiet_new _ _ heap, funext fun k => ?_⟩
      rw [Tcradix.T.map_val]
      exact Tcradix.mark_get_null k
  | 2 => exact ⟨_, critnib_refines, .new, Critnib.quiet_new heap.1 heap.2, rfl, Nat.le_refl _⟩
  | 3 => exact ⟨_, critnibTag_refines, .new, Critnib.quiet_new heap.1 heap.2, rfl, Nat.le_refl _⟩

/-- A test that asks for `req` sees the same in every implementation that it is run with. -/
theorem hms_agree {ops : List Op} (hops : Allowed Answers (Suits req) ⟨.empty, 0⟩ ops) :
    ∃ rs a, Answered Answers ⟨.empty, 0⟩ ops rs a ∧ ∀ i, (hms i).hmImmutable &&& req = 0 →
      ∀ heap, ∃ m, Calling (hms i).call ((hms i).hmNew heap) ops rs m := by
  obtain ⟨R, h, hR⟩ := hms_refine 2 (Nat.zero_and req) (fun _ => ⟨fun _ => .null, 0, 0⟩, fun _ => ⟨0, 0⟩)
  obtain ⟨rs, -, a, -, hans, -⟩ := h.run hR hops
  refine ⟨rs, a, hans, fun i hreq heap => ?_⟩
  obtain ⟨R', h', hR'⟩ := hms_refine i hreq heap
  exact h'.returns answers_one hR' hops hans

/-- The calls of `test_same_only`. -/
theorem hms_agree_same :
    ∃ rs a, Answered Answers ⟨.empty, 0⟩ [.insert 123 456, .insert 123 457, .get 123, .get 124] rs a ∧
      ∀ i, (hms i).hmImmutable &&& 2 = 0 → ∀ heap, ∃ m, Calling (hms i).call ((hms i).hmNew heap)
        [.insert 123 456, .insert 123 457, .get 123, .get 124] rs m := by
  apply hms_agree
  refine ⟨fun h => absurd h (by decide), fun r a h => ?_⟩
  cases h with
  | again h => exact absurd rfl h
  | insert =>
      refine ⟨fun h => absurd h (by decide), fun r a h => ?_⟩
      cases h with
      | insert h => exact absurd h (by simp)
      | again =>
          refine ⟨show 0 < 2 ^ 64 - 16 by decide, fun r a h => ?_⟩
          cases h with
          | get =>
              exact ⟨show 0 < 2 ^ 64 - 16 by decide, fun r a h => trivial⟩

end Ptok.Hmload
