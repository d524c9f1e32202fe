import Ptok.Critnib.Concurrent.Order
import Ptok.Critnib.Concurrent.Bounded

/-!
# A writer that stops

Between any two stores of a writer, also where a node has a single child left, lookups alone return what the map has
after the calls that count by then.
-/

namespace Ptok.Critnib

open Lib

attribute [local instance] keyOrder

variable {m : Mem} {g : Ghost} {key : Word} {v fuel : ℕ} {ok : ℕ → Bool} {ops : List Op} {l rest : List Event}
  {node : Addr → Node} {leaf : Addr → Leaf}

/-- While nothing is stored. -/
theorem Inv.within (h : Inv m g) (hf : Coding.Fed g.tree) : Within m.removeCount.toNat (fun _ => m) (fun _ => g) 0 0 where
  step _ _ ht := absurd ht (Nat.not_lt_zero _)
  inv _ _ _ := h
  fed _ _ _ := hf
  count _ _ _ := le_rfl

theorem unclear_of_stores {s : List (Act Loc Event)} (h : stores s = []) : Unclear s := by
  rintro s₁ s₂ a i log rfl
  simp only [stores_append, stores_load, Prog.stores_map_store, List.append_eq_nil_iff] at h
  simp [h.2.1]

theorem findLeLookup_noNull (h : (findLeLookup key fuel).eval m.load = r) : r ≠ .error .nullDeref := by
  obtain ⟨s, r', hx, hs, -⟩ := Prog.exists_exec (E := Event) Mem.load m (findLeLookup key fuel)
  rw [← h, ← hx.eval_eq hs]
  refine NoNull.load_bind (fun q => ?_) m s r' (unclear_of_stores hs) hx
  split
  · exact .pure _
  · exact findLe_noNull key fuel q

/-- Alone, one round of `find_le` is exact. -/
theorem Inv.findLeLookup_eval (h : Inv m g) (hf : Coding.Fed g.tree) (hval : ∀ y, g.tree.map y ≠ some NULL) (key : Word)
    (hfuel : 17 < fuel) : ∃ v, (findLeLookup key fuel).eval m.load = .ok v ∧ g.tree.map.LeVal key v := by
  have hw := h.within hf
  have htimed : ∀ {r}, (findLeLookup key fuel).eval m.load = r →
      Prog.Timed Mem.load (fun _ => m) 0 (findLeLookup key fuel) r 0 := by
    rintro r rfl
    exact .eval m _
  rcases findLeLookup_ends hw hfuel le_rfl (htimed rfl) with ⟨v, hv⟩ | hnull
  · refine ⟨v, hv, ?_⟩
    rcases findLeLookup_seek hw (fun _ _ _ => hval) le_rfl (htimed hv) with (hfound | ⟨hlost, -⟩) | ⟨rfl, hnone⟩
    · obtain ⟨z, t, -, -, hz, hbound, habove⟩ := hfound.seen
      refine .found ⟨by rw [show g.tree.map z = some v from hbound]; simp, hz, fun y hy hle => ?_⟩ hbound
      by_contra hlt
      obtain ⟨s, -, -, hfree⟩ := habove y hle (not_le.mp hlt)
      exact hy hfree
    · exact absurd (fun _ _ _ _ _ hb => hb) hlost.unbound
    · refine .none fun y hy => not_le.mp fun hle => ?_
      obtain ⟨s, -, -, hfree⟩ := hnone y hle
      exact hy hfree
  · exact absurd hnull (findLeLookup_noNull rfl)

theorem Inv.findLe_returns (h : Inv m g) (hf : Coding.Fed g.tree) (hval : ∀ y, g.tree.map y ≠ some NULL)
    (hc : m.removeCount.toNat < 2 ^ 64 - 16) :
    ∃ v, Returns (fun fuel => (critnibFindLe key fuel).eval m.load) v ∧ g.tree.map.LeVal key v := by
  obtain ⟨v, -, hle⟩ := h.findLeLookup_eval hf hval key (Nat.lt_succ_self 17)
  refine ⟨v, (untilFresh_eval (N := 17) fun fuel hfuel => ?_).1 hc, hle⟩
  obtain ⟨v', hv', hle'⟩ := h.findLeLookup_eval hf hval key hfuel
  rw [hv', hle'.unique hle]

end Ptok.Critnib
