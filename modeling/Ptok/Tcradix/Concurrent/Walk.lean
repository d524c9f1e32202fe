import Ptok.Lib.Interleave
import Ptok.Tcradix.Theorems

/-!
# The loads of tcradix_get

What a lookup loads, and in which order, while somebody stores.
-/

namespace Ptok.Tcradix

open Lib

variable {m : Mem} {s : List (Act Loc Event)} {key : Word} {l : ℕ} {a : Addr} {fuel : ℕ}

/-- What the walk does with the content of a slot. -/
def slotWalk (p : Ptr) : Walk := if p = .null then .ret NULL else .next p

/-- One level. -/
inductive Level (key : Word) (l : ℕ) (a : Addr) (m : Mem) : List (Act Loc Event) → Walk → Prop
  | found {es es' : List Event} {s : List (Act Loc Event)} (h0 : key ≠ 0)
      (hk : ((storeAll m es).node a).onlyKey = key) :
      Level key l a m (es.map .store ++ .load (.onlyKey a) :: (es'.map .store ++ .load (.onlyVal a) :: s))
        (.ret ((storeAll (storeAll m es) es').node a).onlyVal)
  | other {es : List Event} {s : List (Act Loc Event)} (h0 : ((storeAll m es).node a).onlyKey ≠ 0)
      (hk : ((storeAll m es).node a).onlyKey ≠ key) :
      Level key l a m (es.map .store ++ .load (.onlyKey a) :: s) (.ret NULL)
  | slot {es es' : List Event} {s : List (Act Loc Event)} (h0 : ((storeAll m es).node a).onlyKey = 0) :
      Level key l a m (es.map .store ++ .load (.onlyKey a) :: (es'.map .store ++ .load (.nodes a (sl key l)) :: s))
        (slotWalk (((storeAll (storeAll m es) es').node a).nodes (sl key l)))

theorem getSlot_exec {r : Except Stuck Walk} (hx : Prog.Exec Mem.load m s (getSlot key l a) r) :
    ∃ es s', s = es.map .store ++ .load (.nodes a (sl key l)) :: s' ∧
      r = .ok (slotWalk (((storeAll m es).node a).nodes (sl key l))) := by
  obtain ⟨es, s', rfl, hx₁⟩ := hx.of_get_bind
  refine ⟨es, s', rfl, ?_⟩
  show r = .ok (if (storeAll m es).load (.nodes a (sl key l)) = .null then _ else _)
  split at hx₁ <;> rename_i hp
  · rw [if_pos hp]
    exact hx₁.of_ret.1
  · rw [if_neg hp]
    exact hx₁.of_ret.1

theorem GETL_exec {r : Except Stuck Walk} (hx : Prog.Exec Mem.load m s (GETL key (l + 1) a) r) :
    ∃ w, r = .ok w ∧ Level key (l + 1) a m s w := by
  rw [GETL, if_neg (Nat.succ_ne_zero l)] at hx
  obtain ⟨es, s', rfl, hx₁⟩ := hx.of_get_bind
  split at hx₁
  · rename_i h0
    split at hx₁
    · rename_i hk
      obtain ⟨es', s'', rfl, hx₂⟩ := hx₁.of_get_bind
      obtain ⟨rfl, -⟩ := hx₂.of_ret
      exact ⟨_, rfl, .found (hk ▸ h0) hk⟩
    · rename_i hk
      obtain ⟨rfl, -⟩ := hx₁.of_ret
      exact ⟨_, rfl, .other h0 hk⟩
  · rename_i h0
    obtain ⟨es', s'', rfl, rfl⟩ := getSlot_exec hx₁
    exact ⟨_, rfl, .slot (not_not.mp h0)⟩

/-- A level, and what is below it. -/
theorem getLevels_exec {r : Except Stuck Walk} (hx : Prog.Exec Mem.load m s (getLevels key (l + 1) a) r) :
    ∃ s₁ s₂ w, s = s₁ ++ s₂ ∧ Level key (l + 1) a m s₁ w ∧
      match w with
      | .ret v => r = .ok (.ret v)
      | .next (.node b) => Prog.Exec Mem.load (storeAll m (stores s₁)) s₂ (getLevels key l b) r
      | .next _ => r = .error .wildDeref := by
  obtain ⟨s₁, s₂, r₁, rfl, h₁, h₂⟩ := hx.bind
  obtain ⟨w, rfl, hw⟩ := GETL_exec h₁
  refine ⟨s₁, s₂, w, rfl, hw, ?_⟩
  cases w with
  | ret v => exact h₂.of_ret.1
  | next p =>
      cases p with
      | node b => exact h₂
      | null => exact h₂.of_ret.1
      | val v => exact h₂.of_ret.1

/-- `tcradix_get` is a round like those of `get_slow`. -/
theorem tcradixGet_eq (key : Word) (fuel : ℕ) : tcradixGet key fuel = getSlow key (fuel + 1) := rfl

/-- One round. -/
theorem getSlow_exec {r : Except Stuck ℕ} (hx : Prog.Exec Mem.load m s (getSlow key (fuel + 1)) r) :
    ∃ es s', s = es.map .store ++ .load .writeStatus :: s' ∧
      (Prog.Exec Mem.load (storeAll m es) s' (getSlow key fuel) r ∨
        ¬ busy (storeAll m es).writeStatus ∧ ∃ s₁ s₂ w, s' = s₁ ++ s₂ ∧
          Prog.Exec Mem.load (storeAll m es) s₁ (getLevels key TOP 0) w ∧
          match w with
          | .error e => r = .error e
          | .ok (.ret v) => r = .ok v
          | .ok (.next p) => ∃ es' s₃, s₂ = es'.map .store ++ .load .writeStatus :: s₃ ∧
            (Prog.Exec Mem.load (storeAll (storeAll (storeAll m es) (stores s₁)) es') s₃ (getSlow key fuel) r ∨
              (storeAll m es).writeStatus = (storeAll (storeAll (storeAll m es) (stores s₁)) es').writeStatus ∧
                r = .ok (toVoid p))) := by
  obtain ⟨es, s', rfl, hx₁⟩ := hx.of_get_bind
  refine ⟨es, s', rfl, ?_⟩
  split at hx₁
  · exact Or.inl hx₁
  · rename_i hb
    obtain ⟨s₁, s₂, w, rfl, h₁, h₂⟩ := hx₁.bind
    refine Or.inr ⟨hb, s₁, s₂, w, rfl, h₁, ?_⟩
    cases w with
    | error e => exact h₂.of_ret.1
    | ok w =>
        cases w with
        | ret v => exact h₂.of_ret.1
        | next p =>
            obtain ⟨es', s₃, rfl, h₃⟩ := h₂.of_get_bind
            refine ⟨es', s₃, rfl, ?_⟩
            split at h₃
            · exact Or.inl h₃
            · rename_i hw
              exact Or.inr ⟨not_not.mp hw, h₃.of_ret.1⟩

end Ptok.Tcradix
