import Ptok.Lib.Interleave

/-!
# Loads at moments

`Prog.Exec` lists the stores between the loads of a reader. Where it matters what the memory was at some earlier load,
the memory is a sequence instead, and every load has its moment in it.
-/

namespace Ptok.Lib.Prog

variable {M E Loc : Type} {Val : Loc → Type} {α β : Type} {rd : M → (l : Loc) → Val l} {mem : ℕ → M} {i j t : ℕ}

/-- A program that begins at one moment ends with a result at another. -/
inductive Timed (rd : M → (l : Loc) → Val l) (mem : ℕ → M) : ℕ → Prog Loc Val α → Except Stuck α → ℕ → Prop
  | ret {i j : ℕ} (r : Except Stuck α) (h : i ≤ j) : Timed rd mem i (.ret r) r j
  | load {i j t : ℕ} {l : Loc} {k : Val l → Prog Loc Val α} {r : Except Stuck α} (h : i ≤ t)
      (hk : Timed rd mem t (k (rd (mem t) l)) r j) : Timed rd mem i (.load l k) r j

namespace Timed

variable {p : Prog Loc Val α} {r r₀ : Except Stuck α}

theorem le (h : Timed rd mem i p r j) : i ≤ j := by
  induction h with
  | ret r h => exact h
  | load h _ ih => exact h.trans ih

theorem start (h : Timed rd mem t p r j) (hi : i ≤ t) : Timed rd mem i p r j := by
  cases h with
  | ret r h => exact .ret r (hi.trans h)
  | load h hk => exact .load (hi.trans h) hk

theorem of_ret (h : Timed rd mem i (.ret r₀) r j) : r = r₀ := by
  cases h
  rfl

theorem of_get_bind {l : Loc} {f : Val l → Prog Loc Val α} (h : Timed rd mem i (get l >>= f) r j) :
    ∃ t, i ≤ t ∧ Timed rd mem t (f (rd (mem t) l)) r j := by
  cases h with
  | load h hk => exact ⟨_, h, hk⟩

theorem of_load {l : Loc} {r : Except Stuck (Val l)} (h : Timed rd mem i (get l) r j) :
    ∃ t, i ≤ t ∧ t ≤ j ∧ r = .ok (rd (mem t) l) := by
  cases h with
  | load h hk => exact ⟨_, h, hk.le, hk.of_ret⟩

theorem bind {p : Prog Loc Val β} {f : β → Prog Loc Val α} (h : Timed rd mem i (p >>= f) r j) :
    (∃ b t, Timed rd mem i p (.ok b) t ∧ Timed rd mem t (f b) r j) ∨
      ∃ e, Timed rd mem i p (.error e) j ∧ r = .error e := by
  change Timed rd mem i (p.bind f) r j at h
  induction p generalizing i with
  | ret r₀ =>
      cases r₀ with
      | ok b => exact Or.inl ⟨b, i, .ret _ le_rfl, h⟩
      | error e => exact Or.inr ⟨e, .ret _ h.le, h.of_ret⟩
  | load l k ih =>
      cases h with
      | load h hk =>
          rcases ih _ hk with ⟨b, t, h₁, h₂⟩ | ⟨e, h₁, he⟩
          · exact Or.inl ⟨b, t, .load h h₁, h₂⟩
          · exact Or.inr ⟨e, .load h h₁, he⟩

theorem bind_ok {p : Prog Loc Val β} {f : β → Prog Loc Val α} {a : α} (h : Timed rd mem i (p >>= f) (.ok a) j) :
    ∃ b t, Timed rd mem i p (.ok b) t ∧ Timed rd mem t (f b) (.ok a) j := by
  rcases h.bind with h | ⟨e, -, he⟩
  · exact h
  · cases he

/-- While nothing is stored. -/
theorem eval (m : M) (p : Prog Loc Val α) : Timed rd (fun _ => m) i p (p.eval (rd m)) i := by
  induction p with
  | ret r => exact .ret r le_rfl
  | load l k ih => exact .load le_rfl (ih _)

end Timed

/-- The run of a reader, in the sequence of memories that its stores make. -/
theorem Exec.timed [Storable M E] {m : M} {s : List (Act Loc E)} {p : Prog Loc Val α} {r : Except Stuck α}
    (h : Exec rd m s p r) (hmem : ∀ k ≤ (stores s).length, mem (i + k) = storeAll m ((stores s).take k)) :
    Timed rd mem i p r (i + (stores s).length) := by
  induction h generalizing i with
  | ret m r => exact .ret r le_rfl
  | @load m s l k r h ih =>
      have h0 : mem i = m := hmem 0 (Nat.zero_le _)
      refine .load le_rfl ?_
      rw [h0]
      exact ih hmem
  | @store m s e p r h ih =>
      have hnext : Timed rd mem (i + 1) p r (i + 1 + (stores s).length) := by
        refine ih fun k hk => ?_
        have := hmem (k + 1) (by simpa using hk)
        rwa [← Nat.add_assoc, Nat.add_right_comm] at this
      rw [stores_store, List.length_cons, ← Nat.add_assoc, Nat.add_right_comm]
      exact hnext.start (Nat.le_succ i)

end Ptok.Lib.Prog
