import Mathlib

/-!
# Walks along a partial successor function

`f a` is the place after `a`, if there is one. A walk may go round in circles; what a change of `f` does to that is
decided here.
-/

namespace Ptok.Lib

variable {α : Type} {f f' : α → Option α} {a b x : α}

/-- The walk from `a` comes to an end. -/
inductive Ends (f : α → Option α) : α → Prop
  | stop {a : α} (h : f a = none) : Ends f a
  | next {a b : α} (h : f a = some b) (hb : Ends f b) : Ends f a

/-- The walk from `a` comes through `b`. -/
def Comes (f : α → Option α) : α → α → Prop := Relation.ReflTransGen fun a b => f a = some b

theorem Ends.succ (h : Ends f a) (hf : f a = some b) : Ends f b := by
  cases h with
  | stop h => rw [h] at hf; cases hf
  | next h hb => rw [h] at hf; cases hf; exact hb

theorem Ends.of_comes (h : Ends f a) (hab : Comes f a b) : Ends f b := by
  induction hab with
  | refl => exact h
  | tail _ hbc ih => exact ih.succ hbc

/-- A walk that ends does not come back. -/
theorem Ends.not_back (h : Ends f a) (hf : f a = some b) : ¬ Comes f b a := by
  induction h generalizing b with
  | stop h => rw [h] at hf; cases hf
  | @next a c h _ ih =>
      rw [h] at hf
      cases hf
      intro hca
      -- the first step of the way back leads from `c` to some `d` that comes through `a` and `c`
      rcases Relation.ReflTransGen.cases_head hca with rfl | ⟨d, hcd, hda⟩
      · exact ih h .refl
      · exact ih hcd (hda.tail h)

/-- The two functions agree but on places where walks of the second one end. -/
theorem Ends.of_agree {p : α → Prop} (h : Ends f a) (hp : ∀ x, p x → Ends f' x) (hf : ∀ x, ¬ p x → f' x = f x) :
    Ends f' a := by
  induction h with
  | @stop a h =>
      by_cases ha : p a
      · exact hp a ha
      · exact .stop ((hf a ha).trans h)
  | @next a b h _ ih =>
      by_cases ha : p a
      · exact hp a ha
      · exact .next ((hf a ha).trans h) ih

/-! ## One new link -/

/-- The walk from `x` does not notice the change at `a`. -/
theorem Ends.of_avoid (h : Ends f x) (hx : ¬ Comes f x a) (hf : ∀ y ≠ a, f' y = f y) : Ends f' x := by
  induction h with
  | @stop x h =>
      have hne : x ≠ a := fun he => hx (he ▸ .refl)
      exact .stop ((hf x hne).trans h)
  | @next x y h _ ih =>
      have hne : x ≠ a := fun he => hx (he ▸ .refl)
      exact .next ((hf x hne).trans h) (ih fun hy => hx (.head h hy))

/-- Up to `a` the walk does not notice it either. -/
theorem Comes.of_agree (h : Comes f x a) (hf : ∀ y ≠ a, f' y = f y) : Comes f' x a := by
  induction h using Relation.ReflTransGen.head_induction_on with
  | refl => exact .refl
  | @head x y hxy _ ih =>
      by_cases hx : x = a
      · rw [hx]
        exact .refl
      · exact .head ((hf x hx).trans hxy) ih

/-- After `a` was linked to `b` the walk from `a` ends exactly if the walk from `b` did not come through `a`. -/
theorem ends_link_iff (hb : Ends f b) (hf : ∀ y ≠ a, f' y = f y) (hab : f' a = some b) :
    Ends f' a ↔ ¬ Comes f b a := by
  constructor
  · exact fun h hba => h.not_back hab (hba.of_agree hf)
  · exact fun hba => .next hab (hb.of_avoid hba hf)

end Ptok.Lib
