import Ptok.Lib.Atomic

/-!
# Properties of code

A property that reads have and that passes from code to code after it. To show it of a program it is enough to look at the
stores.
-/

namespace Ptok.Lib

variable {M E α : Type} [Storable M E]

structure Wr.Closed (C : (α : Type) → Wr M E α → Prop) : Prop where
  pure : ∀ {α : Type} (a : α), C α (Pure.pure a)
  read : ∀ {α : Type} (f : M → α), C α (Wr.read f)
  stuck : ∀ {α : Type} (e : Stuck), C α (Wr.stuck e)
  bind : ∀ {α β : Type} {x : Wr M E α} {f : α → Wr M E β}, C α x → (∀ a, C β (f a)) → C β (x >>= f)

namespace Wr

theorem Closed.forM {C : (α : Type) → Wr M E α → Prop} (h : Closed C) {ι : Type} {f : ι → Wr M E Unit}
    (hf : ∀ i, C Unit (f i)) (l : List ι) : C Unit (l.forM f) := by
  induction l with
  | nil => exact h.pure ()
  | cons i l ih => exact h.bind (hf i) fun _ => ih

/-- What is stored is of some kind. -/
theorem Emits.closed (P : E → Prop) : Closed (M := M) fun _ => Emits P where
  pure := .pure
  read := .read
  stuck := .stuck
  bind := .bind

/-- The memories before and after are related. -/
theorem Relates.closed {R : M → M → Prop} (hr : ∀ m, R m m) (ht : ∀ ⦃m m' m''⦄, R m m' → R m' m'' → R m m'') :
    Closed fun _ => Relates R where
  pure := .pure hr
  read := .read hr
  stuck := .stuck
  bind := .bind ht

end Wr

end Ptok.Lib
