import Ptok.Word

/-!
# The map behind the structures

What critnib, critnib_tag, tcradix and critbit are for: a partial map from 64-bit keys to values. A value is a
`void *`, here a number, with 0 for `NULL`.
-/

namespace Ptok

/-- `NULL` as a `void *` -/
abbrev NULL : ℕ := 0

/-- What the insert functions return; `ok` is 0. -/
inductive Errno
  | ok
  | EEXIST
  | ENOMEM
  deriving DecidableEq, Repr

/-- A partial map from keys to values; a key can be bound to `NULL`. -/
abbrev KMap := Word → Option ℕ

namespace KMap

def empty : KMap := fun _ => none

def bind (f : KMap) (key : Word) (value : ℕ) : KMap := Function.update f key (some value)

def unbind (f : KMap) (key : Word) : KMap := Function.update f key none

/-- The value of a key as the lookups report it: `NULL` when the key is unbound. -/
def val (f : KMap) (key : Word) : ℕ := (f key).getD NULL

/-- `p` is the greatest bound key that is `≤ key` in unsigned order. -/
def IsPred (f : KMap) (key p : Word) : Prop :=
  f p ≠ none ∧ p ≤ key ∧ ∀ k, f k ≠ none → k ≤ key → k ≤ p

/-- The value of the predecessor of `key`, `NULL` where there is none. -/
inductive LeVal (f : KMap) (key : Word) : ℕ → Prop
  | found {p : Word} {v : ℕ} (h : f.IsPred key p) (hv : f p = some v) : LeVal f key v
  | none (h : ∀ k, f k ≠ none → key < k) : LeVal f key NULL

/-- Only the least key can have the value `NULL`. -/
def NullLeast (f : KMap) : Prop := ∀ k, f k = some NULL → ∀ k', f k' ≠ none → k ≤ k'

theorem LeVal.unique {f : KMap} {key : Word} {v v' : ℕ} (h : f.LeVal key v) (h' : f.LeVal key v') : v = v' := by
  cases h with
  | @found p v hp hv =>
      cases h' with
      | @found p' v' hp' hv' =>
          have : p = p' := BitVec.le_antisymm (hp'.2.2 p hp.1 hp.2.1) (hp.2.2 p' hp'.1 hp'.2.1)
          rw [this, hv'] at hv
          exact (Option.some.inj hv).symm
      | none hn => exact absurd hp.2.1 (BitVec.not_le.mpr (hn p hp.1))
  | none hn =>
      cases h' with
      | found hp hv => exact absurd hp.2.1 (BitVec.not_le.mpr (hn _ hp.1))
      | none _ => rfl

@[simp] theorem bind_self (f : KMap) (key : Word) (value : ℕ) : f.bind key value key = some value := by
  simp [bind]

@[simp] theorem unbind_self (f : KMap) (key : Word) : f.unbind key key = none := by
  simp [unbind]

theorem bind_of_ne (f : KMap) {key k : Word} (value : ℕ) (h : k ≠ key) : f.bind key value k = f k := by
  simp [bind, h]

theorem unbind_of_ne (f : KMap) {key k : Word} (h : k ≠ key) : f.unbind key k = f k := by
  simp [unbind, h]

end KMap

end Ptok
