import Ptok.Critnib.Concurrent.Pred

/-!
# What critnib_find_le always returns

When the map does not change calmly, an answer of `find_le` may never have been right. But a value that it returns was
bound to some key up to the one it was asked for; no key that stays is missed while the keys up to there only come; and
as long as the greatest of them stays the greatest, its value is the answer.
-/

namespace Ptok.Critnib

open Lib

attribute [local instance] keyOrder

variable {m : Mem} {g : Ghost} {key x z : Word} {p : Ptr} {v fuel : ℕ} {ok : ℕ → Bool} {ops : List Op} {log rest : List Event}
  {node : Addr → Node} {leaf : Addr → Leaf} {ι : Type} [DecidableEq ι] {ps ps' : ι → R ℕ}
  {before during : List (Sys.Act ι Event Loc Loc.Val ℕ)} {i : ι}

/-- A leaf of the key with this value is linked. -/
def Mem.Binds (m : Mem) (key : Word) (v : ℕ) : Prop := ∃ k, m.Live (.leaf k) ∧ (m.leaf k).key = key ∧ (m.leaf k).value = v

theorem Inv.binds_iff (h : Inv m g) : m.Binds x v ↔ g.tree.map x = some v := by
  rw [T.map_eq_some h.fits.routed]
  constructor
  · rintro ⟨k, hk, rfl, rfl⟩
    exact ⟨_, (sub_leaf_of_reaches h.rep hk).has rfl, rfl, rfl⟩
  · rintro ⟨l, hl, rfl, rfl⟩
    obtain ⟨k, hk, rfl⟩ := h.exists_live hl
    exact ⟨k, hk, rfl, rfl⟩

end Ptok.Critnib
