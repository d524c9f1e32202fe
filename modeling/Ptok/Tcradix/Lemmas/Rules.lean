import Ptok.Lib.Code
import Ptok.Tcradix.Model

/-!
# The stores of writers

To show something of all that `tcradix_insert` or `tcradix_remove` stores between its pokes it is enough to show it of
single stores and of `alloc_node`.
-/

namespace Ptok.Tcradix

open Lib

variable {C : (α : Type) → W α → Prop} {ok : ℕ → Bool}

/-- It holds of a store to a field of a node. -/
structure Stores (C : (α : Type) → W α → Prop) : Prop extends Wr.Closed C where
  nodes : ∀ a i p, C Unit (Wr.emit (.nodes a i p))
  onlyKey : ∀ a w, C Unit (Wr.emit (.onlyKey a w))
  onlyVal : ∀ a v, C Unit (Wr.emit (.onlyVal a v))
  nchildren : ∀ a n, C Unit (Wr.emit (.nchildren a n))

/-- And of what else an insert does. -/
structure Fills (ok : ℕ → Bool) (C : (α : Type) → W α → Prop) : Prop extends Stores C where
  alloc : C Ptr (allocNode ok)
  free : ∀ a, C Unit (Wr.emit (.free a))

/-- And of what else a remove does. -/
structure Drops (C : (α : Type) → W α → Prop) : Prop extends Stores C where
  pool : ∀ p, C Unit (Wr.emit (.deletedNode p))

namespace Fills

theorem withChild (h : Fills ok C) {f : Addr → W Unit} (hf : ∀ a, C Unit (f a)) (p : Ptr) : C Unit (withChild f p) := by
  cases p with
  | null => exact h.pure ()
  | val v => exact h.stuck _
  | node a => exact hf a

theorem teardown (h : Fills ok C) (lev : ℕ) (n : Addr) : C Unit (teardown lev n) := by
  induction lev generalizing n with
  | zero => exact h.free n
  | succ lev ih =>
      refine h.bind (h.read _) fun x => ?_
      split
      · exact h.bind (h.withChild ih _) fun _ => h.free n
      · exact h.bind (h.forM (fun _ => h.bind (h.read _) fun p => h.withChild ih p) _) fun _ => h.free n

section

variable (h : Fills ok C) {insert : Addr → Word → ℕ → W Errno} (hins : ∀ n key value, C Errno (insert n key value))
include h hins

theorem fillChild (lev : ℕ) (n : Addr) (key : Word) (value : ℕ) : C Errno (fillChild insert lev n key value) := by
  refine h.bind (h.onlyKey _ _) fun _ => h.bind (h.onlyVal _ _) fun _ => h.bind (h.nchildren _ _) fun _ => ?_
  split
  · exact h.bind (h.nodes _ _ _) fun _ => h.pure _
  · split
    · exact hins _ _ _
    · exact h.pure _

theorem insertChild (lev : ℕ) (n : Addr) (key : Word) (value : ℕ) :
    C Errno (insertChild ok insert lev n key value) := by
  refine h.bind (h.read _) fun p => ?_
  cases p with
  | val v => exact h.stuck _
  | node a => exact hins _ _ _
  | null =>
      refine h.bind h.alloc fun p => ?_
      cases p with
      | null => exact h.pure _
      | val v => exact h.pure _
      | node a =>
          refine h.bind (h.fillChild hins _ _ _ _) fun ret => ?_
          split
          · exact h.bind (h.teardown _ _) fun _ => h.pure _
          · exact h.bind (h.nodes _ _ _) fun _ => h.bind (h.read _) fun _ => h.bind (h.nchildren _ _) fun _ => h.pure _

theorem pushDown (lev : ℕ) (n : Addr) (key : Word) (value : ℕ) : C Errno (pushDown ok insert lev n key value) := by
  refine h.bind (h.read _) fun x => ?_
  split
  · exact h.pure _
  · split
    · exact h.bind (h.onlyVal _ _) fun _ => h.pure _
    · refine h.bind (h.insertChild hins _ _ _ _) fun ret => ?_
      split
      · exact h.pure _
      · exact h.bind (h.onlyKey _ _) fun _ => h.pure _

end

theorem insert (h : Fills ok C) (lev : ℕ) (n : Addr) (key : Word) (value : ℕ) : C Errno (insert ok lev n key value) := by
  induction lev generalizing n key value with
  | zero =>
      refine h.bind (h.read _) fun x => ?_
      split
      · exact h.bind (h.nchildren _ _) fun _ => h.bind (h.nodes _ _ _) fun _ => h.pure _
      · exact h.bind (h.nodes _ _ _) fun _ => h.pure _
  | succ lev ih =>
      refine h.bind (h.pushDown ih _ _ _ _) fun ret => ?_
      split
      · exact h.pure _
      · exact h.insertChild ih _ _ _ _

end Fills

theorem Stores.setRoot (h : Stores C) (key : Word) (value : ℕ) : C Unit (setRoot key value) := by
  refine h.bind (h.read _) fun b => ?_
  split
  · exact h.bind (h.onlyVal _ _) fun _ => h.onlyKey _ _
  · exact h.pure _

theorem Stores.clearKey (h : Stores C) (n : Addr) (key : Word) (value : ℕ) : C ℕ (clearKey n key value) := by
  refine h.bind (h.read _) fun x => ?_
  split
  · exact h.bind (h.onlyKey _ _) fun _ => h.pure _
  · exact h.pure _

theorem Stores.clearSlot (h : Stores C) (n : Addr) (key : Word) (value : ℕ) : C (Bool × ℕ) (clearSlot n key value) := by
  refine h.bind (h.read _) fun x => ?_
  split
  · exact h.bind (h.nodes _ _ _) fun _ => h.bind (h.nchildren _ _) fun _ => h.bind (h.read _) fun _ => h.pure _
  · exact h.pure _

theorem Drops.dropChild (h : Drops C) (n : Addr) (slice : Fin 16) (a : Addr) : C Unit (dropChild n slice a) :=
  h.bind (h.nodes _ _ _) fun _ => h.bind (h.onlyVal _ _) fun _ => h.bind (h.read _) fun _ =>
    h.bind (h.nodes _ _ _) fun _ => h.bind (h.pool _) fun _ => h.bind (h.read _) fun _ => h.nchildren _ _

theorem Drops.nremove (h : Drops C) (lev : ℕ) (n : Addr) (key : Word) (value : ℕ) :
    C (Bool × ℕ) (nremove lev n key value) := by
  induction lev generalizing n key value with
  | zero => exact h.bind (h.clearKey _ _ _) fun _ => h.clearSlot _ _ _
  | succ lev ih =>
      refine h.bind (h.clearKey _ _ _) fun value => h.bind (h.read _) fun p => ?_
      cases p with
      | null => exact h.bind (h.read _) fun _ => h.pure _
      | val v => exact h.stuck _
      | node a =>
          refine h.bind (ih _ _ _) fun ret => ?_
          split
          split
          · exact h.pure _
          · exact h.bind (h.dropChild _ _ _) fun _ => h.bind (h.read _) fun _ => h.pure _

end Ptok.Tcradix
