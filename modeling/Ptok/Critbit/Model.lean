import Ptok.Lib.Atomic
import Ptok.Lib.Tree
import Ptok.Map

/-!
# critbit.c

Leaves and inner nodes are the same `struct critbit_node`; a leaf has `bit == 0`, its key in `path` and its value in
`child[0]`. One call of malloc gives a block of two: the leaf of a key and the inner node above it. Blocks are never
used again, their first halves are only put on a list when a key is removed.
-/

namespace Ptok.Critbit

open Lib

/-- `struct critbit_node *`, with 0 for `NULL`. A value is stored in the same field as a pointer. -/
abbrev Addr := ℕ

structure Node where
  child : Fin 2 → Addr
  path : Word
  bit : Word

/-- What `Zalloc` gives. -/
def Node.zero : Node := ⟨fun _ => 0, 0, 0⟩

/-- `struct critbit` and the heap. -/
structure Mem where
  root : Addr
  /-- list of removed leaves, linked by `child[0]` -/
  deletedNode : Addr
  node : Addr → Node
  /-- how many blocks were obtained from malloc, and how often it returned `NULL` -/
  malloced : ℕ
  fails : ℕ

/-- `critbit_new`: all fields are zero. What the heap holds before malloc hands it out is arbitrary. -/
def critbitNew (node : Addr → Node) : Mem := ⟨0, 0, node, 0, 0⟩

/-- The start address of a block, which is its leaf half; the inner half follows it. -/
def blockAddr (i : ℕ) : Addr := 2 * i + 1

/-- One store of a writer. -/
inductive Event
  /-- `*s = p` for the root or a child slot -/
  | slot (s : Slot Addr (Fin 2)) (p : Addr)
  /-- `k->child[0] = value` -/
  | value (k : Addr) (v : ℕ)
  | path (n : Addr) (w : Word)
  | bit (n : Addr) (w : Word)
  | deletedNode (n : Addr)
  /-- `Zalloc` of a block, and whether it succeeded -/
  | zalloc (ok : Bool)
  deriving DecidableEq

namespace Mem

def setNode (m : Mem) (n : Addr) (f : Node → Node) : Mem :=
  { m with node := Function.update m.node n (f (m.node n)) }

def store (m : Mem) : Event → Mem
  | .slot .root p => { m with root := p }
  | .slot (.child n i) p => m.setNode n fun x => { x with child := Function.update x.child i p }
  | .value k v => m.setNode k fun x => { x with child := Function.update x.child 0 v }
  | .path n w => m.setNode n fun x => { x with path := w }
  | .bit n w => m.setNode n fun x => { x with bit := w }
  | .deletedNode n => { m with deletedNode := n }
  | .zalloc true =>
    let k := blockAddr m.malloced
    { m with
      node := Function.update (Function.update m.node k .zero) (k + 1) .zero
      malloced := m.malloced + 1 }
  | .zalloc false => { m with fails := m.fails + 1 }

/-- Follow a pointer. -/
def nodeAt (m : Mem) (n : Addr) : Except Stuck Node := if n = 0 then .error .nullDeref else .ok (m.node n)

/-- How often malloc was called. -/
def mallocs (m : Mem) : ℕ := m.malloced + m.fails

/-- `*s` -/
def slot (m : Mem) : Slot Addr (Fin 2) → Addr
  | .root => m.root
  | .child n i => (m.node n).child i

end Mem

instance : Storable Mem Event := ⟨Mem.store⟩

abbrev W := Wr Mem Event

/-- `!!w` as an index -/
def dirOf (w : Word) : Fin 2 := if w = 0 then 0 else 1

/-! ## Writers

`ok` says of each malloc call, counted over the whole life of the structure, whether it succeeds.
-/

/-- The branch that takes a node from `deleted_node` is switched off in the source. -/
def allocNode (ok : ℕ → Bool) : W Addr := do
  let b ← Wr.read fun m => ok m.mallocs
  let i ← Wr.read (·.malloced)
  Wr.emit (.zalloc b)
  pure (if b then blockAddr i else 0)

def freeNode (n : Addr) : W Unit := do
  let head ← Wr.read (·.deletedNode)
  Wr.emit (.slot (.child n 0) head)
  Wr.emit (.deletedNode n)

/-- The loop `while (n->bit && ((key & (n->bit-1)) == n->path))`; it ends with `parent` and `n`. -/
def insertDive (m : Mem) (key : Word) : ℕ → Slot Addr (Fin 2) → Addr → Except Stuck (Slot Addr (Fin 2) × Addr)
  | 0, _, _ => .error .fuel
  | fuel + 1, parent, n => do
    let x ← m.nodeAt n
    if x.bit ≠ 0 ∧ key &&& (x.bit - 1) = x.path then
      insertDive m key fuel (.child n (dirOf (x.bit &&& key))) (x.child (dirOf (x.bit &&& key)))
    else .ok (parent, n)

/-- `critbit_insert` from the computation of `at` on; `k + 1` is the inner node of the block. -/
def linkSplit (key : Word) (k : Addr) (parent : Slot Addr (Fin 2)) (n : Addr) : W Unit := do
  let x ← Wr.query (·.nodeAt n)
  let at_ := (x.path ^^^ key) &&& -(x.path ^^^ key)
  let m := k + 1
  let dir := dirOf (key &&& at_)
  Wr.emit (.slot (.child m dir) k)
  Wr.emit (.slot (.child m (1 - dir)) n)
  Wr.emit (.bit m at_)
  Wr.emit (.path m (key &&& (at_ - 1)))
  Wr.emit (.slot parent m)

/-- `critbit_insert` under the mutex. -/
def insertLeaf (fuel : ℕ) (key : Word) (k : Addr) : W Errno := do
  let n ← Wr.read (·.root)
  if n = 0 then do
    Wr.emit (.slot .root k)
    pure .ok
  else do
    let (parent, n) ← Wr.query fun m => insertDive m key fuel .root n
    linkSplit key k parent n
    pure .ok

def critbitInsert (ok : ℕ → Bool) (fuel : ℕ) (key : Word) (value : ℕ) : W Errno := do
  let k ← allocNode ok
  if k = 0 then pure .ENOMEM
  else do
    Wr.emit (.path k key)
    Wr.emit (.value k value)
    insertLeaf fuel key k

/-- The loop `while (k->bit)`; it ends with `n_parent`, `n`, `k_parent` and `k`. -/
def removeDive (m : Mem) (key : Word) : ℕ → Slot Addr (Fin 2) → Addr → Slot Addr (Fin 2) → Addr →
    Except Stuck (Slot Addr (Fin 2) × Addr × Slot Addr (Fin 2) × Addr)
  | 0, _, _, _, _ => .error .fuel
  | fuel + 1, nParent, n, kParent, k => do
    let x ← m.nodeAt k
    if x.bit ≠ 0 then
      removeDive m key fuel kParent k (.child k (dirOf (x.bit &&& key))) (x.child (dirOf (x.bit &&& key)))
    else .ok (nParent, n, kParent, k)

/-- `critbit_remove` once the leaf is found. -/
def splice (nParent : Slot Addr (Fin 2)) (n : Addr) (kParent : Slot Addr (Fin 2)) (k : Addr) : W ℕ := do
  let x ← Wr.query (·.nodeAt n)
  if kParent = .child n 0 then Wr.emit (.slot nParent (x.child 1))
  else Wr.emit (.slot nParent (x.child 0))
  let value ← Wr.read fun m => (m.node k).child 0
  freeNode k
  pure value

def critbitRemove (fuel : ℕ) (key : Word) : W ℕ := do
  let n ← Wr.read (·.root)
  if n = 0 then pure NULL
  else do
    let x ← Wr.query (·.nodeAt n)
    if x.bit = 0 then
      if x.path = key then do
        Wr.emit (.slot .root 0)
        let value ← Wr.read fun m => (m.node n).child 0
        freeNode n
        pure value
      else pure NULL
    else do
      let (nParent, n, kParent, k) ← Wr.query fun m => removeDive m key fuel .root n .root n
      let x ← Wr.query (·.nodeAt k)
      if x.path ≠ key then pure NULL
      else splice nParent n kParent k

/-! ## critbit_delete -/

def deleteNode : ℕ → Addr → W Unit
  | 0, _ => Wr.stuck .fuel
  | fuel + 1, n => do
    let x ← Wr.query (·.nodeAt n)
    if x.bit = 0 then freeNode n
    else do
      let x ← Wr.query (·.nodeAt n)
      if x.child 0 ≠ 0 then deleteNode fuel (x.child 0)
      let x ← Wr.query (·.nodeAt n)
      if x.child 1 ≠ 0 then deleteNode fuel (x.child 1)

/-- What is passed to `Free`: the structure itself or an address. -/
inductive Block
  | critbit
  | addr (a : Addr)
  deriving DecidableEq

/-- The loop over `deleted_node`. -/
def freeList (m : Mem) : ℕ → Addr → Except Stuck (List Addr)
  | 0, _ => .error .fuel
  | fuel + 1, a =>
    if a = 0 then .ok []
    else do
      let rest ← freeList m fuel ((m.node a).child 0)
      pure (a :: rest)

/-- The addresses passed to `Free`, in order. -/
def critbitDelete (fuel : ℕ) : W (List Block) := do
  let root ← Wr.read (·.root)
  if root ≠ 0 then deleteNode fuel root
  let l ← Wr.query fun m => freeList m fuel m.deletedNode
  pure (l.map .addr ++ [.critbit])

/-! ## critbit_get -/

/-- A shared word that readers load. -/
inductive Loc
  | root
  | child (a : Addr) (i : Fin 2)
  | path (a : Addr)
  | bit (a : Addr)
  deriving DecidableEq

abbrev Loc.Val : Loc → Type
  | .root => Addr
  | .child _ _ => Addr
  | .path _ => Word
  | .bit _ => Word

def Mem.load (m : Mem) : (l : Loc) → l.Val
  | .root => m.root
  | .child a i => (m.node a).child i
  | .path a => (m.node a).path
  | .bit a => (m.node a).bit

abbrev R := Prog Loc Loc.Val

abbrev load (l : Loc) : R l.Val := Prog.get l

/-- The loop `while (n->bit)`. -/
def dive (key : Word) : ℕ → Addr → R Addr
  | 0, _ => Prog.stuck .fuel
  | fuel + 1, n =>
    if n = 0 then Prog.stuck .nullDeref
    else do
      let bit ← load (.bit n)
      if bit ≠ 0 then do
        let bit ← load (.bit n)
        let n ← load (.child n (dirOf (bit &&& key)))
        dive key fuel n
      else pure n

def critbitGet (key : Word) (fuel : ℕ) : R ℕ := do
  let n ← load .root
  if n = 0 then pure NULL
  else do
    let n ← dive key fuel n
    let path ← load (.path n)
    if path = key then load (.child n 0) else pure NULL

/-! ## Calls one after another -/

inductive Op
  | insert (key : Word) (value : ℕ)
  | remove (key : Word)
  | get (key : Word)

inductive Ret
  | errno (e : Errno)
  | value (v : ℕ)
  deriving DecidableEq, Repr

/-- One call while nobody else is at work. -/
def call (ok : ℕ → Bool) (op : Op) (m : Mem) (fuel : ℕ) : Except Stuck (Ret × Mem) :=
  match op with
  | .insert key value => do
    let (e, m') ← (critbitInsert ok fuel key value).exec m
    pure (.errno e, m')
  | .remove key => do
    let (v, m') ← (critbitRemove fuel key).exec m
    pure (.value v, m')
  | .get key => do
    let v ← (critbitGet key fuel).eval m.load
    pure (.value v, m)

end Ptok.Critbit
