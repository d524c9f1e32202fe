import Ptok.Lib.Atomic
import Ptok.Map

/-!
# tcradix.c

A radix tree of 16 levels with tail compression. Writers hold the mutex and are `Wr` code, `tcradix_get` is a program of
loads. `insert`, `nremove` and `teardown` recurse on the level of the node, so they need no fuel.
-/

namespace Ptok.Tcradix

open Lib

/-- The address of a node. The root is part of the head; it has address 0, and what malloc returns comes after. -/
abbrev Addr := ℕ

/-- What a slot of a node holds: a `struct tcrnode *` above the last level, a `void *` there. -/
inductive Ptr
  | null
  | node (a : Addr)
  | val (v : ℕ)
  deriving DecidableEq, Repr

/-- `LEVELS-1` -/
abbrev TOP : ℕ := 15

/-- `TOP_EMPTY` -/
abbrev TOP_EMPTY : Word := 0xffffffffffffffff#64

/-- A `void *` in a slot. -/
def ofVoid (v : ℕ) : Ptr := if v = NULL then .null else .val v

/-- A slot taken for a `void *`. -/
def toVoid : Ptr → ℕ
  | .null => NULL
  | .node a => a + 1
  | .val v => v

/-- `struct tcrnode`. No node has more than 16 children, so `nchildren` does not overflow. -/
@[ext] structure Node where
  nodes : Fin 16 → Ptr
  onlyKey : Word
  onlyVal : ℕ
  nchildren : ℕ

/-- `Zalloc` -/
def Node.zero : Node := ⟨fun _ => .null, 0, NULL, 0⟩

/-- `struct tcrhead` and the heap. -/
structure Mem where
  writeStatus : Word
  /-- pool of removed nodes, linked by `nodes[0]` -/
  deletedNode : Ptr
  node : Addr → Node
  /-- how many nodes were obtained from malloc, and how often it returned `NULL` -/
  malloced : ℕ
  fails : ℕ
  /-- what was passed to `Free` -/
  freed : List Addr

/-- `tcradix_new`: the head is zero but for the mark in `root.only_key`. The rest of the heap is arbitrary. -/
def tcradixNew (node : Addr → Node) : Mem where
  writeStatus := 0
  deletedNode := .null
  node := Function.update node 0 { Node.zero with onlyKey := TOP_EMPTY }
  malloced := 0
  fails := 0
  freed := []

/-- One store of a writer. -/
inductive Event
  | nodes (a : Addr) (i : Fin 16) (p : Ptr)
  | onlyKey (a : Addr) (w : Word)
  | onlyVal (a : Addr) (v : ℕ)
  | nchildren (a : Addr) (n : ℕ)
  | writeStatus (w : Word)
  | deletedNode (p : Ptr)
  /-- `Zalloc`, and whether it succeeded -/
  | zalloc (ok : Bool)
  | free (a : Addr)

namespace Mem

def setNode (m : Mem) (a : Addr) (f : Node → Node) : Mem :=
  { m with node := Function.update m.node a (f (m.node a)) }

def store (m : Mem) : Event → Mem
  | .nodes a i p => m.setNode a fun x => { x with nodes := Function.update x.nodes i p }
  | .onlyKey a w => m.setNode a fun x => { x with onlyKey := w }
  | .onlyVal a v => m.setNode a fun x => { x with onlyVal := v }
  | .nchildren a n => m.setNode a fun x => { x with nchildren := n }
  | .writeStatus w => { m with writeStatus := w }
  | .deletedNode p => { m with deletedNode := p }
  | .zalloc true =>
    { m with node := Function.update m.node (m.malloced + 1) Node.zero, malloced := m.malloced + 1 }
  | .zalloc false => { m with fails := m.fails + 1 }
  | .free a => { m with freed := m.freed ++ [a] }

end Mem

instance : Storable Mem Event := ⟨Mem.store⟩

abbrev W := Wr Mem Event

def sl (key : Word) (lev : ℕ) : Fin 16 := sliceIndex key (4 * lev)

def writePoke : W Unit := do
  let w ← Wr.read (·.writeStatus)
  Wr.emit (.writeStatus (w + 1))

/-! ## Nodes

`ok` says of each call of malloc, counted over the whole life of the structure, whether it succeeds.
-/

def zalloc (ok : ℕ → Bool) : W Ptr := do
  let b ← Wr.read fun m => ok (m.malloced + m.fails)
  let a ← Wr.read (·.malloced)
  Wr.emit (.zalloc b)
  pure (if b then .node (a + 1) else .null)

def allocNode (ok : ℕ → Bool) : W Ptr := do
  let n ← Wr.read (·.deletedNode)
  match n with
  | .null => zalloc ok
  | .val _ => Wr.stuck .wildDeref
  | .node a => do
    let x ← Wr.read (·.node a)
    Wr.emit (.deletedNode (x.nodes 0))
    Wr.emit (.nodes a 0 .null)
    pure (.node a)

/-- Call it for the node in a slot, if there is one. -/
def withChild (f : Addr → W Unit) : Ptr → W Unit
  | .null => pure ()
  | .node a => f a
  | .val _ => Wr.stuck .wildDeref

def teardown : ℕ → Addr → W Unit
  | 0, n => Wr.emit (.free n)
  | lev + 1, n => do
    let x ← Wr.read (·.node n)
    if x.onlyKey ≠ 0 then withChild (teardown lev) (x.nodes (sl x.onlyKey (lev + 1)))
    else (List.finRange 16).forM fun i => do
      let p ← Wr.read fun m => (m.node n).nodes i
      withChild (teardown lev) p
    Wr.emit (.free n)

/-! ## tcradix_insert -/

/-- The part of `insert_child` that fills a new node, before it is linked at level `lev`; `insert` is the function
`insert` for the level below. -/
def fillChild (insert : Addr → Word → ℕ → W Errno) (lev : ℕ) (m : Addr) (key : Word) (value : ℕ) : W Errno := do
  Wr.emit (.onlyKey m key)
  Wr.emit (.onlyVal m value)
  Wr.emit (.nchildren m (if lev = 1 then 1 else 0))
  if lev = 1 then do
    Wr.emit (.nodes m (sl key 0) (ofVoid value))
    pure .ok
  else if key = 0 then insert m key value
  else pure .ok

/-- `insert_child` for a node of level `lev` -/
def insertChild (ok : ℕ → Bool) (insert : Addr → Word → ℕ → W Errno) (lev : ℕ) (n : Addr) (key : Word) (value : ℕ) :
    W Errno := do
  let slice := sl key lev
  let m ← Wr.read fun m => (m.node n).nodes slice
  match m with
  | .node a => insert a key value
  | .val _ => Wr.stuck .wildDeref
  | .null => do
    let m ← allocNode ok
    match m with
    | .node a => do
      let ret ← fillChild insert lev a key value
      if ret ≠ .ok then do
        teardown (lev - 1) a
        pure ret
      else do
        Wr.emit (.nodes n slice (.node a))
        let c ← Wr.read fun m => (m.node n).nchildren
        Wr.emit (.nchildren n (c + 1))
        pure .ok
    | _ => pure .ENOMEM

/-- `insert` where `n->only_key` is set: another key's value is moved to a node below. -/
def pushDown (ok : ℕ → Bool) (insert : Addr → Word → ℕ → W Errno) (lev : ℕ) (n : Addr) (key : Word) (value : ℕ) :
    W Errno := do
  let x ← Wr.read (·.node n)
  if x.onlyKey = 0 then pure .ok
  else if x.onlyKey = key then do
    Wr.emit (.onlyVal n value)
    pure .ok
  else do
    let ret ← insertChild ok insert lev n x.onlyKey x.onlyVal
    if ret ≠ .ok then pure ret
    else do
      Wr.emit (.onlyKey n 0)
      pure .ok

def insert (ok : ℕ → Bool) : ℕ → Addr → Word → ℕ → W Errno
  | 0, n, key, value => do
    let x ← Wr.read (·.node n)
    if x.nodes (sl key 0) = .null then Wr.emit (.nchildren n (x.nchildren + 1)) else pure ()
    Wr.emit (.nodes n (sl key 0) (ofVoid value))
    pure .ok
  | lev + 1, n, key, value => do
    let ret ← pushDown ok (insert ok lev) (lev + 1) n key value
    if ret ≠ .ok then pure ret else insertChild ok (insert ok lev) (lev + 1) n key value

/-- The structure is empty and never held anything. -/
def Mem.topEmpty (m : Mem) : Prop := (m.node 0).onlyKey = TOP_EMPTY ∧ (m.node 0).nchildren = 0

instance (m : Mem) : Decidable m.topEmpty := inferInstanceAs (Decidable (_ ∧ _))

/-- The first use of the root. -/
def setRoot (key : Word) (value : ℕ) : W Unit := do
  let b ← Wr.read fun m => decide m.topEmpty
  if b then do
    Wr.emit (.onlyVal 0 value)
    Wr.emit (.onlyKey 0 key)
  else pure ()

def tcradixInsert (ok : ℕ → Bool) (key : Word) (value : ℕ) : W Errno :=
  if value = NULL then pure .ok
  else do
    writePoke
    setRoot key value
    let ret ← insert ok TOP 0 key value
    writePoke
    pure ret

/-! ## tcradix_remove -/

/-- The start of `nremove`: `only_key` is cleared if it is the key. -/
def clearKey (n : Addr) (key : Word) (value : ℕ) : W ℕ := do
  let x ← Wr.read (·.node n)
  if x.onlyKey = key ∧ key ≠ 0 then do
    Wr.emit (.onlyKey n 0)
    pure x.onlyVal
  else pure value

/-- `!n->nchildren && !n->only_key` -/
def isEmpty (n : Addr) : W Bool := Wr.read fun m => (m.node n).nchildren = 0 ∧ (m.node n).onlyKey = 0

/-- The part of `nremove` that unlinks an emptied child and puts it in front of the list. -/
def dropChild (n : Addr) (slice : Fin 16) (m : Addr) : W Unit := do
  Wr.emit (.nodes n slice .null)
  Wr.emit (.onlyVal m NULL)
  let head ← Wr.read (·.deletedNode)
  Wr.emit (.nodes m 0 head)
  Wr.emit (.deletedNode (.node m))
  let c ← Wr.read fun m => (m.node n).nchildren
  Wr.emit (.nchildren n (c - 1))

/-- The rest of `nremove` above the last level; `nremove` is the function `nremove` for the level below. -/
def removeChild (nremove : Addr → Word → ℕ → W (Bool × ℕ)) (lev : ℕ) (n : Addr) (key : Word) (value : ℕ) :
    W (Bool × ℕ) := do
  let slice := sl key lev
  let m ← Wr.read fun m => (m.node n).nodes slice
  match m with
  | .null => do
    let b ← isEmpty n
    pure (b, value)
  | .val _ => Wr.stuck .wildDeref
  | .node a => do
    let (b, value) ← nremove a key value
    if b = false then pure (false, value)
    else do
      dropChild n slice a
      let b ← isEmpty n
      pure (b, value)

/-- The rest of `nremove` at the last level. -/
def clearSlot (n : Addr) (key : Word) (value : ℕ) : W (Bool × ℕ) := do
  let x ← Wr.read (·.node n)
  if x.nodes (sl key 0) ≠ .null then do
    Wr.emit (.nodes n (sl key 0) .null)
    Wr.emit (.nchildren n (x.nchildren - 1))
    let b ← isEmpty n
    pure (b, toVoid (x.nodes (sl key 0)))
  else pure (false, value)

/-- `nremove`; besides its result it returns what is in `*value` afterwards. -/
def nremove : ℕ → Addr → Word → ℕ → W (Bool × ℕ)
  | 0, n, key, value => do
    let value ← clearKey n key value
    clearSlot n key value
  | lev + 1, n, key, value => do
    let value ← clearKey n key value
    removeChild (nremove lev) (lev + 1) n key value

def tcradixRemove (key : Word) : W ℕ := do
  writePoke
  let (_, value) ← nremove TOP 0 key NULL
  writePoke
  pure value

/-! ## tcradix_delete -/

/-- The loop over the pool. -/
def deletePool : ℕ → Ptr → W Unit
  | 0, _ => Wr.stuck .fuel
  | _ + 1, .null => pure ()
  | _ + 1, .val _ => Wr.stuck .wildDeref
  | fuel + 1, .node a => do
    let x ← Wr.read (·.node a)
    Wr.emit (.free a)
    deletePool fuel (x.nodes 0)

def tcradixDelete (fuel : ℕ) : W Unit := do
  let n ← Wr.read (·.deletedNode)
  deletePool fuel n
  teardown TOP 0

/-! ## tcradix_get -/

/-- A shared word that readers load. -/
inductive Loc
  | writeStatus
  | onlyKey (a : Addr)
  | onlyVal (a : Addr)
  | nodes (a : Addr) (i : Fin 16)
  deriving DecidableEq

abbrev Loc.Val : Loc → Type
  | .writeStatus => Word
  | .onlyKey _ => Word
  | .onlyVal _ => ℕ
  | .nodes _ _ => Ptr

def Mem.load (m : Mem) : (l : Loc) → l.Val
  | .writeStatus => m.writeStatus
  | .onlyKey a => (m.node a).onlyKey
  | .onlyVal a => (m.node a).onlyVal
  | .nodes a i => (m.node a).nodes i

abbrev R := Prog Loc Loc.Val

abbrev load (l : Loc) : R l.Val := Prog.get l

/-- Where a level of the walk ends: the whole lookup returns, or the walk goes on with what the slot holds. -/
inductive Walk
  | ret (v : ℕ)
  | next (p : Ptr)

/-- The slot of the key, after the test of `only_key`. -/
def getSlot (key : Word) (l : ℕ) (n : Addr) : R Walk := do
  let p ← load (.nodes n (sl key l))
  if p = .null then pure (.ret NULL) else pure (.next p)

/-- `GETL(l)` -/
def GETL (key : Word) (l : ℕ) (n : Addr) : R Walk :=
  if l = 0 then getSlot key l n
  else do
    let nk ← load (.onlyKey n)
    if nk ≠ 0 then
      if nk = key then do
        let v ← load (.onlyVal n)
        pure (.ret v)
      else pure (.ret NULL)
    else getSlot key l n

/-- `GETL(l)` and all below it. -/
def getLevels (key : Word) : ℕ → Addr → R Walk
  | 0, n => GETL key 0 n
  | l + 1, n => do
    match ← GETL key (l + 1) n with
    | .ret v => pure (.ret v)
    | .next (.node a) => getLevels key l a
    | .next _ => Prog.stuck .wildDeref

/-- `wrs1 & 1` -/
def busy (w : Word) : Prop := w &&& 1 ≠ 0

instance (w : Word) : Decidable (busy w) := inferInstanceAs (Decidable (_ ≠ _))

/-- `get_slow`, each round one unit of fuel. -/
def getSlow (key : Word) : ℕ → R ℕ
  | 0 => Prog.stuck .fuel
  | fuel + 1 => do
    let wrs1 ← load .writeStatus
    if busy wrs1 then getSlow key fuel
    else
      match ← getLevels key TOP 0 with
      | .ret v => pure v
      | .next p => do
        let wrs2 ← load .writeStatus
        if wrs1 ≠ wrs2 then getSlow key fuel else pure (toVoid p)

def tcradixGet (key : Word) (fuel : ℕ) : R ℕ := do
  let wrs1 ← load .writeStatus
  if busy wrs1 then getSlow key fuel
  else
    match ← getLevels key TOP 0 with
    | .ret v => pure v
    | .next p => do
      let wrs2 ← load .writeStatus
      if wrs1 ≠ wrs2 then getSlow key fuel else pure (toVoid p)

/-! ## Calls one after another -/

inductive Op
  | insert (key : Word) (value : ℕ)
  | remove (key : Word)
  | get (key : Word)

inductive Ret
  | errno (e : Errno)
  | value (v : ℕ)
  deriving DecidableEq, Repr

/-- One call while nobody else is at work. -/
def call (ok : ℕ → Bool) (op : Op) (m : Mem) (fuel : ℕ) : Except Stuck (Ret × Mem) :=
  match op with
  | .insert key value => do
    let (e, m') ← (tcradixInsert ok key value).exec m
    pure (.errno e, m')
  | .remove key => do
    let (v, m') ← (tcradixRemove key).exec m
    pure (.value v, m')
  | .get key => do
    let v ← (tcradixGet key fuel).eval m.load
    pure (.value v, m)

end Ptok.Tcradix
