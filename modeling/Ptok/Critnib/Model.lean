import Ptok.Lib.Atomic
import Ptok.Lib.Tree
import Ptok.Map

/-!
# critnib.c

The structure with its two pools and the ring of pending deletions, and the functions of the source. Writers
(`critnib_insert`, `critnib_remove`) hold the mutex and are `Wr` code, readers (`critnib_get`, `critnib_find_le`)
are programs of loads.
-/

namespace Ptok.Critnib

open Lib

/-- An address that malloc returned. -/
abbrev Addr := ℕ

/-- `struct critnib_node *`: `NULL`, a node, or a leaf pointer tagged in its lowest bit. -/
inductive Ptr
  | null
  | node (a : Addr)
  | leaf (a : Addr)
  deriving DecidableEq, Repr

/-- `DELETED_LIFE` -/
abbrev DELETED_LIFE : Word := 16#64

structure Node where
  child : Fin 16 → Ptr
  path : Word
  shift : ℕ

/-- `value` also links the pool of freed leaves. -/
structure Leaf where
  key : Word
  value : ℕ

/-- `struct critnib` and the heap. Leaf addresses start at 1 (0 is `NULL`), node addresses at 0. -/
structure Mem where
  root : Ptr
  /-- pool of freed nodes, linked by `child[0]` -/
  deletedNode : Ptr
  /-- pool of freed leaves, linked by `value` -/
  deletedLeaf : Addr
  pendingDelNodes : Fin 16 → Ptr
  pendingDelLeaves : Fin 16 → Addr
  removeCount : Word
  node : Addr → Node
  leaf : Addr → Leaf
  /-- how many nodes and leaves were obtained from malloc -/
  nodesMalloced : ℕ
  leavesMalloced : ℕ
  /-- how often malloc was asked for a node or a leaf and returned `NULL` -/
  nodeFails : ℕ
  leafFails : ℕ

/-- `critnib_new`: all fields are zero. What the heap holds before malloc hands it out is arbitrary. -/
def critnibNew (node : Addr → Node) (leaf : Addr → Leaf) : Mem where
  root := .null
  deletedNode := .null
  deletedLeaf := 0
  pendingDelNodes := fun _ => .null
  pendingDelLeaves := fun _ => 0
  removeCount := 0
  node := node
  leaf := leaf
  nodesMalloced := 0
  leavesMalloced := 0
  nodeFails := 0
  leafFails := 0

/-- One store of a writer. -/
inductive Event
  /-- `*s = p` for the root or a child slot -/
  | slot (s : Slot Ptr (Fin 16)) (p : Ptr)
  | path (n : Ptr) (w : Word)
  | shift (n : Ptr) (sh : ℕ)
  | key (k : Addr) (w : Word)
  | value (k : Addr) (v : ℕ)
  | removeCount (w : Word)
  | deletedNode (n : Ptr)
  | deletedLeaf (k : Addr)
  | pendingDelNode (d : Fin 16) (n : Ptr)
  | pendingDelLeaf (d : Fin 16) (k : Addr)
  /-- `Malloc`, and whether it succeeded -/
  | mallocNode (ok : Bool)
  | mallocLeaf (ok : Bool)

namespace Mem

def setNode (m : Mem) (n : Ptr) (f : Node → Node) : Mem :=
  match n with
  | .node a => { m with node := Function.update m.node a (f (m.node a)) }
  | _ => m

def setLeaf (m : Mem) (k : Addr) (f : Leaf → Leaf) : Mem :=
  { m with leaf := Function.update m.leaf k (f (m.leaf k)) }

def store (m : Mem) : Event → Mem
  | .slot .root p => { m with root := p }
  | .slot (.child n i) p => m.setNode n fun x => { x with child := Function.update x.child i p }
  | .path n w => m.setNode n fun x => { x with path := w }
  | .shift n sh => m.setNode n fun x => { x with shift := sh }
  | .key k w => m.setLeaf k fun x => { x with key := w }
  | .value k v => m.setLeaf k fun x => { x with value := v }
  | .removeCount w => { m with removeCount := w }
  | .deletedNode n => { m with deletedNode := n }
  | .deletedLeaf k => { m with deletedLeaf := k }
  | .pendingDelNode d n => { m with pendingDelNodes := Function.update m.pendingDelNodes d n }
  | .pendingDelLeaf d k => { m with pendingDelLeaves := Function.update m.pendingDelLeaves d k }
  | .mallocNode true => { m with nodesMalloced := m.nodesMalloced + 1 }
  | .mallocNode false => { m with nodeFails := m.nodeFails + 1 }
  | .mallocLeaf true => { m with leavesMalloced := m.leavesMalloced + 1 }
  | .mallocLeaf false => { m with leafFails := m.leafFails + 1 }

/-- Follow a pointer to a node. -/
def nodeAt (m : Mem) : Ptr → Except Stuck Node
  | .node a => .ok (m.node a)
  | .null => .error .nullDeref
  | .leaf _ => .error .wildDeref

end Mem

instance : Storable Mem Event := ⟨Mem.store⟩

/-! ## Pools

`ok` says of each malloc call, counted over the whole life of the structure, whether it succeeds.
-/

abbrev W := Wr Mem Event

/-- How often malloc was called. -/
def Mem.mallocs (m : Mem) : ℕ := m.nodesMalloced + m.leavesMalloced + m.nodeFails + m.leafFails

def mallocNode (ok : ℕ → Bool) : W Ptr := do
  let b ← Wr.read fun m => ok m.mallocs
  let a ← Wr.read (·.nodesMalloced)
  Wr.emit (.mallocNode b)
  pure (if b then .node a else .null)

def mallocLeaf (ok : ℕ → Bool) : W Addr := do
  let b ← Wr.read fun m => ok m.mallocs
  let a ← Wr.read (·.leavesMalloced)
  Wr.emit (.mallocLeaf b)
  pure (if b then a + 1 else 0)

def freeNode : Ptr → W Unit
  | .null => pure ()
  | .leaf _ => Wr.stuck .assertion
  | .node a => do
    let head ← Wr.read (·.deletedNode)
    Wr.emit (.slot (.child (.node a) 0) head)
    Wr.emit (.deletedNode (.node a))

def allocNode (ok : ℕ → Bool) : W Ptr := do
  let n ← Wr.read (·.deletedNode)
  if n = .null then mallocNode ok
  else do
    let x ← Wr.query (·.nodeAt n)
    Wr.emit (.deletedNode (x.child 0))
    pure n

def freeLeaf (k : Addr) : W Unit :=
  if k = 0 then pure ()
  else do
    let head ← Wr.read (·.deletedLeaf)
    Wr.emit (.value k head)
    Wr.emit (.deletedLeaf k)

def allocLeaf (ok : ℕ → Bool) : W Addr := do
  let k ← Wr.read (·.deletedLeaf)
  if k = 0 then mallocLeaf ok
  else do
    let next ← Wr.read fun m => (m.leaf k).value
    Wr.emit (.deletedLeaf next)
    pure k

/-! ## critnib_insert -/

/-- The loop `while (n && !is_leaf(n) && (key & path_mask(n->shift)) == n->path)`; it ends with `prev`, `parent`
and `n`. -/
def insertDive (m : Mem) (key : Word) : ℕ → Ptr → Slot Ptr (Fin 16) → Ptr →
    Except Stuck (Ptr × Slot Ptr (Fin 16) × Ptr)
  | 0, _, _, _ => .error .fuel
  | fuel + 1, prev, parent, n =>
    match n with
    | .node a =>
      let x := m.node a
      if key &&& pathMask x.shift = x.path then
        insertDive m key fuel n (.child n (sliceIndex key x.shift)) (x.child (sliceIndex key x.shift))
      else .ok (prev, parent, n)
    | _ => .ok (prev, parent, n)

/-- `is_leaf(n) ? to_leaf(n)->key : n->path` -/
def pathOf (m : Mem) : Ptr → Except Stuck Word
  | .leaf k => .ok (m.leaf k).key
  | n => (m.nodeAt n).map (·.path)

/-- The new node `m` above `n`, from the clearing loop to the store that links it. -/
def linkSplit (key path : Word) (sh : ℕ) (m kn n : Ptr) (parent : Slot Ptr (Fin 16)) : W Unit := do
  (List.finRange 16).forM fun i => Wr.emit (.slot (.child m i) .null)
  Wr.emit (.slot (.child m (sliceIndex key sh)) kn)
  Wr.emit (.slot (.child m (sliceIndex path sh)) n)
  Wr.emit (.shift m sh)
  Wr.emit (.path m (key &&& pathMask sh))
  Wr.emit (.slot parent m)

/-- `critnib_insert` from the computation of `path` on: `n` is a leaf or a node that the key leaves. -/
def insertSplit (ok : ℕ → Bool) (key : Word) (k : Addr) (n : Ptr) (parent : Slot Ptr (Fin 16)) : W Errno := do
  let path ← Wr.query fun m => pathOf m n
  let at_ := path ^^^ key
  if at_ = 0#64 then
    match n with
    | .leaf _ => do
      freeLeaf k
      pure .EEXIST
    | _ => Wr.stuck .assertion
  else do
    let sh := splitShift at_
    let m ← allocNode ok
    if m = .null then do
      freeLeaf k
      pure .ENOMEM
    else do
      linkSplit key path sh m (.leaf k) n parent
      pure .ok

/-- `critnib_insert` from the test of the root on, with the leaf `k` filled. -/
def insertLeaf (ok : ℕ → Bool) (fuel : ℕ) (key : Word) (k : Addr) : W Errno := do
  let root ← Wr.read (·.root)
  if root = .null then do
    Wr.emit (.slot .root (.leaf k))
    pure .ok
  else do
    let (prev, parent, n) ← Wr.query fun m => insertDive m key fuel root .root root
    if n = .null then do
      let x ← Wr.query (·.nodeAt prev)
      Wr.emit (.slot (.child prev (sliceIndex key x.shift)) (.leaf k))
      pure .ok
    else insertSplit ok key k n parent

def critnibInsert (ok : ℕ → Bool) (fuel : ℕ) (key : Word) (value : ℕ) : W Errno := do
  let k ← allocLeaf ok
  if k = 0 then pure .ENOMEM
  else do
    Wr.emit (.key k key)
    Wr.emit (.value k value)
    insertLeaf ok fuel key k

/-! ## critnib_remove -/

/-- The loop `while (!is_leaf(kn))`. It ends with `n_parent`, `n` and the leaf, or with nothing where the source
returns `NULL` because the next child is missing. -/
def removeDive (m : Mem) (key : Word) : ℕ → Slot Ptr (Fin 16) → Slot Ptr (Fin 16) → Ptr → Ptr →
    Except Stuck (Option (Slot Ptr (Fin 16) × Ptr × Addr))
  | 0, _, _, _, _ => .error .fuel
  | fuel + 1, kParent, nParent, n, kn =>
    match kn with
    | .leaf k => .ok (some (nParent, n, k))
    | .null => .error .nullDeref
    | .node a =>
      let i := sliceIndex key (m.node a).shift
      if (m.node a).child i = .null then .ok none
      else removeDive m key fuel (.child kn i) kParent kn ((m.node a).child i)

/-- The loop that looks for the only remaining child: `none` where the source returns because it saw a second
one, else the final `ochild`, with `none` for -1. -/
def onlyChild (child : Fin 16 → Ptr) : List (Fin 16) → Option (Fin 16) → Option (Option (Fin 16))
  | [], ochild => some ochild
  | i :: is, ochild =>
    if child i = .null then onlyChild child is ochild
    else if ochild ≠ none then none
    else onlyChild child is (some i)

/-- `critnib_remove` from the search for the only remaining child on. -/
def shrink (del : Fin 16) (nParent : Slot Ptr (Fin 16)) (n : Ptr) (k : Addr) : W ℕ := do
  let x ← Wr.query (·.nodeAt n)
  match onlyChild x.child (List.finRange 16) none with
  | none => do
    let value ← Wr.read fun m => (m.leaf k).value
    Wr.emit (.pendingDelLeaf del k)
    pure value
  | some none => Wr.stuck .assertion
  | some (some ochild) => do
    Wr.emit (.slot nParent (x.child ochild))
    let value ← Wr.read fun m => (m.leaf k).value
    Wr.emit (.pendingDelNode del n)
    Wr.emit (.pendingDelLeaf del k)
    pure value

/-- The leaf `k` is taken out of its node `n`. -/
def removeLeaf (del : Fin 16) (key : Word) (nParent : Slot Ptr (Fin 16)) (n : Ptr) (k : Addr) : W ℕ := do
  let x ← Wr.query (·.nodeAt n)
  Wr.emit (.slot (.child n (sliceIndex key x.shift)) .null)
  shrink del nParent n k

/-- The root is the leaf `k`. -/
def removeRoot (del : Fin 16) (key : Word) (k : Addr) : W ℕ := do
  let k_ ← Wr.read (·.leaf k)
  if k_.key = key then do
    Wr.emit (.slot .root .null)
    let value ← Wr.read fun m => (m.leaf k).value
    Wr.emit (.pendingDelLeaf del k)
    pure value
  else pure NULL

/-- Draw a number from `remove_count` and recycle what was parked under the number 16 below it. -/
def recycle : W (Fin 16) := do
  let r ← Wr.read (·.removeCount)
  Wr.emit (.removeCount (r + 1))
  let del := Fin.ofNat 16 r.toNat
  freeNode (← Wr.read (·.pendingDelNodes del))
  freeLeaf (← Wr.read (·.pendingDelLeaves del))
  Wr.emit (.pendingDelNode del .null)
  Wr.emit (.pendingDelLeaf del 0)
  pure del

def critnibRemove (fuel : ℕ) (key : Word) : W ℕ := do
  let n ← Wr.read (·.root)
  if n = .null then pure NULL
  else do
    let del ← recycle
    match n with
    | .leaf k => removeRoot del key k
    | _ => do
      let r ← Wr.query fun m => removeDive m key fuel .root .root n n
      match r with
      | none => pure NULL
      | some (nParent, n, k) => do
        let k_ ← Wr.read (·.leaf k)
        if k_.key ≠ key then pure NULL
        else removeLeaf del key nParent n k

/-! ## Readers -/

/-- A shared word that readers load. -/
inductive Loc
  | removeCount
  | root
  | child (a : Addr) (i : Fin 16)
  | path (a : Addr)
  | shift (a : Addr)
  | key (k : Addr)
  | value (k : Addr)

abbrev Loc.Val : Loc → Type
  | .removeCount => Word
  | .root => Ptr
  | .child _ _ => Ptr
  | .path _ => Word
  | .shift _ => ℕ
  | .key _ => Word
  | .value _ => ℕ

def Mem.load (m : Mem) : (l : Loc) → l.Val
  | .removeCount => m.removeCount
  | .root => m.root
  | .child a i => (m.node a).child i
  | .path a => (m.node a).path
  | .shift a => (m.node a).shift
  | .key k => (m.leaf k).key
  | .value k => (m.leaf k).value

abbrev R := Prog Loc Loc.Val

abbrev load (l : Loc) : R l.Val := Prog.get l

/-- The address for `n->...` -/
def deref : Ptr → R Addr
  | .node a => pure a
  | .null => Prog.stuck .nullDeref
  | .leaf _ => Prog.stuck .wildDeref

/-- The loop `while (n && !is_leaf(n))` of `critnib_get`. -/
def dive (key : Word) : ℕ → Ptr → R Ptr
  | 0, _ => Prog.stuck .fuel
  | fuel + 1, n =>
    match n with
    | .node a => do
      let shift ← load (.shift a)
      let n ← load (.child a (sliceIndex key shift))
      dive key fuel n
    | _ => pure n

/-- `(n && k->key == key) ? k->value : NULL` -/
def leafValue (key : Word) : Ptr → R ℕ
  | .leaf k => do
    let k_ ← load (.key k)
    if k_ = key then load (.value k) else pure NULL
  | _ => pure NULL

/-- The loop around a lookup: `remove_count` before and after, and another round when it moved too far. -/
def untilFresh (lookup : R ℕ) : ℕ → R ℕ
  | 0 => Prog.stuck .fuel
  | fuel + 1 => do
    let wrs1 ← load .removeCount
    let res ← lookup
    let wrs2 ← load .removeCount
    if wrs1 + DELETED_LIFE ≤ wrs2 then untilFresh lookup fuel else pure res

/-- One round of `critnib_get`. -/
def getLookup (key : Word) (fuel : ℕ) : R ℕ := do
  let n ← load .root
  let n ← dive key fuel n
  leafValue key n

def critnibGet (key : Word) (fuel : ℕ) : R ℕ := untilFresh (getLookup key fuel) fuel

/-- `n->child[nib]` -/
def loadChild (n : Ptr) (nib : Fin 16) : R Ptr := do
  let a ← deref n
  load (.child a nib)

/-- The first slot of the list with a child in it. -/
def firstChild (n : Ptr) : List (Fin 16) → R (Option (Fin 16))
  | [] => pure none
  | nib :: nibs => do
    let m ← loadChild n nib
    if m = .null then firstChild n nibs else pure (some nib)

/-- `for (nib = NIB; nib >= 0; nib--)` -/
def nibsDown : List (Fin 16) := (List.finRange 16).reverse

def findSuccessor : ℕ → Ptr → R ℕ
  | 0, _ => Prog.stuck .fuel
  | fuel + 1, n => do
    match ← firstChild n nibsDown with
    | none => pure NULL
    | some nib => do
      let n ← loadChild n nib
      match n with
      | .leaf k => load (.value k)
      | n => findSuccessor fuel n

/-- The loop `for (nib--; nib >= 0; nib--)` of `find_le`. -/
def findLeft (fuel : ℕ) (n : Ptr) : List (Fin 16) → R ℕ
  | [] => pure NULL
  | nib :: nibs => do
    let m ← loadChild n nib
    match m with
    | .null => findLeft fuel n nibs
    | .leaf k => load (.value k)
    | m => findSuccessor fuel m

/-- The slots left of `nib`, from right to left. -/
def nibsLeft (nib : Fin 16) : List (Fin 16) := nibsDown.filter (· < nib)

def findLe (key : Word) : ℕ → Ptr → R ℕ
  | 0, _ => Prog.stuck .fuel
  | _ + 1, .null => pure NULL
  | _ + 1, .leaf k => do
    let k_ ← load (.key k)
    if k_ ≤ key then load (.value k) else pure NULL
  | fuel + 1, .node a => do
    let path ← load (.path a)
    let shift ← load (.shift a)
    if ((key ^^^ path) >>> shift) &&& ~~~NIB ≠ 0#64 then do
      let path ← load (.path a)
      if path < key then findSuccessor fuel (.node a) else pure NULL
    else do
      let shift ← load (.shift a)
      let nib := sliceIndex key shift
      let m ← load (.child a nib)
      let value ← findLe key fuel m
      if value ≠ NULL then pure value else findLeft fuel (.node a) (nibsLeft nib)

/-- One round of `critnib_find_le`. -/
def findLeLookup (key : Word) (fuel : ℕ) : R ℕ := do
  let n ← load .root
  if n = .null then pure NULL else findLe key fuel n

def critnibFindLe (key : Word) (fuel : ℕ) : R ℕ := untilFresh (findLeLookup key fuel) fuel

/-! ## critnib_delete -/

/-- What is passed to `Free`: the structure itself, or a node or leaf (or `NULL`). -/
inductive Block
  | critnib
  | ptr (p : Ptr)
  deriving DecidableEq

/-- The calls of `Free` for a subtree, in order. -/
def deleteNode (m : Mem) : ℕ → Ptr → Except Stuck (List Ptr)
  | 0, _ => .error .fuel
  | _ + 1, .null => .error .nullDeref
  | _ + 1, .leaf k => .ok [.leaf k]
  | fuel + 1, .node a => do
    let below ← (List.finRange 16).mapM fun i =>
      if (m.node a).child i = .null then .ok [] else deleteNode m fuel ((m.node a).child i)
    pure (below.flatten ++ [.node a])

def deleteNodePool (m : Mem) : ℕ → Ptr → Except Stuck (List Ptr)
  | 0, _ => .error .fuel
  | _ + 1, .null => .ok []
  | _ + 1, .leaf _ => .error .wildDeref
  | fuel + 1, .node a => do
    let rest ← deleteNodePool m fuel ((m.node a).child 0)
    pure (.node a :: rest)

def deleteLeafPool (m : Mem) : ℕ → Addr → Except Stuck (List Ptr)
  | 0, _ => .error .fuel
  | fuel + 1, k =>
    if k = 0 then .ok []
    else do
      let rest ← deleteLeafPool m fuel (m.leaf k).value
      pure (.leaf k :: rest)

/-- A leaf's address as a pointer. -/
def leafPtr (k : Addr) : Ptr := if k = 0 then .null else .leaf k

def deleteRoot (m : Mem) (fuel : ℕ) : Except Stuck (List Ptr) :=
  if m.root = .null then .ok [] else deleteNode m fuel m.root

def critnibDelete (m : Mem) (fuel : ℕ) : Except Stuck (List Block) := do
  let tree ← deleteRoot m fuel
  let nodes ← deleteNodePool m fuel m.deletedNode
  let leaves ← deleteLeafPool m fuel m.deletedLeaf
  let pending := (List.finRange 16).flatMap fun i => [m.pendingDelNodes i, leafPtr (m.pendingDelLeaves i)]
  pure ((tree ++ nodes ++ leaves ++ pending).map .ptr ++ [.critnib])

/-! ## Calls one after another -/

inductive Op
  | insert (key : Word) (value : ℕ)
  | remove (key : Word)
  | get (key : Word)
  | findLe (key : Word)

inductive Ret
  | errno (e : Errno)
  | value (v : ℕ)
  deriving DecidableEq, Repr

/-- One call while nobody else is at work. -/
def call (ok : ℕ → Bool) (op : Op) (m : Mem) (fuel : ℕ) : Except Stuck (Ret × Mem) :=
  match op with
  | .insert key value => do
    let (e, m') ← (critnibInsert ok fuel key value).exec m
    pure (.errno e, m')
  | .remove key => do
    let (v, m') ← (critnibRemove fuel key).exec m
    pure (.value v, m')
  | .get key => do
    let v ← (critnibGet key fuel).eval m.load
    pure (.value v, m)
  | .findLe key => do
    let v ← (critnibFindLe key fuel).eval m.load
    pure (.value v, m)

end Ptok.Critnib
