import Ptok.Critnib.Model

/-!
# critnib-tag.c

The older copy of critnib. Its structures, pools, insert, get and rightmost dive are the same statements as in
critnib.c; remove and the predecessor search are written differently.
-/

namespace Ptok.CritnibTag

open Lib Critnib

def critnibTagInsert (ok : ℕ → Bool) (fuel : ℕ) (key : Word) (value : ℕ) : W Errno :=
  critnibInsert ok fuel key value

/-! ## critnib_tag_remove -/

/-- The loop `while (!is_leaf(kn))`. It does not look whether there is a child. -/
def removeDive (m : Mem) (key : Word) : ℕ → Slot Ptr (Fin 16) → Slot Ptr (Fin 16) → Ptr → Ptr →
    Except Stuck (Slot Ptr (Fin 16) × Ptr × Addr)
  | 0, _, _, _, _ => .error .fuel
  | fuel + 1, kParent, nParent, n, kn =>
    match kn with
    | .leaf k => .ok (nParent, n, k)
    | .null => .error .nullDeref
    | .node a =>
      let i := sliceIndex key (m.node a).shift
      removeDive m key fuel (.child kn i) kParent kn ((m.node a).child i)

/-- From the search for the only remaining child on. Where there is none (`paranoia`) slot 0 is taken. -/
def shrink (del : Fin 16) (nParent : Slot Ptr (Fin 16)) (n : Ptr) (k : Addr) : W ℕ := do
  let x ← Wr.query (·.nodeAt n)
  match onlyChild x.child (List.finRange 16) none with
  | none => do
    let value ← Wr.read fun m => (m.leaf k).value
    Wr.emit (.pendingDelLeaf del k)
    pure value
  | some ochild => do
    Wr.emit (.slot nParent (x.child (ochild.getD 0)))
    let value ← Wr.read fun m => (m.leaf k).value
    Wr.emit (.pendingDelNode del n)
    Wr.emit (.pendingDelLeaf del k)
    pure value

def removeLeaf (del : Fin 16) (key : Word) (nParent : Slot Ptr (Fin 16)) (n : Ptr) (k : Addr) : W ℕ := do
  let x ← Wr.query (·.nodeAt n)
  Wr.emit (.slot (.child n (sliceIndex key x.shift)) .null)
  shrink del nParent n k

def critnibTagRemove (fuel : ℕ) (key : Word) : W ℕ := do
  let n ← Wr.read (·.root)
  if n = .null then pure NULL
  else do
    let del ← recycle
    match n with
    | .leaf k => removeRoot del key k
    | _ => do
      let (nParent, n, k) ← Wr.query fun m => removeDive m key fuel .root .root n n
      let k_ ← Wr.read (·.leaf k)
      if k_.key ≠ key then pure NULL
      else removeLeaf del key nParent n k

/-! ## Readers -/

def critnibTagGet (key : Word) (fuel : ℕ) : R ℕ := critnibGet key fuel

/-- The loop over the left siblings. A child that is there is loaded again. -/
def findLeft (fuel : ℕ) (n : Ptr) : List (Fin 16) → R ℕ
  | [] => pure NULL
  | nib :: nibs => do
    let m ← loadChild n nib
    if m = .null then findLeft fuel n nibs
    else do
      let m ← loadChild n nib
      match m with
      | .leaf k => load (.value k)
      | m => findSuccessor fuel m

def findLe (key : Word) : ℕ → Ptr → R ℕ
  | 0, _ => Prog.stuck .fuel
  | _ + 1, .null => pure NULL
  | _ + 1, .leaf k => do
    let k_ ← load (.key k)
    if k_ ≤ key then load (.value k) else pure NULL
  | fuel + 1, .node a => do
    let path ← load (.path a)
    let shift ← load (.shift a)
    if ((key ^^^ path) >>> shift) &&& ~~~NIB ≠ 0#64 then do
      let path ← load (.path a)
      if path < key then findSuccessor fuel (.node a) else pure NULL
    else do
      let shift ← load (.shift a)
      let nib := sliceIndex key shift
      let m ← load (.child a nib)
      let value ← findLe key fuel m
      if value ≠ NULL then pure value else findLeft fuel (.node a) (nibsLeft nib)

def critnibTagFindLe (key : Word) (fuel : ℕ) : R ℕ :=
  untilFresh (do
    let n ← load .root
    if n = .null then pure NULL else findLe key fuel n) fuel

/-- One call while nobody else is at work. -/
def call (ok : ℕ → Bool) (op : Op) (m : Mem) (fuel : ℕ) : Except Stuck (Ret × Mem) :=
  match op with
  | .insert key value => do
    let (e, m') ← (critnibTagInsert ok fuel key value).exec m
    pure (.errno e, m')
  | .remove key => do
    let (v, m') ← (critnibTagRemove fuel key).exec m
    pure (.value v, m')
  | .get key => do
    let v ← (critnibTagGet key fuel).eval m.load
    pure (.value v, m)
  | .findLe key => do
    let v ← (critnibTagFindLe key fuel).eval m.load
    pure (.value v, m)

end Ptok.CritnibTag
