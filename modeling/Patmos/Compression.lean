import Mathlib.Logic.Function.Basic

/-!
# The compression of downloads

`CompressionOutputStream` compresses the bytes that are written to it with the method of Lempel,
Ziv, Storer and Szymanski: the text of the last `N - F` bytes is searched for a match of the `F`
bytes to come, and a match of more than `THRESHOLD` bytes is sent as its position and length.  The
text stands in a ring buffer, whose first bytes are repeated behind its end, and the strings that
begin in it are the nodes of 256 search trees, one for each first byte.

The loops that follow the trees get as many steps as there are nodes; `none` stands for a loop that
does not end.
-/

namespace Patmos.Compression

abbrev Byte := BitVec 8

/-- Bits to encode the length of a match. -/
def LENGTH_BITS : Nat := 6

/-- A match is sent if it is longer. -/
def THRESHOLD : Nat := 2

/-- The size of the ring buffer. -/
def N : Nat := 1024

/-- The size of the text to come. -/
def F : Nat := 66

def NIL : Nat := N

/-! ### The search trees -/

/-- The trees, and the longest match that the last insertion has found. -/
structure Trees where
  lchild : Nat → Nat
  rchild : Nat → Nat
  parent : Nat → Nat
  matchPosition : Nat
  matchLength : Nat

/-- `rchild` or `lchild`. -/
def Trees.child (t : Trees) (right : Bool) (p : Nat) : Nat :=
  if right then t.rchild p else t.lchild p

def Trees.setChild (t : Trees) (right : Bool) (p x : Nat) : Trees :=
  if right then { t with rchild := Function.update t.rchild p x }
  else { t with lchild := Function.update t.lchild p x }

def Trees.setParent (t : Trees) (x p : Nat) : Trees :=
  { t with parent := Function.update t.parent x p }

/-- Let the parent of `p` point to `q`, and `q` to it, and take `p` out. -/
def Trees.moveUp (t : Trees) (p q : Nat) : Trees :=
  let t := t.setParent q (t.parent p)
  let t := t.setChild (t.rchild (t.parent p) == p) (t.parent p) q
  t.setParent p NIL

/-- The end of `insertNode`: remove `p` in favor of `r`. -/
def Trees.replaceNode (t : Trees) (p r : Nat) : Trees :=
  let t := t.setParent r (t.parent p)
  let t := t.setChild false r (t.lchild p)
  let t := t.setChild true r (t.rchild p)
  let t := t.setParent (t.lchild p) r
  let t := t.setParent (t.rchild p) r
  let t := t.setChild (t.rchild (t.parent p) == p) (t.parent p) r
  t.setParent p NIL

/-- The comparison of the strings at `keyPos` and `p` from byte `i` on: the index of the first
    difference and the difference of the bytes, which are signed. -/
def compare (textBuf : Nat → Byte) (keyPos p : Nat) : Nat → Nat → Nat × Int
  | 0, i => (i, 0)
  | fuel + 1, i =>
    let cmp := (textBuf (keyPos + i)).toInt - (textBuf (p + i)).toInt
    if cmp ≠ 0 then (i, cmp) else compare textBuf keyPos p fuel (i + 1)

/-- The loop of `insertNode`. -/
def insertLoop (textBuf : Nat → Byte) (r : Nat) : Nat → Trees → Nat → Int → Option Trees
  | 0, _, _, _ => none
  | fuel + 1, t, p, cmp =>
    let right := decide (cmp ≥ 0)
    if t.child right p = NIL then some ((t.setChild right p r).setParent r p)
    else
      let p := t.child right p
      let found := compare textBuf r p (F - 1) 1
      if found.1 > t.matchLength then
        let t := { t with matchPosition := p, matchLength := found.1 }
        if t.matchLength ≥ F then some (t.replaceNode p r)
        else insertLoop textBuf r fuel t p found.2
      else insertLoop textBuf r fuel t p found.2

/-- Insert the string at `r` into the tree of its first byte and find the longest match. -/
def insertNode (textBuf : Nat → Byte) (t : Trees) (r : Nat) : Option Trees :=
  let t := (t.setChild true r NIL).setChild false r NIL
  insertLoop textBuf r (N + 1) { t with matchLength := 0 } (N + 1 + (textBuf r).toNat) 1

/-- `do q = rchild[q]; while (rchild[q] != NIL)`. -/
def rightmost (t : Trees) : Nat → Nat → Option Nat
  | 0, _ => none
  | fuel + 1, q => if t.rchild (t.rchild q) ≠ NIL then rightmost t fuel (t.rchild q)
    else some (t.rchild q)

/-- Take `q`, the rightmost node of the left subtree of `p`, out of its place and give it the left
    subtree. -/
def Trees.takeOut (t : Trees) (p q : Nat) : Trees :=
  let t := t.setChild true (t.parent q) (t.lchild q)
  let t := t.setParent (t.lchild q) (t.parent q)
  let t := t.setChild false q (t.lchild p)
  t.setParent (t.lchild p) q

/-- Give `q` the right subtree of `p`. -/
def Trees.giveRight (t : Trees) (p q : Nat) : Trees :=
  let t := t.setChild true q (t.rchild p)
  t.setParent (t.rchild p) q

/-- Delete node `p` from its tree. -/
def deleteNode (t : Trees) (p : Nat) : Option Trees :=
  if t.parent p = NIL then some t
  else if t.rchild p = NIL then some (t.moveUp p (t.lchild p))
  else if t.lchild p = NIL then some (t.moveUp p (t.rchild p))
  else if t.rchild (t.lchild p) ≠ NIL then
    (rightmost t N (t.lchild p)).map fun q => ((t.takeOut p q).giveRight p q).moveUp p q
  else some ((t.giveRight p (t.lchild p)).moveUp p (t.lchild p))

/-! ### The stream -/

structure State where
  textBuf : Nat → Byte
  trees : Trees
  lastMatchLength : Nat
  /-- `codeBuf[0]`, the flags of the units. -/
  flags : Byte
  /-- `codeBuf[1..codeBufPtr - 1]`. -/
  units : List Byte
  codeMask : Byte
  currLen : Nat
  currPos : Nat
  killPos : Nat
  writeCount : Nat
  /-- The bytes that were written to the underlying stream. -/
  out : List Byte

/-- The new stream: the trees are empty, and the buffer before `currPos` holds spaces. -/
def init : State where
  textBuf i := if i < N - F then 0x20 else 0
  trees :=
    { lchild := fun _ => 0
      rchild := fun i => if N < i then NIL else 0
      parent := fun i => if i < N then NIL else 0
      matchPosition := 0
      matchLength := 0 }
  lastMatchLength := 0
  flags := 0
  units := []
  codeMask := 1
  currLen := 0
  currPos := N - F
  killPos := 0
  writeCount := 0
  out := []

def flushBuffer (s : State) : State :=
  if s.units ≠ [] then
    { s with out := s.out ++ s.flags :: s.units, flags := 0, units := [], codeMask := 1 }
  else s

/-- The two bytes of a match. -/
def pair (matchPosition matchLength : Nat) : List Byte :=
  [BitVec.ofNat 8 matchPosition,
    (BitVec.ofNat 8 (matchPosition >>> (8 - LENGTH_BITS)) &&&
      BitVec.ofNat 8 (0xff <<< LENGTH_BITS)) |||
      BitVec.ofNat 8 (matchLength - (THRESHOLD + 1))]

def encode (s : State) : State :=
  if s.currLen = 0 then s
  else
    -- the match may be spuriously long near the end of the text
    let matchLength := if s.trees.matchLength > s.currLen then s.currLen else s.trees.matchLength
    let literal := decide (matchLength ≤ THRESHOLD)
    let matchLength := if literal then 1 else matchLength
    let s :=
      { s with
        trees := { s.trees with matchLength := matchLength }
        flags := if literal then s.flags ||| s.codeMask else s.flags
        units := s.units ++
          if literal then [s.textBuf s.currPos] else pair s.trees.matchPosition matchLength
        codeMask := s.codeMask <<< 1 }
    let s := if s.codeMask = 0 then flushBuffer s else s
    { s with lastMatchLength := matchLength }

/-- `insertNode(currPos - i)` for `i` from 1 to `F`. -/
def insertSpaces (textBuf : Nat → Byte) (currPos : Nat) : Nat → Nat → Trees → Option Trees
  | 0, _, t => some t
  | k + 1, i, t => (insertNode textBuf t (currPos - i)).bind
    (insertSpaces textBuf currPos k (i + 1))

/-- `write(b)`. -/
def write (s : State) (b : Byte) : Option State :=
  if s.currLen < F then
    let s := { s with
      textBuf := Function.update s.textBuf (s.currPos + s.currLen) b, currLen := s.currLen + 1 }
    if s.currLen = F then do
      let t ← insertSpaces s.textBuf s.currPos F 1 s.trees
      let t ← insertNode s.textBuf t s.currPos
      some (encode { s with trees := t })
    else some s
  else do
    let t ← deleteNode s.trees s.killPos
    let textBuf := Function.update s.textBuf s.killPos b
    let textBuf := if s.killPos < F - 1 then Function.update textBuf (s.killPos + N) b else textBuf
    let currPos := (s.currPos + 1) % N
    let t ← insertNode textBuf t currPos
    let s := { s with
      textBuf := textBuf, trees := t, killPos := (s.killPos + 1) % N, currPos := currPos
      writeCount := s.writeCount + 1 }
    some (if s.writeCount = s.lastMatchLength then { encode s with writeCount := 0 } else s)

/-- The inner loop of `finish`, `k` times. -/
def advance : Nat → State → Option State
  | 0, s => some s
  | k + 1, s => do
      let t ← deleteNode s.trees s.killPos
      let s := { s with
        trees := t, killPos := (s.killPos + 1) % N, currPos := (s.currPos + 1) % N
        currLen := s.currLen - 1 }
      let t ← if s.currLen > 0 then insertNode s.textBuf s.trees s.currPos else some s.trees
      advance k { s with trees := t }

/-- The outer loop of `finish`. -/
def finishLoop : Nat → State → Option State
  | 0, _ => none
  | fuel + 1, s =>
    if s.currLen > 0 then do
      let s ← advance (s.lastMatchLength - s.writeCount) s
      finishLoop fuel { encode s with writeCount := 0 }
    else some s

def finish (s : State) : Option State := (finishLoop (s.currLen + 2) s).map flushBuffer

/-- The bytes that a stream emits for a text. -/
def compress (text : List Byte) : Option (List Byte) := do
  let s ← text.foldlM write init
  let s ← finish s
  some s.out

end Patmos.Compression
