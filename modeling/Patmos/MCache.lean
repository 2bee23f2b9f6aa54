import Patmos.Clocked
import Patmos.MemBlock
import Patmos.Select

/-!
# The method cache

`MCache` holds whole methods, one after the other in a cyclic memory.  The replacement unit
is to have a tag for each method and to replace them first in, first out: a new method takes the
next tag and the space behind the last method, and when this leaves a negative amount of free
space, the oldest methods are dropped, one in each cycle.  On a miss the controller reads the
burst that holds the size of the method, in the word before its first, and goes on with the words
behind it, burst by burst.  An error answer takes it to a state in which it waits for the rest
of the burst, drops all methods, and lets the exception through the pipeline.

The four tag vectors are declared as `Vec.fill(METHOD_COUNT) { Reg(..) }`.  This is a vector of
wires, each connected to a register of its own.  An assignment to an element drives the wire in
that cycle, and all that read the vector see it; the register behind it is never written.

The parameters are `MCACHE_SIZE_WIDTH`, `log2Up(BURST_LENGTH)` and `METHOD_COUNT`.  The units
see the base of a call or return as a word address.
-/

namespace Patmos.MCache

open Ocp MemBlock

inductive Fsm where
  | idle
  | size
  | transfer
  | error
  | errorDec
  | errorExe
  | errorMem
deriving DecidableEq, Repr

/-- `MCacheCtrl`. -/
structure Ctrl where
  stateReg : Fsm
  ocpCmdReg : OcpCmd
  ocpAddrReg : Nat
  transferSizeReg : Nat
  fetchCntReg : Nat
  burstCntReg : Nat
  callRetBaseReg : Nat
  ocpSlaveReg : CoreSlave

/-- `MCacheReplFifo`; the first four are the registers behind the tag vectors. -/
structure Repl where
  addrRegs : Nat → Nat
  sizeRegs : Nat → Nat
  validRegs : Nat → Bool
  posRegs : Nat → Nat
  nextIndexReg : Nat
  nextTagReg : Nat
  nextPosReg : Nat
  freeSpaceReg : Int
  posReg : Nat
  hitReg : Bool
  wrPosReg : Nat

structure State where
  ctrl : Ctrl
  repl : Repl
  mem : Banks Word

/-- A call or return, the enable and the invalidate signal. -/
structure Inputs where
  doCallRet : Bool
  callRetBase : Nat
  enaIn : Bool
  invalidate : Bool

section Circuit

variable (sizeWidth burstWidth methodCount : Nat)

/-! ### Control -/

namespace Ctrl

def dva (c : Ctrl) : Bool := c.ocpSlaveReg.resp == .dva

def lastBeat (c : Ctrl) : Bool := decide (c.burstCntReg = 2 ^ burstWidth - 1)

/-- The address of the word before the method. -/
def msizeAddr (c : Ctrl) : Nat := (c.callRetBaseReg + 2 ^ 32 - 1) % 2 ^ 32

/-- The size in the answer of the memory, `Data(MCACHE_SIZE_WIDTH+2,2)`. -/
def size (c : Ctrl) : Nat := wordVal c.ocpSlaveReg.data / 4 % 2 ^ (sizeWidth + 1)

/-- `wTag`: the size of the method arrives. -/
def gotSize (c : Ctrl) : Bool :=
  c.stateReg == .size && c.dva && decide (c.burstCntReg = c.msizeAddr % 2 ^ burstWidth)

def more (c : Ctrl) : Bool := decide (c.fetchCntReg ≤ c.transferSizeReg)

/-- `wEna`: a word of the method arrives. -/
def gotWord (c : Ctrl) : Bool := c.stateReg == .transfer && c.more && c.dva

/-- The transfer ends with its last word or after the last beat of the burst. -/
def finish (c : Ctrl) : Bool :=
  c.stateReg == .transfer && c.lastBeat burstWidth &&
    if c.more then c.dva && decide (c.transferSizeReg ≤ c.fetchCntReg) else true

/-- The next word of the method is in the next burst. -/
def nextBurst (c : Ctrl) : Bool :=
  c.gotWord && decide (c.fetchCntReg < c.transferSizeReg) && c.lastBeat burstWidth

/-- A new read command. -/
def ask (c : Ctrl) (hit : Bool) : Option Nat :=
  if c.stateReg = .idle then
    if hit then none else some (c.msizeAddr / 2 ^ burstWidth * 2 ^ burstWidth)
  else if c.gotSize burstWidth && c.lastBeat burstWidth then some c.callRetBaseReg
  else if c.nextBurst burstWidth then
    some ((c.callRetBaseReg + c.fetchCntReg + 1) % 2 ^ 32)
  else none

/-- `io.ocp_port.M`. -/
def toOcp (c : Ctrl) (hit : Bool) : BurstMaster :=
  { cmd := if c.ocpSlaveReg.resp = .err then .idle
      else if (c.ask burstWidth hit).isSome then .rd else c.ocpCmdReg
    addr := (c.ask burstWidth hit).getD c.ocpAddrReg * 4 % 2 ^ 32
    data := fun _ => 0
    dataValid := false
    dataByteEn := allBytes }

/-- The end of a burst with an error. -/
def illMem (c : Ctrl) : Bool := c.stateReg == .error && c.lastBeat burstWidth

def forceHit (c : Ctrl) : Bool :=
  c.illMem burstWidth || c.stateReg == .errorDec || c.stateReg == .errorExe ||
    c.stateReg == .errorMem

def fetchEna (c : Ctrl) : Bool :=
  match c.stateReg with
  | .size => false
  | .transfer => c.finish burstWidth
  | _ => true

def stateNext (c : Ctrl) (hit : Bool) : Fsm :=
  let s := match c.stateReg with
    | .idle => if hit then .idle else .size
    | .size => if c.gotSize burstWidth then .transfer else .size
    | .transfer => if c.finish burstWidth then .idle else .transfer
    | s => s
  let s := if c.ocpSlaveReg.resp = .err then .error else s
  match c.stateReg with
  | .error => if c.lastBeat burstWidth then .errorDec else s
  | .errorDec => .errorExe
  | .errorExe => .errorMem
  | .errorMem => .idle
  | _ => s

/-- A beat is counted by the states that wait for it. -/
def counts (c : Ctrl) : Bool :=
  c.ocpSlaveReg.resp == .err || (c.stateReg == .size || c.stateReg == .transfer) && c.dva ||
    c.stateReg == .error && c.ocpSlaveReg.resp != .null

def burstCntNext (c : Ctrl) (hit : Bool) : Nat :=
  if c.ocpSlaveReg.resp ≠ .err ∧ (c.ask burstWidth hit).isSome then 0
  else if c.counts then (c.burstCntReg + 1) % 2 ^ burstWidth
  else c.burstCntReg

def next (c : Ctrl) (hit : Bool) (i : Inputs) (slave : BurstSlave) : Ctrl :=
  { stateReg := c.stateNext burstWidth hit
    ocpCmdReg := if c.ocpSlaveReg.resp = .err then .idle
      else if slave.cmdAccept then .idle
      else if (c.ask burstWidth hit).isSome then .rd else c.ocpCmdReg
    ocpAddrReg := (c.ask burstWidth hit).getD c.ocpAddrReg
    transferSizeReg := if c.gotSize burstWidth then
        (c.size sizeWidth + 2 ^ sizeWidth - 1) % 2 ^ sizeWidth
      else c.transferSizeReg
    fetchCntReg := if c.gotSize burstWidth then 0
      else if c.gotWord then (c.fetchCntReg + 1) % 2 ^ sizeWidth else c.fetchCntReg
    burstCntReg := c.burstCntNext burstWidth hit
    callRetBaseReg := if i.doCallRet then i.callRetBase else c.callRetBaseReg
    ocpSlaveReg := ⟨slave.resp, slave.data⟩ }

end Ctrl

/-! ### Replacement -/

/-- A tag write: the base of the method and its size, rounded to double words. -/
structure TagWrite where
  addr : Nat
  size : Nat

def tagWrite (c : Ctrl) : Option TagWrite :=
  if c.gotSize burstWidth then
    some ⟨c.callRetBaseReg, (c.size sizeWidth + c.size sizeWidth % 2) % 2 ^ (sizeWidth + 1)⟩
  else none

/-- `asSInt` on the sizes. -/
def asSInt (n : Nat) : Int := if n < 2 ^ sizeWidth then n else (n : Int) - 2 ^ (sizeWidth + 1)

/-- The width of `freeSpaceReg`. -/
def wrapSpace (z : Int) : Int := z.bmod (2 ^ (sizeWidth + 2))

/-- The tag after `i`. -/
def tagAfter (i : Nat) : Nat := if i = methodCount - 1 then 0 else i + 1

namespace Repl

def freeing (r : Repl) : Bool := decide (r.freeSpaceReg < 0)

/-! The tag vectors in a cycle with the tag write `w`, if there is one, and the invalidate signal
of the unit. -/

def addrVec (r : Repl) (w : Option TagWrite) : Nat → Nat :=
  match w with
  | some w => Function.update r.addrRegs r.nextIndexReg w.addr
  | none => r.addrRegs

def posVec (r : Repl) (w : Option TagWrite) : Nat → Nat :=
  if w.isSome then Function.update r.posRegs r.nextIndexReg r.nextPosReg else r.posRegs

def sizeVec (r : Repl) (w : Option TagWrite) : Nat → Nat :=
  let v := match w with
    | some w => Function.update r.sizeRegs r.nextIndexReg w.size
    | none => r.sizeRegs
  if r.freeing then Function.update v r.nextTagReg 0 else v

def validVec (r : Repl) (w : Option TagWrite) (invalidate : Bool) : Nat → Bool :=
  let v := match w with
    | some _ => Function.update r.validRegs r.nextIndexReg true
    | none => r.validRegs
  let v := if r.freeing then Function.update v r.nextTagReg false else v
  if invalidate then fun _ => false else v

def hitVec (r : Repl) (w : Option TagWrite) (invalidate : Bool) (base i : Nat) : Bool :=
  decide (base = r.addrVec w i) && r.validVec w invalidate i

def mergePosVec (r : Repl) (w : Option TagWrite) (invalidate : Bool) (base i : Nat) : Nat :=
  if r.hitVec w invalidate base i then r.posVec w i else 0

def hit (r : Repl) (w : Option TagWrite) (invalidate : Bool) (base : Nat) : Bool :=
  (List.finRange methodCount).any fun i : Fin methodCount => r.hitVec w invalidate base i

/-- The position of a method, and of a new method when none hits. -/
def pos (r : Repl) (w : Option TagWrite) (invalidate : Bool) (base : Nat) : Nat :=
  if r.hit methodCount w invalidate base then
    (List.finRange methodCount).foldl
      (fun p (i : Fin methodCount) => p ||| r.mergePosVec w invalidate base i) 0
  else r.nextPosReg

/-- A lookup of a method in the cache. -/
def lookup (i : Inputs) : Bool :=
  i.doCallRet && i.enaIn && decide (1 ≤ i.callRetBase / 2 ^ 15)

def freeSpaceNext (r : Repl) (w : Option TagWrite) : Int :=
  if r.freeing then
    wrapSpace sizeWidth (r.freeSpaceReg + asSInt sizeWidth (r.sizeVec w r.nextTagReg))
  else
    match w with
    | some t => wrapSpace sizeWidth (r.freeSpaceReg - asSInt sizeWidth t.size +
        asSInt sizeWidth (r.sizeVec w r.nextIndexReg))
    | none => r.freeSpaceReg

def next (r : Repl) (w : Option TagWrite) (i : Inputs) (invalidate : Bool) : Repl :=
  { addrRegs := r.addrRegs
    sizeRegs := r.sizeRegs
    validRegs := r.validRegs
    posRegs := r.posRegs
    nextIndexReg := if w.isSome then tagAfter methodCount r.nextIndexReg else r.nextIndexReg
    nextTagReg := if r.freeing then tagAfter methodCount r.nextTagReg
      else if w.isSome ∧ r.nextTagReg = r.nextIndexReg then tagAfter methodCount r.nextIndexReg
      else r.nextTagReg
    nextPosReg := match w with
      | some w => (r.nextPosReg + w.size % 2 ^ sizeWidth) % 2 ^ sizeWidth
      | none => r.nextPosReg
    freeSpaceReg := r.freeSpaceNext sizeWidth w
    posReg := if lookup i then r.pos methodCount w invalidate i.callRetBase else r.posReg
    hitReg := if w.isSome then true
      else if lookup i then r.hit methodCount w invalidate i.callRetBase else r.hitReg
    wrPosReg := if w.isSome then r.posReg else r.wrPosReg }

end Repl

/-! ### The cache -/

/-- `io.ena_out`. -/
def enaOut (s : State) : Bool :=
  s.ctrl.fetchEna burstWidth && (s.repl.hitReg || s.ctrl.forceHit burstWidth)

/-- The place of the arriving word; its parity is that of the word in the method. -/
def writeAddr (s : State) : Nat :=
  (s.repl.wrPosReg + s.ctrl.fetchCntReg) % 2 ^ sizeWidth / 2 * 2 + s.ctrl.fetchCntReg % 2

def next (s : State) (i : Inputs) (slave : BurstSlave) : State :=
  { ctrl := s.ctrl.next sizeWidth burstWidth s.repl.hitReg i slave
    repl := s.repl.next sizeWidth methodCount (tagWrite sizeWidth burstWidth s.ctrl) i
      (i.invalidate || s.ctrl.illMem burstWidth)
    mem := s.mem.write s.ctrl.gotWord (writeAddr sizeWidth s) s.ctrl.ocpSlaveReg.data }

end Circuit

/-- The registers with a reset value have it. -/
structure IsReset (sizeWidth : Nat) (s : State) : Prop where
  stateReg : s.ctrl.stateReg = .idle
  ocpCmdReg : s.ctrl.ocpCmdReg = .idle
  sizeRegs : ∀ i, s.repl.sizeRegs i = 0
  validRegs : ∀ i, s.repl.validRegs i = false
  nextIndexReg : s.repl.nextIndexReg = 0
  nextTagReg : s.repl.nextTagReg = 0
  nextPosReg : s.repl.nextPosReg = 0
  freeSpaceReg : s.repl.freeSpaceReg = 2 ^ sizeWidth
  posReg : s.repl.posReg = 0
  hitReg : s.repl.hitReg = true
  wrPosReg : s.repl.wrPosReg = 0

def powerUp (sizeWidth : Nat) : State :=
  { ctrl := ⟨.idle, .idle, 0, 0, 0, 0, 0, ⟨.null, fun _ => 0⟩⟩
    repl := ⟨fun _ => 0, fun _ => 0, fun _ => false, fun _ => 0, 0, 0, 0, 2 ^ sizeWidth, 0,
      true, 0⟩
    mem := ⟨fun _ => fun _ => 0, fun _ => fun _ => 0⟩ }

theorem powerUp_isReset (sizeWidth : Nat) : IsReset sizeWidth (powerUp sizeWidth) :=
  ⟨rfl, rfl, fun _ => rfl, fun _ => rfl, rfl, rfl, rfl, rfl, rfl, rfl, rfl⟩

end Patmos.MCache
