import Patmos.Clocked
import Patmos.MemBlock

/-!
# The stack cache

`StackCache`: the control operations of the pipeline, the state machine that spills and
fills whole bursts, and the port for loads and stores.  The model has the two sizes as
parameters, `words = SCACHE_SIZE / 4` and `burstLength = BURST_LENGTH`.  Addresses are
byte addresses; pointers have 32 bits and the transfer address has 33.  The performance
counters and the error state's report are outputs that no other part reads, and only the
report is kept.
-/

namespace Patmos.StackCache

open Ocp

inductive Fsm where
  | idleState
  | fillState
  | waitFillState
  | spillState
  | holdSpillState
  | waitSpillState
  | errorState
deriving DecidableEq, Repr

/-- `sc_OP`. -/
inductive Op where
  | none
  | setSt
  | setMt
  | ens
  | free
  | res
  | spill
deriving DecidableEq, Repr

structure State where
  stateReg : Fsm
  isReserveReg : Bool
  stackTopReg : Nat
  memTopReg : Nat
  transferAddrReg : Nat
  newMemTopReg : Nat
  memoryBlock : Nat → Word
  rdAddrReg : Nat
  responseToCPUReg : OcpResp

/-- The signals from the pipeline, and what a read outside the memory block returns. -/
structure Inputs where
  enaIn : Bool
  op : Op
  opData : Nat
  opOff : Nat
  cmd : OcpCmd
  addr : Nat
  data : Word
  byteEn : ByteEn
  undef : Word

section Circuit

variable (words burstLength : Nat)

/-- `SCACHE_SIZE`. -/
def scacheSize : Nat := 4 * words

/-- The bytes addressed by `burstBits`. -/
def burstBytes : Nat := 2 ^ MemBlock.log2Up (burstLength * 4)

/-- Bits `scSizeBits + wordBits - 1` to `wordBits` of an address. -/
def index (addr : Nat) : Nat := addr / 4 % 2 ^ MemBlock.log2Up words

/-- An address with the bits below `burstBits` cleared. -/
def burstStart (addr : Nat) : Nat := addr / burstBytes burstLength * burstBytes burstLength

def mbRdData (s : State) (i : Inputs) : Word :=
  MemBlock.read words s.memoryBlock s.rdAddrReg i.undef

/-- The word at the transfer address needs spilling. -/
def writeEnable (s : State) : Bool :=
  if s.isReserveReg then
    decide ((s.stackTopReg + scacheSize words) % 2 ^ 32 ≤ s.transferAddrReg) &&
      decide (s.transferAddrReg < s.memTopReg)
  else
    decide (s.newMemTopReg ≤ s.transferAddrReg) && decide (s.transferAddrReg < s.memTopReg)

def relAddr (s : State) (i : Inputs) : Nat := index words ((i.addr + s.stackTopReg) % 2 ^ 32)

def burstCounter (s : State) : Nat := s.transferAddrReg % burstBytes burstLength / 4

def stackTopInc (s : State) (i : Inputs) : Nat := (s.stackTopReg + i.opOff) % 2 ^ 32

def stackAboveMem (s : State) (i : Inputs) : Bool :=
  decide ((s.memTopReg + 2 ^ 32 - s.stackTopReg) % 2 ^ 32 < i.opOff)

def nextStackTop (s : State) (i : Inputs) : Nat := (s.stackTopReg + 2 ^ 32 - i.opOff) % 2 ^ 32

def nextNewMemTop (s : State) (i : Inputs) : Nat := (s.memTopReg + 2 ^ 32 - i.opOff) % 2 ^ 32

/-- The first transfer address of a spill for `sres`. -/
def resTransferAddr (s : State) (i : Inputs) : Nat :=
  burstStart burstLength ((nextStackTop s i + scacheSize words) % 2 ^ 32)

def needsSpill (s : State) (i : Inputs) : Bool :=
  decide (scacheSize words < (s.memTopReg + 2 ^ 32 - nextStackTop s i) % 2 ^ 32)

/-- The address of the word behind the transfer address, in 33 bits. -/
def nextTransferAddr (s : State) : Nat := (s.transferAddrReg + 4) % 2 ^ 33

def toMemory (s : State) (i : Inputs) : BurstMaster where
  cmd :=
    if i.enaIn then
      match s.stateReg with
      | .holdSpillState => .wr
      | .fillState => .rd
      | _ => .idle
    else .idle
  addr := s.transferAddrReg % 2 ^ 32
  data := mbRdData words s i
  dataValid := s.stateReg == .holdSpillState || s.stateReg == .spillState
  dataByteEn := fun _ => writeEnable words s

/-- The address on the read port of the memory block. -/
def mbRdAddr (s : State) (i : Inputs) (m : BurstSlave) : Nat :=
  match s.stateReg with
  | .idleState =>
    match i.op with
    | .res => index words (resTransferAddr words burstLength s i)
    | .spill => index words (burstStart burstLength (nextNewMemTop s i))
    | _ => relAddr words s i
  | .holdSpillState => if m.cmdAccept then index words (nextTransferAddr s) else s.rdAddrReg
  | .spillState => index words (nextTransferAddr s)
  | .waitSpillState => s.rdAddrReg
  | _ => relAddr words s i

/-- All data has been filled. -/
def fillingDone (s : State) : Bool := decide (s.newMemTopReg ≤ s.transferAddrReg)

/-- All data has been spilled. -/
def spillingDone (s : State) : Bool := decide (s.memTopReg ≤ s.transferAddrReg)

/-- A beat of a fill arrives. -/
def fills (s : State) (m : BurstSlave) : Bool :=
  s.stateReg == .waitFillState && m.resp == .dva

/-- The write port of the memory block: a store takes its enables after the fill has set
    its own. -/
def mbWrite (s : State) (i : Inputs) (m : BurstSlave) : Nat → Word :=
  let wrAddr := if fills s m then index words s.transferAddrReg else relAddr words s i
  let wrData := if fills s m then m.data else i.data
  let wrEna : ByteEn :=
    if i.cmd = .wr then i.byteEn
    else if fills s m then fun _ => !fillingDone s && decide (s.memTopReg ≤ s.transferAddrReg)
    else noBytes
  MemBlock.writeBytes words s.memoryBlock wrEna wrAddr wrData

/-- The `switch` on `stateReg`. -/
def control (s : State) (i : Inputs) (m : BurstSlave) : State :=
  match s.stateReg with
  | .idleState =>
    match i.op with
    | .none => s
    | .setSt => { s with stackTopReg := i.opData % 2 ^ 32 }
    | .setMt => { s with memTopReg := i.opData % 2 ^ 32 }
    | .ens =>
      { s with
        transferAddrReg := burstStart burstLength s.memTopReg
        newMemTopReg := stackTopInc s i
        stateReg := if stackAboveMem s i then .fillState else .idleState }
    | .free =>
      { s with
        stackTopReg := stackTopInc s i
        memTopReg := if stackAboveMem s i then stackTopInc s i else s.memTopReg }
    | .res =>
      { s with
        isReserveReg := true
        stackTopReg := nextStackTop s i
        transferAddrReg := resTransferAddr words burstLength s i
        stateReg := if needsSpill words s i then .holdSpillState else .idleState }
    | .spill =>
      { s with
        isReserveReg := false
        transferAddrReg := burstStart burstLength (nextNewMemTop s i)
        newMemTopReg := nextNewMemTop s i
        stateReg := .holdSpillState }
  | .holdSpillState =>
    { s with
      transferAddrReg := if m.cmdAccept then nextTransferAddr s else s.transferAddrReg
      stateReg := if m.cmdAccept then .spillState else .holdSpillState }
  | .spillState =>
    { s with
      transferAddrReg := nextTransferAddr s
      stateReg := if burstCounter burstLength s = burstLength - 1 then .waitSpillState
        else .spillState }
  | .waitSpillState =>
    { s with
      stateReg :=
        if m.resp = .dva then if spillingDone s then .idleState else .holdSpillState
        else if m.resp = .err then .idleState else .waitSpillState
      memTopReg :=
        if spillingDone s then
          if s.isReserveReg then (s.stackTopReg + scacheSize words) % 2 ^ 32
          else s.newMemTopReg
        else s.memTopReg }
  | .fillState => { s with stateReg := if m.cmdAccept then .waitFillState else .fillState }
  | .waitFillState =>
    if m.resp = .dva then
      { s with
        transferAddrReg := nextTransferAddr s
        stateReg :=
          if burstCounter burstLength s = burstLength - 1 then
            if fillingDone s then .idleState else .fillState
          else .waitFillState
        memTopReg := if fillingDone s then s.newMemTopReg else s.memTopReg }
    else if m.resp = .err then
      { s with transferAddrReg := nextTransferAddr s, stateReg := .errorState }
    else s
  | .errorState =>
    { s with
      transferAddrReg := if m.resp ≠ .null then nextTransferAddr s else s.transferAddrReg
      stateReg := if burstCounter burstLength s = burstLength - 1 then .idleState
        else .errorState }

/-- `io.illMem`. -/
def illMem (s : State) (m : BurstSlave) : Bool :=
  match s.stateReg with
  | .waitSpillState => m.resp == .err
  | .errorState => burstCounter burstLength s == burstLength - 1
  | _ => false

def next (s : State) (i : Inputs) (m : BurstSlave) : State :=
  let s1 := control words burstLength s i m
  let s2 :=
    { s1 with
      memoryBlock := mbWrite words s i m
      rdAddrReg := mbRdAddr words burstLength s i m
      responseToCPUReg := if i.cmd = .wr ∨ i.cmd = .rd then .dva else .null }
  if i.enaIn then s2
  else
    { s2 with
      stateReg := s.stateReg
      stackTopReg := s.stackTopReg
      memTopReg := s.memTopReg
      transferAddrReg := s.transferAddrReg }

end Circuit

section Next

variable {words burstLength : Nat} {s : State} {i : Inputs} {m : BurstSlave}

theorem stateReg_of_none (hst : s.stateReg = .idleState) (hop : i.op = .none) :
    (next words burstLength s i m).stateReg = .idleState := by
  have hcontrol : control words burstLength s i m = s := by
    simp only [control, hst, hop]
  simp only [next, hcontrol]
  split <;> exact hst

theorem responseToCPUReg_of_idle (hcmd : i.cmd = .idle) :
    (next words burstLength s i m).responseToCPUReg = .null := by
  simp only [next, hcmd]
  split <;> simp

end Next

end Patmos.StackCache
