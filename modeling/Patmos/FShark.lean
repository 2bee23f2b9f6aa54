import Patmos.CircularBuffer
import Patmos.MemFifo
import Patmos.Ocp

/-!
# The capture device

`FShark` with `datawidth = 16`: the registers of the device, the state machine
that fills the FIFO, drops old frames when it is full and hands the frames to the
processor after the trigger, and the OCP port.  `Device` is the part between the
`deq` port of the circular buffer and the OCP port, with the FIFO inside it, and
`Capture` is that part together with the circular buffer.

A wire or register that is assigned twice takes the later value.  In particular
`sendToPatmos := false.B` in the state machine has no effect, since the wire is
driven again below it.
-/

namespace Patmos.FShark

open Clocked Ocp

/-! ### The device -/

/-- States of the FIFO handling. -/
inductive Fsm where
  | idle
  | fill
  | fillEmpty
  | waitForEOF
  | emptyToPatmos
deriving DecidableEq, Repr

structure Regs where
  fullFIFO : Bool
  frameLength : Nat
  readHolder : Bool
  writeToFIFO : Bool
  stopFrameRecording : Bool
  filterIndex : Nat
  filterValue : Nat
  filterSet : Bool
  respReg : OcpResp
  txAxisTvalid : Bool
  dataWriter : Nat
  stateReg : Fsm
  /-- `RegNext(memFifo.io.deq.bits)`, the data of the OCP response. -/
  dataReg : Nat
deriving DecidableEq, Repr

def depth : Nat := 20000

structure Device where
  regs : Regs
  fifo : MemFifo.State Nat

/-- The signals of one cycle: the OCP master, the outputs of the circular buffer, and
    what a colliding access to the FIFO memory returns. -/
structure Signals where
  cmd : OcpCmd
  addr : Nat
  data : Nat
  endOfFrame : Bool
  frameRecieving : Bool
  bufValid : Bool
  bufBits : Nat
  undef : Nat
deriving DecidableEq, Repr

structure Device.IsReset (d : Device) : Prop where
  fullFIFO : d.regs.fullFIFO = false
  frameLength : d.regs.frameLength = 0
  readHolder : d.regs.readHolder = false
  writeToFIFO : d.regs.writeToFIFO = true
  stopFrameRecording : d.regs.stopFrameRecording = false
  stateReg : d.regs.stateReg = .idle
  respReg : d.regs.respReg = .null
  filterSet : d.regs.filterSet = false
  fifo : d.fifo.IsReset

/-- `memFifo.io.enq.ready`, which is also `deq.ready` of the circular buffer. -/
def enqReady (d : Device) : Bool := !d.fifo.fullReg && d.regs.writeToFIFO

/-- A read pulse is held until a response has been given. -/
def sendToPatmos (r : Regs) (cmd : OcpCmd) : Bool :=
  if cmd = .rd ∨ r.respReg = .dva then cmd == .rd else r.readHolder

/-- `memFifo.io.deq.ready`. -/
def deqReady (d : Device) (i : Signals) : Bool :=
  match d.regs.stateReg with
  | .fillEmpty => MemFifo.deqValid d.fifo
  | .emptyToPatmos => sendToPatmos d.regs i.cmd && MemFifo.deqValid d.fifo
  | _ => false

def fifoInputs (d : Device) (i : Signals) : MemFifo.Inputs Nat :=
  ⟨i.bufValid, i.bufBits, deqReady d i, d.regs.writeToFIFO, i.undef⟩

/-- The number of words behind the header at the front of the FIFO; the shifted sum has
    15 bits. -/
def wordsBehind (bits : Nat) : Nat := ((bits + 1) % 65536 / 2 + 1) % 32768

/-- The `switch` on `stateReg`. -/
def fsm (d : Device) (i : Signals) (r : Regs) : Regs :=
  match d.regs.stateReg with
  | .idle => if i.endOfFrame then { r with stateReg := .fill } else r
  | .fill =>
    let r1 := if d.regs.stopFrameRecording then { r with stateReg := .waitForEOF } else r
    if d.regs.fullFIFO then
      { r1 with
        frameLength := if d.regs.frameLength = 0 then wordsBehind (MemFifo.deqBits d.fifo)
          else d.regs.frameLength
        stateReg := .fillEmpty }
    else r1
  | .fillEmpty =>
    let r1 := if d.regs.frameLength ≠ 0 then { r with frameLength := d.regs.frameLength - 1 }
      else r
    if d.regs.frameLength = 0 ∧ d.regs.stopFrameRecording = true then
      { r1 with stateReg := .waitForEOF, frameLength := 0 }
    else if d.regs.frameLength = 0 then { r1 with stateReg := .fill, frameLength := 0 }
    else r1
  | .waitForEOF =>
    if i.endOfFrame then { r with stateReg := .emptyToPatmos }
    else if !i.frameRecieving && !i.bufValid then { r with stateReg := .emptyToPatmos }
    else r
  | .emptyToPatmos =>
    let r1 := { r with writeToFIFO := false }
    if sendToPatmos d.regs i.cmd then
      if MemFifo.deqValid d.fifo then { r1 with respReg := .dva }
      else { r1 with stateReg := .idle, stopFrameRecording := false, writeToFIFO := true }
    else r1

/-- The write commands of the OCP port. -/
def ocpWrite (i : Signals) (r : Regs) : Regs :=
  if i.cmd = .wr then
    let r1 := { r with respReg := .dva }
    match i.addr / 4 % 8 with
    | 0 => { r1 with stopFrameRecording := true }
    | 1 => { r1 with txAxisTvalid := true, dataWriter := i.data }
    | 2 => { r1 with filterIndex := i.data % 4096, filterSet := false }
    | 3 => { r1 with filterValue := i.data % 256, filterSet := true }
    | _ => r1
  else r

/-- The assignments that hold in every cycle unless a later one replaces them. -/
def defaults (d : Device) : Regs :=
  { d.regs with
    fullFIFO := !enqReady d
    respReg := .null
    txAxisTvalid := false
    dataReg := MemFifo.deqBits d.fifo }

def next (d : Device) (i : Signals) : Device where
  regs :=
    let r1 := fsm d i (defaults d)
    let r2 := if d.regs.respReg = .dva ∨ i.cmd = .rd then { r1 with readHolder := i.cmd == .rd }
      else r1
    ocpWrite i r2
  fifo := MemFifo.next depth d.fifo (fifoInputs d i)

/-! ### What one cycle does to the registers of the FIFO handling -/

section Next

variable (d : Device) (i : Signals)

/-- A write command leaves the registers of the FIFO handling alone, the trigger apart. -/
theorem ocpWrite_frame (r : Regs) :
    (ocpWrite i r).stateReg = r.stateReg ∧ (ocpWrite i r).frameLength = r.frameLength ∧
      (ocpWrite i r).writeToFIFO = r.writeToFIFO ∧ (ocpWrite i r).fullFIFO = r.fullFIFO := by
  unfold ocpWrite
  split
  · split <;> exact ⟨rfl, rfl, rfl, rfl⟩
  · exact ⟨rfl, rfl, rfl, rfl⟩

/-- The OCP port changes nothing that the state machine decides on, the trigger apart. -/
theorem next_frame :
    (next d i).regs.stateReg = (fsm d i (defaults d)).stateReg ∧
      (next d i).regs.frameLength = (fsm d i (defaults d)).frameLength ∧
      (next d i).regs.writeToFIFO = (fsm d i (defaults d)).writeToFIFO ∧
      (next d i).regs.fullFIFO = (fsm d i (defaults d)).fullFIFO := by
  obtain ⟨h1, h2, h3, h4⟩ := ocpWrite_frame i
    (if d.regs.respReg = .dva ∨ i.cmd = .rd then
      { fsm d i (defaults d) with readHolder := i.cmd == .rd } else fsm d i (defaults d))
  rw [next]
  simp only [h1, h2, h3, h4]
  split <;> exact ⟨rfl, rfl, rfl, rfl⟩

theorem next_fullFIFO : (next d i).regs.fullFIFO = !enqReady d := by
  rw [(next_frame d i).2.2.2, fsm]
  cases d.regs.stateReg <;> simp only <;> repeat' split
  all_goals rfl

/-- What a cycle of the state machine does to its state, the frame counter and the write gate. -/
theorem next_control :
    ((next d i).regs.stateReg = match d.regs.stateReg with
      | .idle => if i.endOfFrame then .fill else .idle
      | .fill =>
        if d.regs.fullFIFO then .fillEmpty
        else if d.regs.stopFrameRecording then .waitForEOF else .fill
      | .fillEmpty =>
        if d.regs.frameLength ≠ 0 then .fillEmpty
        else if d.regs.stopFrameRecording then .waitForEOF else .fill
      | .waitForEOF =>
        if i.endOfFrame || (!i.frameRecieving && !i.bufValid) then .emptyToPatmos else .waitForEOF
      | .emptyToPatmos =>
        if sendToPatmos d.regs i.cmd && !MemFifo.deqValid d.fifo then .idle
        else .emptyToPatmos) ∧
    ((next d i).regs.frameLength = match d.regs.stateReg with
      | .fill =>
        if d.regs.fullFIFO ∧ d.regs.frameLength = 0 then wordsBehind (MemFifo.deqBits d.fifo)
        else d.regs.frameLength
      | .fillEmpty => d.regs.frameLength - 1
      | _ => d.regs.frameLength) ∧
    (next d i).regs.writeToFIFO = match d.regs.stateReg with
      | .emptyToPatmos => sendToPatmos d.regs i.cmd && !MemFifo.deqValid d.fifo
      | _ => d.regs.writeToFIFO := by
  obtain ⟨h1, h2, h3, -⟩ := next_frame d i
  rw [h1, h2, h3, fsm, defaults]
  cases hst : d.regs.stateReg with
  | idle => cases i.endOfFrame <;> simp
  | fill =>
    cases d.regs.fullFIFO <;> cases d.regs.stopFrameRecording <;>
      by_cases hl : d.regs.frameLength = 0 <;> simp [hl]
  | fillEmpty =>
    by_cases hl : d.regs.frameLength = 0 <;> cases d.regs.stopFrameRecording <;> simp [hl]
  | waitForEOF =>
    cases i.endOfFrame <;> cases i.frameRecieving <;> cases i.bufValid <;> simp
  | emptyToPatmos =>
    cases sendToPatmos d.regs i.cmd <;> cases MemFifo.deqValid d.fifo <;> simp

/-- Only `emptyToPatmos` closes the FIFO for new words. -/
theorem writeToFIFO_step (h : d.regs.writeToFIFO = true ∨ d.regs.stateReg = .emptyToPatmos) :
    (next d i).regs.writeToFIFO = true ∨ (next d i).regs.stateReg = .emptyToPatmos := by
  rw [(next_control d i).2.2, (next_control d i).1]
  cases hst : d.regs.stateReg with
  | emptyToPatmos =>
    cases hc : (sendToPatmos d.regs i.cmd && !MemFifo.deqValid d.fifo)
    · exact .inr rfl
    · exact .inl rfl
  | idle | fill | fillEmpty | waitForEOF =>
    refine .inl ?_
    simpa [hst] using h

end Next

/-- A device out of reset. -/
def powerUp : Device :=
  ⟨⟨false, 0, false, true, false, 0, 0, false, .null, false, 0, .idle, 0⟩, MemFifo.powerUp⟩

theorem powerUp_isReset : powerUp.IsReset :=
  ⟨rfl, rfl, rfl, rfl, rfl, rfl, rfl, rfl, MemFifo.powerUp_isReset⟩

/-! ### The device behind the circular buffer -/

/-- The device and the circular buffer with its observer. -/
structure Capture where
  dev : Device
  buf : CircularBuffer.Sys

/-- The beat of the filter, the OCP master, and what a colliding access to the FIFO
    memory returns. -/
structure CaptureInputs where
  beat : CircularBuffer.Beat
  cmd : OcpCmd
  addr : Nat
  data : Nat
  undef : Nat
deriving DecidableEq, Repr

namespace Capture

variable (y : Capture) (i : CaptureInputs)

/-- The cycle as the circular buffer sees it. -/
def bufInputs : CircularBuffer.Inputs := ⟨i.beat, enqReady y.dev⟩

/-- The cycle as the device sees it. -/
def signals : Signals where
  cmd := i.cmd
  addr := i.addr
  data := i.data
  endOfFrame := CircularBuffer.endOfFrame i.beat
  frameRecieving := CircularBuffer.frameRecieving y.buf.st (enqReady y.dev)
  bufValid := CircularBuffer.deqValid y.buf.st (enqReady y.dev)
  bufBits := CircularBuffer.deqBits y.buf.st (enqReady y.dev)
  undef := i.undef

def next : Capture := ⟨FShark.next y.dev (signals y i), y.buf.next (bufInputs y i)⟩

/-- The words enqueued into the FIFO are those transferred at the other side of the
    wires. -/
theorem storedAt_eq : MemFifo.storedAt y.dev.fifo (fifoInputs y.dev (signals y i)) =
    CircularBuffer.transferredAt y.buf.st (bufInputs y i) := by
  cases hf : y.dev.fifo.fullReg <;> cases hw : y.dev.regs.writeToFIFO <;>
    simp [MemFifo.storedAt, MemFifo.stores, CircularBuffer.transferredAt, fifoInputs, signals,
      bufInputs, CircularBuffer.deqValid, enqReady, hf, hw]

end Capture

end Patmos.FShark
