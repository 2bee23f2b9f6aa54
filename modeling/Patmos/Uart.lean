import Patmos.Clocked
import Patmos.MemBlock

/-!
# The UART

The transmitter takes bytes from a queue and shifts them out, a start bit first and a stop bit last,
one bit for every tick of its baud counter, which runs freely.  The receiver has three registers in
the line; it starts its own baud counter in the middle when it sees the line low and samples with
its ticks.  Commands come over an OCP port, which writes to the one queue and reads from the other.

`divider` is `clk_freq/baud_rate`.  The queues are lists, the head is the next element to leave; a
queue takes an element when it is not full before the cycle, and what the port of an empty queue
shows is not known.
-/

namespace Patmos.Uart

open Ocp

/-! ### Queues and baud counters -/

section Queue

variable {α : Type}

/-- `enq.ready` of a queue of `depth` elements. -/
def enqReady (depth : Nat) (q : List α) : Bool := decide (q.length < depth)

/-- The element that enters the queue. -/
def accepted (depth : Nat) (q : List α) (enq : Option α) : List α :=
  if enqReady depth q then enq.toList else []

/-- The element that leaves the queue. -/
def removed (q : List α) (ready : Bool) : List α := if ready then q.take 1 else []

def queueNext (depth : Nat) (q : List α) (enq : Option α) (ready : Bool) : List α :=
  (if ready then q.tail else q) ++ accepted depth q enq

/-- The queue is first in, first out. -/
theorem removed_append_queueNext (depth : Nat) (q : List α) (enq : Option α) (ready : Bool) :
    removed q ready ++ queueNext depth q enq ready = q ++ accepted depth q enq := by
  cases ready with
  | false => rfl
  | true =>
    rw [removed, queueNext, if_pos rfl, if_pos rfl, ← List.append_assoc, ← List.drop_one,
      List.take_append_drop]

end Queue

/-- The baud counter and its tick. -/
def baudNext (divider counter : Nat) : Nat × Bool :=
  if counter = divider then (0, true) else ((counter + 1) % 2 ^ MemBlock.log2Up divider, false)

/-- A divider that is not a power of two fits the counter. -/
theorem baudNext_of_ne {divider counter : Nat} (hwidth : divider < 2 ^ MemBlock.log2Up divider)
    (h : counter < divider) : baudNext divider counter = (counter + 1, false) := by
  rw [baudNext, if_neg h.ne, Nat.mod_eq_of_lt (by omega)]

theorem baudNext_self (divider : Nat) : baudNext divider divider = (0, true) := if_pos rfl

/-! ### The transmitter -/

inductive TxState where
  | idle
  | send
deriving DecidableEq, Repr

structure Tx where
  txBaudCounter : Nat
  txBaudTick : Bool
  txState : TxState
  txBuff : BitVec 10
  txReg : Bool
  txCounter : Nat
  txQueue : List Byte

/-- `txQueue.io.deq.ready`. -/
def Tx.deqReady (x : Tx) : Bool :=
  match x.txState with
  | .idle => !x.txQueue.isEmpty
  | .send => x.txBaudTick && x.txCounter == 10 && !x.txQueue.isEmpty

/-- The shift register, without the baud counter and the queue. -/
def Tx.shift (x : Tx) : Tx :=
  match x.txState with
  | .idle =>
    match x.txQueue with
    | [] => x
    | b :: _ => { x with txBuff := 1#1 ++ b ++ 0#1, txState := .send }
  | .send =>
    if x.txBaudTick then
      if x.txCounter = 10 then
        match x.txQueue with
        | [] => { x with txBuff := x.txBuff >>> 1, txReg := true, txCounter := 0, txState := .idle }
        | b :: _ => { x with txBuff := (1#1 ++ b).setWidth 10, txReg := false, txCounter := 1 }
      else
        { x with txBuff := x.txBuff >>> 1, txReg := x.txBuff.getLsbD 0
                 txCounter := (x.txCounter + 1) % 16 }
    else x

def Tx.next (divider depth : Nat) (x : Tx) (enq : Option Byte) : Tx :=
  { x.shift with
    txBaudCounter := (baudNext divider x.txBaudCounter).1
    txBaudTick := (baudNext divider x.txBaudCounter).2
    txQueue := queueNext depth x.txQueue enq x.deqReady }

def Tx.reset : Tx := ⟨0, false, .idle, 0, true, 0, []⟩

/-! ### The receiver -/

inductive RxState where
  | idle
  | start
  | receiveData
  | stopBit
deriving DecidableEq, Repr

structure Rx where
  rxBaudCounter : Nat
  rxBaudTick : Bool
  rxEnable : Bool
  rxBuff : BitVec 8
  rxCounter : Nat
  rxState : RxState
  rxQueue : List Byte

/-- The byte at `rxQueue.io.enq`, if it is valid; `rxdReg2` is the last register of the line. -/
def Rx.enq (x : Rx) (rxdReg2 : Bool) : Option Byte :=
  if x.rxState = .stopBit ∧ x.rxBaudTick = true ∧ rxdReg2 = true then some x.rxBuff else none

/-- The baud counter, when it is enabled. -/
def Rx.count (divider : Nat) (x : Rx) : Rx :=
  if x.rxEnable then
    { x with
      rxBaudCounter := (baudNext divider x.rxBaudCounter).1
      rxBaudTick := (baudNext divider x.rxBaudCounter).2 }
  else x

def Rx.next (divider depth : Nat) (x : Rx) (rxdReg2 ready : Bool) : Rx :=
  let x₀ : Rx :=
    { x.count divider with rxQueue := queueNext depth x.rxQueue (x.enq rxdReg2) ready }
  match x.rxState with
  | .idle =>
    if rxdReg2 = false then
      { x₀ with rxState := .start, rxBaudCounter := divider / 2, rxEnable := true }
    else x₀
  | .start =>
    if x.rxBaudTick then { x₀ with rxState := if rxdReg2 = false then .receiveData else .idle }
    else x₀
  | .receiveData =>
    if x.rxBaudTick then
      { x₀ with
        rxState := if x.rxCounter = 7 then .stopBit else .receiveData
        rxCounter := if x.rxCounter = 7 then 0 else (x.rxCounter + 1) % 8
        rxBuff := BitVec.ofBool rxdReg2 ++ x.rxBuff.extractLsb 7 1 }
    else x₀
  | .stopBit =>
    if x.rxBaudTick then { x₀ with rxState := .idle, rxEnable := false } else x₀

def Rx.reset : Rx := ⟨0, false, false, 0, 0, .idle, []⟩

/-! ### The device -/

structure State where
  tx : Tx
  rxdReg0 : Bool
  rxdReg1 : Bool
  rxdReg2 : Bool
  rx : Rx
  respReg : OcpResp
  rdDataReg : Byte

/-- The signals of a cycle; `unknown` is what an empty receive queue shows. -/
structure Cycle where
  M : CacheMaster
  rx : Bool
  unknown : Byte

/-- Bit 2 of the address selects the data. -/
def isData (m : CacheMaster) : Bool := m.addr.testBit 2

/-- The byte at `txQueue.io.enq`, if it is valid. -/
def txEnq (m : CacheMaster) : Option Byte := if m.cmd = .wr then some (lowByte m.data) else none

/-- `rxQueue.io.deq.ready`. -/
def rxDeqReady (m : CacheMaster) : Bool := m.cmd == .rd && isData m

/-- What a command reads. -/
def rdData (depth : Nat) (s : State) (m : CacheMaster) (unknown : Byte) : Byte :=
  if isData m then s.rx.rxQueue.headD unknown
  else
    0#6 ++ BitVec.ofBool (!s.rx.rxQueue.isEmpty) ++ BitVec.ofBool (enqReady depth s.tx.txQueue)

def next (divider depth : Nat) (s : State) (c : Cycle) : State where
  tx := s.tx.next divider depth (txEnq c.M)
  rxdReg0 := c.rx
  rxdReg1 := s.rxdReg0
  rxdReg2 := s.rxdReg1
  rx := s.rx.next divider depth s.rxdReg2 (rxDeqReady c.M)
  respReg := if c.M.cmd = .wr ∨ c.M.cmd = .rd then .dva else .null
  rdDataReg := rdData depth s c.M c.unknown

def reset : State := ⟨Tx.reset, true, true, true, Rx.reset, .null, 0⟩

end Patmos.Uart
