import Patmos.Clocked
import Patmos.Ocp
import Mathlib.Data.Nat.Log

/-!
# The SRAM controller

`SRamCtrl` serves bursts from an asynchronous SRAM of halfwords, here with `sramDataWidth` 16 and
`singleCycleRead` false.  A read burst shifts the halfwords into a buffer, two cycles for each, and
then returns the words.  A write burst is first received into a buffer; then every halfword has
the write strobe for `writeWaitCycles` cycles and one cycle in which no byte lane is selected.  All
pins are registers, so they are one cycle behind the state machine; the strobe of the first
halfword already begins while the last word is awaited.

The ledgers are the outstanding transaction of the master and the memory of words as it is after
all writes that were answered.
-/

namespace Patmos.SRamCtrl

open Ocp Clocked

/-! ### Halfwords -/

abbrev Half := Fin 2 → Byte

/-- Half `i` of four lanes. -/
def part {α : Type} (w : Fin 4 → α) (i : Fin 2) : Fin 2 → α := fun l => w ⟨2 * i + l, by omega⟩

/-- Two halves as four lanes. -/
def join {α : Type} (h : Fin 2 → Fin 2 → α) : Fin 4 → α :=
  fun k => h ⟨k / 2, by omega⟩ ⟨k % 2, by omega⟩

/-- `Trans`: a halfword with its byte enables. -/
structure Trans where
  byteEna : Fin 2 → Bool
  data : Half

/-- A memory of words by halfword address. -/
def halves (mem : Memory) : Nat → Half := fun h => part (mem (h / 2)) ⟨h % 2, by omega⟩

/-! ### The circuit -/

/-- The parameters of the controller. -/
structure Config where
  ocpBurstLen : Nat
  sramAddrWidth : Nat
  writeWaitCycles : Nat

inductive Fsm where
  | sReady
  | sReadExe
  | sReadExe2
  | sReadRet
  | sWriteRec
  | sWriteExe
  | sWriteExe2
  | sWriteRet
deriving DecidableEq, Repr

/-- The output registers.  `doutReg` has more bits than `dout`; the other ones are zero. -/
structure Pins where
  addrReg : Nat
  doutEnaReg : Bool
  doutReg : Half
  nceReg : Bool
  noeReg : Bool
  nweReg : Bool
  nlbReg : Bool
  nubReg : Bool

structure State where
  stateReg : Fsm
  mAddrReg : Nat
  rdBufferReg : Nat → Half
  wrBufferReg : Nat → Trans
  transCountReg : Nat
  wordCountReg : Nat
  waitCountReg : Nat
  pins : Pins

section Circuit

variable (cfg : Config)

def log2upNew (n : Nat) : Nat := Nat.clog 2 n

def TRANSPERCMD : Nat := 2 * cfg.ocpBurstLen

/-- The value of a counter of `n` values. -/
def wrap (n k : Nat) : Nat := k % 2 ^ log2upNew n

/-- An address of the SRAM. -/
def sramAddr (a : Nat) : Nat := a % 2 ^ cfg.sramAddrWidth

/-- The default values of the output registers. -/
def defaultPins (s : State) : Pins where
  addrReg := s.mAddrReg
  doutEnaReg := false
  doutReg := (s.wrBufferReg 0).data
  nceReg := false
  noeReg := true
  nweReg := true
  nlbReg := true
  nubReg := true

/-- Both halves of the word of the master go to entries `2 * k` and `2 * k + 1`. -/
def receive (buf : Nat → Trans) (k : Nat) (m : BurstMaster) : Nat → Trans :=
  fun j =>
    if j / 2 = k then
      ⟨part m.dataByteEn ⟨j % 2, by omega⟩, part m.data ⟨j % 2, by omega⟩⟩
    else buf j

/-- The byte lanes of `t` are selected. -/
def select (p : Pins) (t : Trans) : Pins :=
  { p with nubReg := !t.byteEna 1, nlbReg := !t.byteEna 0 }

/-- `io.ocp.S`; the accept signals are always high. -/
def slaveS (s : State) : CoreSlave :=
  ⟨if s.stateReg = .sReadRet ∨ s.stateReg = .sWriteRet then .dva else .null,
    join fun i => s.rdBufferReg (2 * s.wordCountReg + i)⟩

/-- The registers with the default values of this cycle. -/
def defaults (s : State) : State := { s with waitCountReg := 0, pins := defaultPins s }

def sReady (s : State) (m : BurstMaster) : State :=
  let d := { defaults s with wrBufferReg := receive s.wrBufferReg 0 m }
  match m.cmd with
  | .idle => d
  | .rd => { d with mAddrReg := sramAddr cfg (m.addr / 2), stateReg := .sReadExe }
  | .wr =>
    { d with mAddrReg := sramAddr cfg (m.addr / 2), wordCountReg := 1, stateReg := .sWriteRec }

def sReadExe (s : State) : State :=
  { defaults s with
    pins := { defaultPins s with
      noeReg := false, nceReg := false, nubReg := false, nlbReg := false }
    stateReg := .sReadExe2 }

def sReadExe2 (s : State) (din : Half) : State :=
  { defaults s with
    pins := { defaultPins s with
      noeReg := false, nceReg := false, nubReg := false, nlbReg := false
      addrReg := sramAddr cfg (s.mAddrReg + 1) }
    mAddrReg := sramAddr cfg (s.mAddrReg + 1)
    rdBufferReg := fun i => if i = TRANSPERCMD cfg - 1 then din else s.rdBufferReg (i + 1)
    transCountReg :=
      if s.transCountReg = TRANSPERCMD cfg - 1 then 0
      else wrap (TRANSPERCMD cfg) (s.transCountReg + 1)
    stateReg := if s.transCountReg = TRANSPERCMD cfg - 1 then .sReadRet else .sReadExe }

def sReadRet (s : State) : State :=
  { defaults s with
    wordCountReg :=
      if s.wordCountReg = cfg.ocpBurstLen - 1 then 0
      else wrap cfg.ocpBurstLen (s.wordCountReg + 1)
    stateReg := if s.wordCountReg = cfg.ocpBurstLen - 1 then .sReady else .sReadRet }

def sWriteRec (s : State) (m : BurstMaster) : State :=
  let p := { defaultPins s with doutReg := (s.wrBufferReg 0).data, doutEnaReg := true }
  let d := { defaults s with
    wrBufferReg := receive s.wrBufferReg s.wordCountReg m
    pins :=
      if s.wordCountReg = cfg.ocpBurstLen - 1 then
        select { p with nceReg := false, nweReg := false } (s.wrBufferReg 0)
      else p }
  if m.dataValid then
    if s.wordCountReg = cfg.ocpBurstLen - 1 then
      { d with stateReg := .sWriteExe, wordCountReg := 0, waitCountReg := 1 }
    else { d with wordCountReg := wrap cfg.ocpBurstLen (s.wordCountReg + 1) }
  else d

def sWriteExe (s : State) : State :=
  let t := s.wrBufferReg s.transCountReg
  let p := { defaultPins s with
    nceReg := false, nweReg := false, doutReg := t.data, doutEnaReg := true }
  if s.waitCountReg < cfg.writeWaitCycles then
    { defaults s with
      waitCountReg := wrap (cfg.writeWaitCycles + 1) (s.waitCountReg + 1)
      pins := select p t }
  else { defaults s with pins := p, stateReg := .sWriteExe2 }

def sWriteExe2 (s : State) : State :=
  if s.transCountReg < TRANSPERCMD cfg - 1 then
    let t := s.wrBufferReg (wrap (TRANSPERCMD cfg) (s.transCountReg + 1))
    let p := { defaultPins s with
      nceReg := false, nweReg := false, doutReg := t.data, doutEnaReg := true
      addrReg := sramAddr cfg (s.mAddrReg + 1) }
    { defaults s with
      pins := select p t
      mAddrReg := sramAddr cfg (s.mAddrReg + 1)
      transCountReg := wrap (TRANSPERCMD cfg) (s.transCountReg + 1)
      waitCountReg := 1
      stateReg := .sWriteExe }
  else if s.transCountReg = TRANSPERCMD cfg - 1 then
    { defaults s with stateReg := .sWriteRet, transCountReg := 0 }
  else defaults s

def sWriteRet (s : State) : State := { defaults s with stateReg := .sReady }

def next (s : State) (m : BurstMaster) (din : Half) : State :=
  match s.stateReg with
  | .sReady => sReady cfg s m
  | .sReadExe => sReadExe s
  | .sReadExe2 => sReadExe2 cfg s din
  | .sReadRet => sReadRet cfg s
  | .sWriteRec => sWriteRec cfg s m
  | .sWriteExe => sWriteExe cfg s
  | .sWriteExe2 => sWriteExe2 cfg s
  | .sWriteRet => sWriteRet s

end Circuit

/-! ### The SRAM -/

namespace Pins

/-- The byte lanes that are selected. -/
def lane (p : Pins) (l : Fin 2) : Bool := if l = 0 then !p.nlbReg else !p.nubReg

/-- The data pins: driven by the controller, by the selected lanes of the SRAM, or by none. -/
def bus (p : Pins) (sram : Nat → Half) (junk : Half) : Half :=
  if p.doutEnaReg then p.doutReg
  else fun l => if !p.nceReg && !p.noeReg && p.lane l then sram p.addrReg l else junk l

def sramNext (p : Pins) (sram : Nat → Half) (junk : Half) : Nat → Half :=
  if !p.nceReg && !p.nweReg then
    Function.update sram p.addrReg fun l =>
      if p.lane l then p.bus sram junk l else sram p.addrReg l
  else sram

end Pins

/-! ### The controller with its SRAM -/

/-- An outstanding transaction with the address of its first word: a read with the number of
    words that were returned, or a write with the words that were received. -/
inductive Pend where
  | read (base done : Nat)
  | write (base : Nat) (words : List (ByteEn × Word))

/-- The master's signals, and the data pins when nobody drives them. -/
structure Cycle where
  m : BurstMaster
  junk : Half

structure Sys where
  ctrl : State
  sram : Nat → Half
  pend : Option Pend
  spec : Memory

/-- The words of a burst go into the memory. -/
def writeAll (mem : Memory) (base : Nat) : List (ByteEn × Word) → Memory
  | [] => mem
  | (be, w) :: ws => writeAll (mem.write base be w) (base + 1) ws

namespace Sys

variable (cfg : Config)

def pendNext (y : Sys) (c : Cycle) : Option Pend :=
  match y.pend with
  | none =>
    match c.m.cmd with
    | .idle => none
    | .rd => some (.read (c.m.addr / 4) 0)
    | .wr => some (.write (c.m.addr / 4) [(c.m.dataByteEn, c.m.data)])
  | some (.read base done) =>
    if (slaveS y.ctrl).resp = .dva then
      if done + 1 = cfg.ocpBurstLen then none else some (.read base (done + 1))
    else some (.read base done)
  | some (.write base ws) =>
    if (slaveS y.ctrl).resp = .dva then none
    else if ws.length < cfg.ocpBurstLen ∧ c.m.dataValid then
      some (.write base (ws ++ [(c.m.dataByteEn, c.m.data)]))
    else some (.write base ws)

def specNext (y : Sys) : Memory :=
  match y.pend with
  | some (.write base ws) =>
    if (slaveS y.ctrl).resp = .dva then writeAll y.spec base ws else y.spec
  | _ => y.spec

def next (y : Sys) (c : Cycle) : Sys where
  ctrl := SRamCtrl.next cfg y.ctrl c.m (y.ctrl.pins.bus y.sram c.junk)
  sram := y.ctrl.pins.sramNext y.sram c.junk
  pend := y.pendNext cfg c
  spec := y.specNext

/-- Transactions come one at a time, and bursts are aligned and inside the SRAM. -/
structure Legal (y : Sys) (c : Cycle) : Prop where
  single : c.m.cmd ≠ .idle → y.pend = none
  aligned : c.m.cmd ≠ .idle → 4 * cfg.ocpBurstLen ∣ c.m.addr
  inside : c.m.cmd ≠ .idle → c.m.addr + 4 * cfg.ocpBurstLen ≤ 2 * 2 ^ cfg.sramAddrWidth

/-- A byte of the SRAM is that of the memory, or one that the outstanding write has enabled. -/
def ByteOk (y : Sys) (h : Nat) (l : Fin 2) : Prop :=
  y.sram h l = halves y.spec h l ∨
    ∃ base ws k be w, y.pend = some (.write base ws) ∧ ws[k]? = some (be, w) ∧ h / 2 = base + k ∧
      part be ⟨h % 2, by omega⟩ l = true ∧ y.sram h l = part w ⟨h % 2, by omega⟩ l

/-- The controller and the SRAM are a memory, seen in a cycle. -/
structure IsMemory (y : Sys) : Prop where
  /-- Without a transaction there is no response, and the SRAM has the bytes of all writes. -/
  quiet : y.pend = none → (slaveS y.ctrl).resp = .null ∧ y.sram = halves y.spec
  /-- A read returns the words in order. -/
  read : ∀ base done, y.pend = some (.read base done) → y.sram = halves y.spec ∧
    (slaveS y.ctrl).resp ∈ [OcpResp.null, .dva] ∧
    ((slaveS y.ctrl).resp = .dva → (slaveS y.ctrl).data = y.spec (base + done))
  /-- A write is answered when all its bytes are in the SRAM. -/
  write : ∀ base ws, y.pend = some (.write base ws) →
    (slaveS y.ctrl).resp ∈ [OcpResp.null, .dva] ∧
    ((slaveS y.ctrl).resp = .dva →
      ws.length = cfg.ocpBurstLen ∧ y.sram = halves (writeAll y.spec base ws))
  /-- No other byte ever changes. -/
  bytes : ∀ h l, y.ByteOk h l

/-- The registers after reset.  The output registers have no reset value, but the strobe is high
    when the clock has run during reset. -/
structure IsReset (s : State) : Prop where
  stateReg : s.stateReg = .sReady
  transCountReg : s.transCountReg = 0
  wordCountReg : s.wordCountReg = 0
  nweReg : s.pins.nweReg = true

def init (s : State) (mem : Memory) : Sys := ⟨s, halves mem, none, mem⟩

/-- The controller does not wait for a word of the master. -/
def working (y : Sys) (c : Cycle) : List Unit :=
  if y.ctrl.stateReg = .sWriteRec ∧ c.m.dataValid = false then [] else [()]

/-- The number of cycles that a transaction takes at most, less those in which the controller
    waits for a word. -/
def bound : Nat :=
  max (5 * cfg.ocpBurstLen) (cfg.ocpBurstLen + 2 * cfg.ocpBurstLen * (cfg.writeWaitCycles + 1))

/-- Every transaction comes to its end. -/
def Ends (y : Sys) (cs : List Cycle) : Prop :=
  ∀ p q, cs = p ++ q → Along (next cfg) (fun y _ => y.pend ≠ none) (run (next cfg) y p) q →
    (emitted (next cfg) working (run (next cfg) y p) q).length ≤ bound cfg

end Sys

end Patmos.SRamCtrl
