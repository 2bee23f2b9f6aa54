import Patmos.Clocked
import Patmos.MemBlock
import Patmos.Select

/-!
# The TDM memory arbiter

Every core has a `NodeTdmArbiter`.  The nodes count the cycles of a period in lock step; a node
takes a command in the first cycle of its slot, shows the signals of its core for the length of a
burst, and zeros at all other times.  `MemMuxIntf` registers the signals of the nodes, merges them
by a bitwise OR into a second register, which is the port of the memory, and gives the registered
response of the memory to all nodes.  A write is answered by the node itself.

The ledgers beside the circuit are those of the cores: the command that is still to be accepted,
and the transaction that is outstanding with the number of its words or responses so far.
-/

namespace Patmos.NodeTdmArbiter

open Ocp Clocked

/-! ### The signals -/

/-- The code of a command on the wires. -/
def code : OcpCmd → BitVec 3
  | .idle => 0
  | .wr => 1
  | .rd => 2

/-- `OcpBurstMasterSignals`. -/
structure Master (addrWidth dataWidth : Nat) where
  cmd : BitVec 3
  addr : BitVec addrWidth
  data : BitVec dataWidth
  dataByteEn : BitVec (dataWidth / 8)
  dataValid : BitVec 1
deriving DecidableEq

/-- The part of `OcpBurstSlaveSignals` that the memory drives. -/
structure Slave (dataWidth : Nat) where
  resp : OcpResp
  data : BitVec dataWidth

/-- `OcpBurstSlaveSignals`, as a core sees them. -/
structure Reply (dataWidth : Nat) where
  resp : OcpResp
  data : BitVec dataWidth
  cmdAccept : Bool
  dataAccept : Bool

namespace Master

variable {addrWidth dataWidth : Nat}

def zero : Master addrWidth dataWidth := ⟨0, 0, 0, 0, 0⟩

/-- The bitwise OR of each signal. -/
def or (a b : Master addrWidth dataWidth) : Master addrWidth dataWidth :=
  ⟨a.cmd ||| b.cmd, a.addr ||| b.addr, a.data ||| b.data, a.dataByteEn ||| b.dataByteEn,
    a.dataValid ||| b.dataValid⟩

/-- `reduce(_|_)` of each signal. -/
def merge {cnt : Nat} (ms : Fin cnt → Master addrWidth dataWidth) : Master addrWidth dataWidth :=
  (List.finRange cnt).foldl (fun m i => m.or (ms i)) zero

@[simp] theorem zero_or (a : Master addrWidth dataWidth) : zero.or a = a := by
  simp [zero, or]

@[simp] theorem or_zero (a : Master addrWidth dataWidth) : a.or zero = a := by
  simp [zero, or]

/-- The merge is the only signals that are not zero. -/
theorem merge_of_others_zero {cnt : Nat} {ms : Fin cnt → Master addrWidth dataWidth} {i : Fin cnt}
    (h : ∀ j, j ≠ i → ms j = zero) : merge ms = ms i :=
  Select.foldl_of_one zero_or or_zero h

theorem merge_of_zero {cnt : Nat} {ms : Fin cnt → Master addrWidth dataWidth}
    (h : ∀ j, ms j = zero) : merge ms = zero :=
  List.foldl_fixed' (fun j => by rw [h j, or_zero]) _

end Master

/-! ### The circuit -/

/-- The parameters of a node, less the number of nodes and the widths. -/
structure Config where
  burstLen : Nat
  ctrlDelay : Nat

namespace Config

variable (cfg : Config)

def slotLen : Nat := cfg.burstLen + cfg.ctrlDelay + 1

def period (cnt : Nat) : Nat := cnt * cfg.slotLen

def numPipe : Nat := 3

def wrPipeDelay : Nat := cfg.burstLen + cfg.ctrlDelay + numPipe

def rdPipeDelay : Nat := cfg.burstLen + cfg.ctrlDelay + numPipe

end Config

inductive Fsm where
  | sIdle
  | sRead
  | sWrite
deriving DecidableEq, Repr

/-- The registers of `NodeTdmArbiter`. -/
structure Node (cnt : Nat) where
  cntReg : Nat
  burstCntReg : Nat
  wrCntReg : Nat
  rdCntReg : Nat
  cpuSlot : Fin cnt → Bool
  stateReg : Fsm

/-- The registers of `MemMuxIntf`: both stages towards the memory and the one of the response. -/
structure Mux (cnt addrWidth dataWidth : Nat) where
  p1 : Fin cnt → Master addrWidth dataWidth
  p2 : Master addrWidth dataWidth
  s_p1 : Slave dataWidth

section Circuit

variable (cfg : Config) {cnt addrWidth dataWidth : Nat}

/-- `io.slave.M` of node `i`. -/
def toSlave (i : Fin cnt) (x : Node cnt) (m : Master addrWidth dataWidth) :
    Master addrWidth dataWidth :=
  match x.stateReg with
  | .sIdle => if x.cpuSlot i ∧ (m.cmd = code .rd ∨ m.cmd = code .wr) then m else Master.zero
  | .sWrite => if x.wrCntReg ≥ cfg.burstLen - 1 then Master.zero else m
  | .sRead => if x.rdCntReg ≥ cfg.burstLen - 1 then Master.zero else m

/-- `io.master.S` of node `i`. -/
def toMaster (i : Fin cnt) (x : Node cnt) (m : Master addrWidth dataWidth)
    (s : Slave dataWidth) : Reply dataWidth :=
  match x.stateReg with
  | .sIdle =>
    if x.cpuSlot i ∧ m.cmd = code .rd then ⟨.null, 0, true, false⟩
    else if x.cpuSlot i ∧ m.cmd = code .wr then ⟨.null, 0, true, true⟩
    else ⟨.null, 0, false, false⟩
  | .sWrite =>
    ⟨if x.wrCntReg = 4 then .dva else .null, 0, false, !decide (x.wrCntReg ≥ cfg.burstLen - 1)⟩
  | .sRead =>
    if x.rdCntReg ≥ cfg.ctrlDelay + Config.numPipe then ⟨s.resp, s.data, false, false⟩
    else ⟨.null, 0, false, false⟩

def cntNext (cnt k : Nat) : Nat :=
  if k = cfg.period cnt - 1 then 0 else (k + 1) % 2 ^ MemBlock.log2Up (cfg.period cnt)

def wrCntNext (k : Nat) : Nat :=
  if k = cfg.wrPipeDelay then 0 else (k + 1) % 2 ^ MemBlock.log2Up cfg.wrPipeDelay

def rdCntNext (k : Nat) : Nat :=
  if k = cfg.rdPipeDelay + cfg.burstLen then 0 else (k + 1) % 2 ^ MemBlock.log2Up cfg.rdPipeDelay

/-- The slot counter and the slot flags, which do not depend on the state machine. -/
def tick (x : Node cnt) : Node cnt :=
  { x with
    cntReg := cntNext cfg cnt x.cntReg
    cpuSlot := fun j => x.cntReg == j * cfg.slotLen }

def nodeNext (i : Fin cnt) (x : Node cnt) (m : Master addrWidth dataWidth)
    (s : Slave dataWidth) : Node cnt :=
  let x₀ := tick cfg x
  match x.stateReg with
  | .sIdle =>
    if x.cpuSlot i ∧ m.cmd = code .rd then { x₀ with stateReg := .sRead, rdCntReg := 0 }
    else if x.cpuSlot i ∧ m.cmd = code .wr then { x₀ with stateReg := .sWrite, wrCntReg := 0 }
    else x₀
  | .sWrite =>
    { x₀ with
      wrCntReg := wrCntNext cfg x.wrCntReg
      stateReg := if (toMaster cfg i x m s).resp = .dva then .sIdle else .sWrite }
  | .sRead =>
    let x₁ := { x₀ with rdCntReg := rdCntNext cfg x.rdCntReg }
    if (toMaster cfg i x m s).resp = .dva then
      { x₁ with
        burstCntReg := (x.burstCntReg + 1) % 2 ^ MemBlock.log2Up cfg.burstLen
        stateReg := if x.burstCntReg = cfg.burstLen - 1 then .sIdle else .sRead }
    else x₁

end Circuit

/-! ### The cores -/

/-- An outstanding transaction: a write with the number of words that were accepted, or a read
    with the number of words that came. -/
inductive Pend where
  | write (words : Nat)
  | read (resps : Nat)
deriving DecidableEq, Repr

/-- The signals of the cores and of the memory in a cycle. -/
structure Cycle (cnt addrWidth dataWidth : Nat) where
  master : Fin cnt → Master addrWidth dataWidth
  slave : Slave dataWidth

/-- The nodes and the multiplexer, and the ledgers of the cores: what is held until it is
    accepted, and what is outstanding. -/
structure Sys (cnt addrWidth dataWidth : Nat) where
  node : Fin cnt → Node cnt
  mux : Mux cnt addrWidth dataWidth
  held : Fin cnt → Option (Master addrWidth dataWidth)
  pend : Fin cnt → Option Pend

namespace Sys

variable {cnt addrWidth dataWidth : Nat} (cfg : Config)

section Step

variable (y : Sys cnt addrWidth dataWidth) (c : Cycle cnt addrWidth dataWidth)

/-- What node `i` shows to the multiplexer. -/
def shown (i : Fin cnt) : Master addrWidth dataWidth := toSlave cfg i (y.node i) (c.master i)

/-- What core `i` sees. -/
def reply (i : Fin cnt) : Reply dataWidth := toMaster cfg i (y.node i) (c.master i) y.mux.s_p1

def pendNext (i : Fin cnt) : Option Pend :=
  if (y.reply cfg c i).cmdAccept then
    some (if (c.master i).cmd = code .wr then .write 1 else .read 0)
  else
    match y.pend i with
    | none => none
    | some (.write words) =>
      if (y.reply cfg c i).resp = .dva then none
      else some (.write (words + (y.reply cfg c i).dataAccept.toNat))
    | some (.read resps) =>
      if (y.reply cfg c i).resp = .dva then
        if resps = cfg.burstLen - 1 then none else some (.read (resps + 1))
      else some (.read resps)

def heldNext (i : Fin cnt) : Option (Master addrWidth dataWidth) :=
  if (c.master i).cmd = code .idle ∨ (y.reply cfg c i).cmdAccept then none else some (c.master i)

def next : Sys cnt addrWidth dataWidth where
  node i := nodeNext cfg i (y.node i) (c.master i) y.mux.s_p1
  mux := ⟨y.shown cfg c, Master.merge y.mux.p1, c.slave⟩
  held := y.heldNext cfg c
  pend := y.pendNext cfg c

/-- The cores follow the burst protocol: a command is held until it is accepted and comes with
    its first word, the next one comes at the earliest with the last response, and the other
    words of a write are there when they are accepted. -/
structure Legal : Prop where
  known : ∀ i, (c.master i).cmd = code .idle ∨ (c.master i).cmd = code .wr ∨
    (c.master i).cmd = code .rd
  held : ∀ i m, y.held i = some m → c.master i = m
  single : ∀ i, y.pend i ≠ none → y.pendNext cfg c i ≠ none → (c.master i).cmd = code .idle
  first : ∀ i, (c.master i).cmd = code .wr → (c.master i).dataValid = 1
  words : ∀ i n, y.pend i = some (.write n) → n < cfg.burstLen → (c.master i).dataValid = 1

/-- The memory has returned the words of a read when `rdCntReg` of its node is at its end. -/
def Prompt : Prop :=
  ∀ i, (y.node i).stateReg = .sRead → rdCntNext cfg (y.node i).rdCntReg = 0 →
    (y.node i).burstCntReg = cfg.burstLen - 1 ∧ y.mux.s_p1.resp = .dva

end Step

/-- The registers after reset; those without a reset value are free. -/
structure IsReset (y : Sys cnt addrWidth dataWidth) : Prop where
  cntReg : ∀ i, (y.node i).cntReg = 0
  burstCntReg : ∀ i, (y.node i).burstCntReg = 0
  wrCntReg : ∀ i, (y.node i).wrCntReg = 0
  rdCntReg : ∀ i, (y.node i).rdCntReg = 0
  cpuSlot : ∀ i j, (y.node i).cpuSlot j = false
  stateReg : ∀ i, (y.node i).stateReg = .sIdle
  cmd_p1 : ∀ i, (y.mux.p1 i).cmd = code .idle
  cmd_p2 : y.mux.p2.cmd = code .idle
  held : ∀ i, y.held i = none
  pend : ∀ i, y.pend i = none

/-! ### What is promised -/

section Promise

variable (y₀ : Sys cnt addrWidth dataWidth) (tr : ℕ → Cycle cnt addrWidth dataWidth)

/-- The system before cycle `t`. -/
def sysAt (t : ℕ) : Sys cnt addrWidth dataWidth := stateAt (next cfg) y₀ tr t

/-- The port of the memory in cycle `t`. -/
def port (t : ℕ) : Master addrWidth dataWidth := (sysAt cfg y₀ tr t).mux.p2

def shownAt (t : ℕ) (i : Fin cnt) : Master addrWidth dataWidth :=
  (sysAt cfg y₀ tr t).shown cfg (tr t) i

def replyAt (t : ℕ) (i : Fin cnt) : Reply dataWidth := (sysAt cfg y₀ tr t).reply cfg (tr t) i

/-- A write that is accepted from core `i` in cycle `t` goes to the memory. -/
structure Written (t : ℕ) (i : Fin cnt) : Prop where
  /-- The words of the burst are accepted in consecutive cycles and are at the memory two
      cycles later. -/
  words : ∀ k < cfg.burstLen, (replyAt cfg y₀ tr (t + k) i).dataAccept = true ∧
    port cfg y₀ tr (t + k + 2) = (tr (t + k)).master i ∧
    (port cfg y₀ tr (t + k + 2)).dataValid = 1
  /-- The command comes with the first of them only. -/
  command : ∀ k < cfg.burstLen,
    (port cfg y₀ tr (t + k + 2)).cmd = if k = 0 then code .wr else code .idle
  /-- The response comes when the last word is at the memory, and is the only one. -/
  answer : ∃ d, cfg.burstLen < d ∧ (replyAt cfg y₀ tr (t + d) i).resp = .dva ∧
    (∀ k < d, (replyAt cfg y₀ tr (t + k) i).resp = .null) ∧
    (∀ k, cfg.burstLen ≤ k → k ≤ d → (replyAt cfg y₀ tr (t + k) i).dataAccept = false) ∧
    ∀ u, t + d < u → (∀ v, t + d < v → v < u → (replyAt cfg y₀ tr v i).cmdAccept = false) →
      (replyAt cfg y₀ tr u i).resp = .null

/-- The first `n` cycles of a run lose nothing. -/
structure Lossless (n : ℕ) : Prop where
  /-- At most one node shows anything, -/
  exclusive : ∀ t < n, ∀ i j, shownAt cfg y₀ tr t i ≠ Master.zero →
    shownAt cfg y₀ tr t j ≠ Master.zero → i = j
  /-- which is what the merge is two cycles later. -/
  merged : ∀ t < n, ∀ i, shownAt cfg y₀ tr t i ≠ Master.zero →
    port cfg y₀ tr (t + 2) = shownAt cfg y₀ tr t i
  silent : ∀ t < n, (∀ i, shownAt cfg y₀ tr t i = Master.zero) →
    port cfg y₀ tr (t + 2) = Master.zero
  /-- A command at the memory is one that was accepted. -/
  command : ∀ t < n, (port cfg y₀ tr (t + 2)).cmd ≠ code .idle →
    ∃ i, (replyAt cfg y₀ tr t i).cmdAccept = true ∧ port cfg y₀ tr (t + 2) = (tr t).master i
  write : ∀ t i, t + cfg.burstLen ≤ n → (replyAt cfg y₀ tr t i).cmdAccept = true →
    ((tr t).master i).cmd = code .wr → Written cfg y₀ tr t i
  read : ∀ t < n, ∀ i, (replyAt cfg y₀ tr t i).cmdAccept = true →
    ((tr t).master i).cmd = code .rd → port cfg y₀ tr (t + 2) = (tr t).master i
  /-- A command is accepted within a period. -/
  accepted : ∀ t i, t + cfg.period cnt < n → ((tr t).master i).cmd ≠ code .idle →
    ∃ u, t ≤ u ∧ u ≤ t + cfg.period cnt ∧ (replyAt cfg y₀ tr u i).cmdAccept = true ∧
      (tr u).master i = (tr t).master i

end Promise

end Sys

end Patmos.NodeTdmArbiter
