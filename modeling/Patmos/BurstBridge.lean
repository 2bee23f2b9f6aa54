import Patmos.Clocked
import Patmos.MemBlock

/-!
# From words to bursts

`OcpBurstBridge` puts a master that reads and writes single words on a burst slave.  A read
fetches the whole burst and keeps the word at the position of the address; a write sends a
burst in which only that word has byte enables.

The bridge is put between a master that has one access outstanding and a burst memory.  A
ledger beside it keeps the outstanding access and the memory with the writes that were issued.
-/

namespace Patmos.OcpBurstBridge

open Ocp Clocked

/-! ### The circuit -/

inductive Fsm where
  | idle
  | read
  | readResp
  | write
deriving DecidableEq, Repr

structure State where
  state : Fsm
  burstCnt : Nat
  cmdPos : Nat
  masterReg : CacheMaster
  slaveReg : CoreSlave

section Circuit

variable (burstLength : Nat)

/-- `slave.M`. -/
def toSlave (s : State) : BurstMaster where
  cmd := s.masterReg.cmd
  addr := s.masterReg.addr / 2 ^ (MemBlock.log2Up burstLength + 2) *
    2 ^ (MemBlock.log2Up burstLength + 2)
  data := if s.state = .write ∧ s.burstCnt = s.cmdPos then s.masterReg.data else fun _ => 0
  dataValid := s.state == .write
  dataByteEn := if s.state = .write ∧ s.burstCnt = s.cmdPos then s.masterReg.byteEn else noBytes

/-- `master.S`. -/
def toMaster (s : State) (slave : BurstSlave) : CoreSlave :=
  match s.state with
  | .read => ⟨.null, fun _ => 0⟩
  | .readResp => s.slaveReg
  | _ => ⟨slave.resp, slave.data⟩

/-- The next `state`, less the start of a transaction. -/
def stateNext (s : State) (slave : BurstSlave) : Fsm :=
  match s.state with
  | .idle => .idle
  | .read =>
    if slave.resp ≠ .null ∧ s.burstCnt = burstLength - 1 then .readResp else .read
  | .readResp => .idle
  | .write => if s.burstCnt = burstLength - 1 then .idle else .write

/-- `burstCnt` moves with the responses to a read and with the accepted words of a write. -/
def counts (s : State) (slave : BurstSlave) : Bool :=
  match s.state with
  | .read => slave.resp != .null
  | .write => slave.dataAccept
  | _ => false

def next (s : State) (master : CacheMaster) (slave : BurstSlave) : State where
  state :=
    match master.cmd with
    | .rd => .read
    | .wr => .write
    | .idle => stateNext burstLength s slave
  burstCnt := if counts s slave then (s.burstCnt + 1) % 2 ^ MemBlock.log2Up burstLength
    else s.burstCnt
  cmdPos := if master.cmd ≠ .idle then master.addr / 4 % 2 ^ MemBlock.log2Up burstLength
    else s.cmdPos
  masterReg :=
    if s.state = .write then { s.masterReg with cmd := .idle }
    else if s.masterReg.cmd = .idle ∨ slave.cmdAccept = true then master else s.masterReg
  slaveReg :=
    if s.state = .read ∧ slave.resp ≠ .null ∧ s.burstCnt = s.cmdPos then ⟨slave.resp, slave.data⟩
    else s.slaveReg

end Circuit

/-! ### Master and memory -/

/-- What the master does and the memory decides in a cycle. -/
structure Cycle where
  master : CacheMaster
  mem : Choice

/-- The bridge in front of a memory, with the outstanding access and the memory as it is after
    all writes that were issued. -/
structure Sys where
  bridge : State
  slave : Slave
  pend : Option CacheMaster
  spec : Memory

namespace Sys

section Next

variable (burstLength : Nat)

def slaveS (y : Sys) (c : Cycle) : BurstSlave := y.slave.out (toSlave burstLength y.bridge) c.mem

/-- What the master sees. -/
def answer (y : Sys) (c : Cycle) : CoreSlave := toMaster y.bridge (y.slaveS burstLength c)

def next (y : Sys) (c : Cycle) : Sys where
  bridge := OcpBurstBridge.next burstLength y.bridge c.master (y.slaveS burstLength c)
  slave := y.slave.next burstLength (toSlave burstLength y.bridge) c.mem
  pend := if c.master.cmd ≠ .idle then some c.master
    else if (y.answer burstLength c).resp = .null then y.pend else none
  spec := if c.master.cmd = .wr then
      y.spec.write (c.master.addr / 4) c.master.byteEn c.master.data
    else y.spec

/-- The master issues accesses one at a time: the next one at the earliest when the last one
    is answered. -/
def Legal (y : Sys) (c : Cycle) : Prop :=
  y.pend ≠ none → (y.answer burstLength c).resp = .null → c.master.cmd = .idle

instance (y : Sys) (c : Cycle) : Decidable (y.Legal burstLength c) :=
  inferInstanceAs (Decidable (_ → _))

/-- A write command is accepted in the cycle in which it is first shown. -/
def Prompt (y : Sys) (c : Cycle) : Prop :=
  y.bridge.state = .write → y.bridge.masterReg.cmd = .wr → c.mem.accept = true

instance (y : Sys) (c : Cycle) : Decidable (y.Prompt c) := inferInstanceAs (Decidable (_ → _))

/-- Single word semantics, in a cycle. -/
structure Observed (y : Sys) (c : Cycle) : Prop where
  /-- There is no response without an access. -/
  asked : (y.answer burstLength c).resp ≠ .null → y.pend ≠ none
  /-- A read returns the word at its address. -/
  load : ∀ a, y.pend = some a → a.cmd = .rd → (y.answer burstLength c).resp = .dva →
    (y.answer burstLength c).data = y.spec (a.addr / 4)
  /-- With the response to an access, and while there is none, the memory has the enabled bytes
      of all writes and is otherwise unchanged. -/
  stored : y.pend = none ∨ (y.answer burstLength c).resp ≠ .null → y.slave.mem = y.spec

end Next

/-- The registers with a reset value have it, and no command came in during reset. -/
structure IsReset (s : State) : Prop where
  state : s.state = .idle
  burstCnt : s.burstCnt = 0
  masterReg : s.masterReg.cmd = .idle

def init (s : State) (mem : Memory) : Sys := ⟨s, ⟨.idle, mem⟩, none, mem⟩

/-! ### What the bridge is doing -/

section Stages

variable (burstLength : Nat)

/-- The word address of the burst with byte address `addr`. -/
def base (addr : Nat) : Nat := addr / 4 / burstLength * burstLength

def pos (addr : Nat) : Nat := addr / 4 % burstLength

/-- The word at the position of the address has been kept: an error, or the word. -/
structure Kept (y : Sys) (a : CacheMaster) : Prop where
  resp : y.bridge.slaveReg.resp ≠ .null
  data : y.bridge.slaveReg.resp = .dva → y.bridge.slaveReg.data = y.spec (a.addr / 4)

/-- A read waits to be accepted. -/
structure ReadAsk (y : Sys) (a : CacheMaster) : Prop where
  pend : y.pend = some a
  rd : a.cmd = .rd
  state : y.bridge.state = .read
  burstCnt : y.bridge.burstCnt = 0
  cmdPos : y.bridge.cmdPos = pos burstLength a.addr
  masterReg : y.bridge.masterReg = a
  phase : y.slave.phase = .idle
  mem : y.slave.mem = y.spec

/-- `k` words of a read burst have come. -/
structure Reading (y : Sys) (a : CacheMaster) (k : Nat) : Prop where
  pend : y.pend = some a
  rd : a.cmd = .rd
  state : y.bridge.state = .read
  burstCnt : y.bridge.burstCnt = k
  lt : k < burstLength
  cmdPos : y.bridge.cmdPos = pos burstLength a.addr
  cmd : y.bridge.masterReg.cmd = .idle
  phase : y.slave.phase = .read (base burstLength a.addr) k
  mem : y.slave.mem = y.spec
  kept : pos burstLength a.addr < k → Kept y a

/-- The response to a read is on the master's port. -/
structure ReadDone (y : Sys) (a : CacheMaster) : Prop where
  pend : y.pend = some a
  rd : a.cmd = .rd
  state : y.bridge.state = .readResp
  burstCnt : y.bridge.burstCnt = 0
  cmd : y.bridge.masterReg.cmd = .idle
  phase : y.slave.phase = .idle
  mem : y.slave.mem = y.spec
  kept : Kept y a

/-- A write burst with `k` words sent, over a memory that did not have the write. -/
structure Sending (y : Sys) (a : CacheMaster) (old : Memory) (k : Nat) : Prop where
  pend : y.pend = some a
  wr : a.cmd = .wr
  state : y.bridge.state = .write
  burstCnt : y.bridge.burstCnt = k
  lt : k < burstLength
  cmdPos : y.bridge.cmdPos = pos burstLength a.addr
  addr : y.bridge.masterReg.addr = a.addr
  data : y.bridge.masterReg.data = a.data
  byteEn : y.bridge.masterReg.byteEn = a.byteEn
  mem : y.slave.mem = if pos burstLength a.addr < k then y.spec else old
  spec : y.spec = old.write (a.addr / 4) a.byteEn a.data

/-- A write is shown for the first time. -/
structure WriteAsk (y : Sys) (a : CacheMaster) (old : Memory) : Prop
    extends Sending burstLength y a old 0 where
  cmd : y.bridge.masterReg.cmd = .wr
  phase : y.slave.phase = .idle

/-- A write was accepted. -/
structure Writing (y : Sys) (a : CacheMaster) (old : Memory) (k : Nat) : Prop
    extends Sending burstLength y a old k where
  cmd : y.bridge.masterReg.cmd = .idle
  phase : y.slave.phase = .write (base burstLength a.addr) k

/-- All words are written, and the memory has to respond. -/
structure WriteDone (y : Sys) (a : CacheMaster) : Prop where
  pend : y.pend = some a
  wr : a.cmd = .wr
  state : y.bridge.state = .idle
  burstCnt : y.bridge.burstCnt = 0
  cmd : y.bridge.masterReg.cmd = .idle
  phase : y.slave.phase = .resp
  mem : y.slave.mem = y.spec

structure Idle (y : Sys) : Prop where
  pend : y.pend = none
  state : y.bridge.state = .idle
  burstCnt : y.bridge.burstCnt = 0
  cmd : y.bridge.masterReg.cmd = .idle
  phase : y.slave.phase = .idle
  mem : y.slave.mem = y.spec

inductive Stage (y : Sys) : Prop where
  | idle (h : Idle y)
  | readAsk (a : CacheMaster) (h : ReadAsk burstLength y a)
  | reading (a : CacheMaster) (k : Nat) (h : Reading burstLength y a k)
  | readDone (a : CacheMaster) (h : ReadDone y a)
  | writeAsk (a : CacheMaster) (old : Memory) (h : WriteAsk burstLength y a old)
  | writing (a : CacheMaster) (old : Memory) (k : Nat) (h : Writing burstLength y a old k)
  | writeDone (a : CacheMaster) (h : WriteDone y a)

end Stages

section Steps

variable {burstLength b : Nat} {y y' : Sys} {c : Cycle} {a : CacheMaster} {old : Memory} {k : Nat}

variable (hb : 1 ≤ b) (hB : burstLength = 2 ^ b)

theorem base_add_eq {addr : Nat} :
    base burstLength addr + k = addr / 4 ↔ k = pos burstLength addr := by
  have hsum : base burstLength addr + pos burstLength addr = addr / 4 := Nat.div_add_mod' _ _
  omega

include hb hB in
theorem two_le : 2 ≤ burstLength :=
  hB ▸ Nat.le_self_pow (Nat.ne_of_gt hb) 2

include hb hB in
/-- What the slave makes of the address that it is shown. -/
theorem toSlave_addr (s : State) :
    (toSlave burstLength s).addr / 4 = base burstLength s.masterReg.addr :=
  MemBlock.burstAddr_eq hb hB _

include hb hB in
theorem pos_lt (addr : Nat) : pos burstLength addr < burstLength :=
  Nat.mod_lt _ (Nat.lt_of_lt_of_le Nat.two_pos (two_le hb hB))

/-! #### The start of an access -/

/-- The bridge is free to take a command, and the memory is done. -/
structure Ready (burstLength : Nat) (y y' : Sys) (c : Cycle) : Prop where
  succ : y' = y.next burstLength c
  state : y.bridge.state = .idle ∨ y.bridge.state = .readResp
  burstCnt : y.bridge.burstCnt = 0
  cmd : y.bridge.masterReg.cmd = .idle
  phase : y'.slave.phase = .idle
  mem : y'.slave.mem = y.spec
  pend : y.pend = none ∨ (y.answer burstLength c).resp ≠ .null

theorem Ready.next_bridge (h : Ready burstLength y y' c) :
    y'.bridge.burstCnt = 0 ∧
      y'.bridge.masterReg = c.master ∧
      (c.master.cmd = .idle → y'.bridge.state = .idle) := by
  rcases h.state with hs | hs <;>
    simp +contextual [h.succ, next, OcpBurstBridge.next, counts, stateNext, hs, h.burstCnt, h.cmd]

theorem Ready.step_of_noCmd (h : Ready burstLength y y' c) (hcmd : c.master.cmd = .idle) :
    Idle y' := by
  obtain ⟨hcnt, hreg, hstate⟩ := h.next_bridge
  refine ⟨?_, hstate hcmd, hcnt, by rw [hreg, hcmd], h.phase, ?_⟩
  · rcases h.pend with hnone | hresp
    · simp [h.succ, next, hcmd, hnone]
    · simp [h.succ, next, hcmd, hresp]
  · rw [h.mem]
    simp [h.succ, next, hcmd]

include hb hB in
theorem Ready.cmdPos (h : Ready burstLength y y' c) (hcmd : c.master.cmd ≠ .idle) :
    y'.bridge.cmdPos = pos burstLength c.master.addr := by
  simp [h.succ, next, OcpBurstBridge.next, hcmd, MemBlock.pow_log2Up hb hB, pos]

include hb hB in
theorem Ready.step_of_rd (h : Ready burstLength y y' c) (hcmd : c.master.cmd = .rd) :
    ReadAsk burstLength y' c.master := by
  have hne : c.master.cmd ≠ .idle := by simp [hcmd]
  obtain ⟨hcnt, hreg, -⟩ := h.next_bridge
  refine ⟨?_, hcmd, ?_, hcnt, h.cmdPos hb hB hne, hreg, h.phase, ?_⟩
  · simp [h.succ, next, hcmd]
  · simp [h.succ, next, OcpBurstBridge.next, hcmd]
  · rw [h.mem]
    simp [h.succ, next, hcmd]

include hb hB in
theorem Ready.step_of_wr (h : Ready burstLength y y' c) (hcmd : c.master.cmd = .wr) :
    WriteAsk burstLength y' c.master y.spec := by
  have hne : c.master.cmd ≠ .idle := by simp [hcmd]
  have hpos : 0 < burstLength := Nat.lt_of_lt_of_le Nat.two_pos (two_le hb hB)
  obtain ⟨hcnt, hreg, -⟩ := h.next_bridge
  refine ⟨⟨?_, hcmd, ?_, hcnt, hpos, h.cmdPos hb hB hne, ?_, ?_, ?_, h.mem, ?_⟩, ?_, h.phase⟩
  · simp [h.succ, next, hcmd]
  · simp [h.succ, next, OcpBurstBridge.next, hcmd]
  · rw [hreg]
  · rw [hreg]
  · rw [hreg]
  · simp [h.succ, next, hcmd]
  · rw [hreg, hcmd]

include hb hB in
theorem Ready.step (h : Ready burstLength y y' c) : Stage burstLength y' := by
  cases hcmd : c.master.cmd with
  | idle => exact .idle (h.step_of_noCmd hcmd)
  | rd => exact .readAsk _ (h.step_of_rd hb hB hcmd)
  | wr => exact .writeAsk _ _ (h.step_of_wr hb hB hcmd)

theorem Idle.ready (h : Idle y) : Ready burstLength y (y.next burstLength c) c := by
  have hslave : (y.next burstLength c).slave = y.slave := Slave.next_of_noCmd h.phase h.cmd
  exact ⟨rfl, Or.inl h.state, h.burstCnt, h.cmd, by rw [hslave, h.phase], by rw [hslave, h.mem],
    Or.inl h.pend⟩

theorem Idle.answer_null (h : Idle y) : (y.answer burstLength c).resp = .null := by
  simp [answer, toMaster, h.state, slaveS, Slave.out, h.phase]

theorem ReadDone.answer_eq (h : ReadDone y a) : y.answer burstLength c = y.bridge.slaveReg := by
  simp [answer, toMaster, h.state]

theorem ReadDone.ready (h : ReadDone y a) : Ready burstLength y (y.next burstLength c) c := by
  have hslave : (y.next burstLength c).slave = y.slave := Slave.next_of_noCmd h.phase h.cmd
  refine ⟨rfl, Or.inr h.state, h.burstCnt, h.cmd, by rw [hslave, h.phase], by rw [hslave, h.mem],
    Or.inr ?_⟩
  rw [h.answer_eq]
  exact h.kept.resp

theorem WriteDone.answer_resp (h : WriteDone y a) :
    (y.answer burstLength c).resp = Slave.respOf c.mem := by
  simp [answer, toMaster, h.state, slaveS, Slave.out, h.phase]

theorem WriteDone.ready (h : WriteDone y a) (hgo : c.mem.go = true) :
    Ready burstLength y (y.next burstLength c) c := by
  have hslave : (y.next burstLength c).slave = ⟨.idle, y.slave.mem⟩ :=
    Slave.next_of_resp h.phase hgo
  refine ⟨rfl, Or.inl h.state, h.burstCnt, h.cmd, by rw [hslave], by rw [hslave, h.mem], Or.inr ?_⟩
  rw [h.answer_resp]
  exact Slave.respOf_ne_null hgo

/-! #### Waiting for the answer -/

/-- A cycle that leads to `y'` without an answer: the slave shows `m`, the master is silent and
    the ledger stays. -/
structure Silent (burstLength : Nat) (y y' : Sys) (c : Cycle) (m : BurstSlave) : Prop where
  bridge : y'.bridge = OcpBurstBridge.next burstLength y.bridge c.master m
  slave : y'.slave = y.slave.next burstLength (toSlave burstLength y.bridge) c.mem
  out : y.slave.out (toSlave burstLength y.bridge) c.mem = m
  cmd : c.master.cmd = .idle
  pend : y'.pend = y.pend
  spec : y'.spec = y.spec

variable {m : BurstSlave} (hs : Silent burstLength y y' c m)

theorem Legal.silent (h : y.Legal burstLength c) (hpend : y.pend = some a)
    (hnull : (y.answer burstLength c).resp = .null) :
    Silent burstLength y (y.next burstLength c) c (y.slaveS burstLength c) := by
  have hcmd : c.master.cmd = .idle := h (by simp [hpend]) hnull
  exact ⟨rfl, rfl, rfl, hcmd, by simp [next, hcmd, hnull], by simp [next, hcmd]⟩

theorem answer_of_read (hstate : y.bridge.state = .read) :
    (y.answer burstLength c).resp = .null := by
  simp [answer, toMaster, hstate]

include hs

theorem Silent.cmdPos : y'.bridge.cmdPos = y.bridge.cmdPos := by
  simp [hs.bridge, OcpBurstBridge.next, hs.cmd]

theorem Silent.state : y'.bridge.state = stateNext burstLength y.bridge m := by
  simp [hs.bridge, OcpBurstBridge.next, hs.cmd]

/-! #### Reads -/

theorem ReadAsk.resp (h : ReadAsk burstLength y a) :
    m.resp = .null := by
  simp [← hs.out, Slave.out, h.phase]

theorem ReadAsk.wait (h : ReadAsk burstLength y a) (hacc : c.mem.accept = false) :
    ReadAsk burstLength y' a := by
  have hslave : y'.slave = y.slave := hs.slave.trans (Slave.next_of_wait h.phase hacc)
  refine ⟨hs.pend.trans h.pend, h.rd, ?_, ?_, hs.cmdPos.trans h.cmdPos, ?_, ?_, ?_⟩
  · simp [hs.state, stateNext, h.state, h.resp hs]
  · simp [hs.bridge, OcpBurstBridge.next, counts, h.state, h.resp hs, h.burstCnt]
  · have hheld : m.cmdAccept = false := by
      simp [← hs.out, Slave.out, h.phase, hacc]
    simp [hs.bridge, OcpBurstBridge.next, h.state, h.masterReg, h.rd, hheld]
  · rw [hslave, h.phase]
  · rw [hslave, hs.spec, h.mem]

include hb hB in
theorem ReadAsk.accept (h : ReadAsk burstLength y a) (hacc : c.mem.accept = true) :
    Reading burstLength y' a 0 := by
  have hcmd : (toSlave burstLength y.bridge).cmd = .rd := by
    rw [toSlave, h.masterReg, h.rd]
  have hslave : y'.slave = ⟨.read (base burstLength a.addr) 0, y.slave.mem⟩ := by
    rw [hs.slave, Slave.next_of_rd h.phase hacc hcmd, toSlave_addr hb hB, h.masterReg]
  refine ⟨hs.pend.trans h.pend, h.rd, ?_, ?_, ?_, hs.cmdPos.trans h.cmdPos, ?_, ?_, ?_, ?_⟩
  · simp [hs.state, stateNext, h.state, h.resp hs]
  · simp [hs.bridge, OcpBurstBridge.next, counts, h.state, h.resp hs, h.burstCnt]
  · exact Nat.lt_of_lt_of_le Nat.two_pos (two_le hb hB)
  · have htaken : m.cmdAccept = true := by
      simp [← hs.out, Slave.out, h.phase, hacc]
    simp [hs.bridge, OcpBurstBridge.next, h.state, htaken, hs.cmd]
  · rw [hslave]
  · rw [hslave, hs.spec, h.mem]
  · exact fun hlt => absurd hlt (Nat.not_lt_zero _)

theorem Reading.resp (h : Reading burstLength y a k) :
    m.resp = Slave.respOf c.mem := by
  simp [← hs.out, Slave.out, h.phase]

theorem Kept.step (h : Kept y a)
    (hreg : y'.bridge.slaveReg = y.bridge.slaveReg) :
    Kept y' a := by
  constructor
  · rw [hreg]
    exact h.resp
  · rw [hreg, hs.spec]
    exact h.data

theorem Reading.wait (h : Reading burstLength y a k) (hgo : c.mem.go = false) :
    Reading burstLength y' a k := by
  have hnull : m.resp = .null := by
    rw [h.resp hs, Slave.respOf, hgo]
    rfl
  have hslave : y'.slave = y.slave := hs.slave.trans (Slave.next_of_read_wait h.phase hgo)
  have hreg : y'.bridge.slaveReg = y.bridge.slaveReg := by
    simp [hs.bridge, OcpBurstBridge.next, hnull]
  refine ⟨hs.pend.trans h.pend, h.rd, ?_, ?_, h.lt, hs.cmdPos.trans h.cmdPos, ?_, ?_, ?_, ?_⟩
  · simp [hs.state, stateNext, h.state, hnull]
  · simp [hs.bridge, OcpBurstBridge.next, counts, h.state, hnull, h.burstCnt]
  · simp [hs.bridge, OcpBurstBridge.next, h.state, h.cmd, hs.cmd]
  · rw [hslave, h.phase]
  · rw [hslave, hs.spec, h.mem]
  · exact fun hlt => (h.kept hlt).step hs hreg

/-- The word at the position of the address is kept when it comes, and after that. -/
theorem Reading.keep (h : Reading burstLength y a k) (hgo : c.mem.go = true)
    (hpos : pos burstLength a.addr < k + 1) : Kept y' a := by
  have hresp : m.resp ≠ .null := h.resp hs ▸ Slave.respOf_ne_null hgo
  by_cases hk : k = pos burstLength a.addr
  · have hreg : y'.bridge.slaveReg =
        ⟨m.resp, m.data⟩ := by
      simp [hs.bridge, OcpBurstBridge.next, h.state, hresp, h.burstCnt, h.cmdPos, hk]
    constructor
    · rw [hreg]
      exact hresp
    · rw [hreg, hs.spec]
      intro hdva
      have herr : c.mem.err = false := by
        rw [h.resp hs, Slave.respOf, if_pos hgo] at hdva
        by_contra herr
        rw [if_pos (by simpa using herr)] at hdva
        exact OcpResp.noConfusion hdva
      have hword : base burstLength a.addr + k = a.addr / 4 := base_add_eq.mpr hk
      simp [← hs.out, Slave.out, h.phase, hgo, herr, hword, h.mem]
  · have hreg : y'.bridge.slaveReg = y.bridge.slaveReg := by
      simp [hs.bridge, OcpBurstBridge.next, h.burstCnt, h.cmdPos, hk]
    exact (h.kept (by omega)).step hs hreg

include hb hB in
theorem Reading.beat (h : Reading burstLength y a k) (hgo : c.mem.go = true) :
    if k + 1 = burstLength then ReadDone y' a
      else Reading burstLength y' a (k + 1) := by
  have hresp : m.resp ≠ .null := h.resp hs ▸ Slave.respOf_ne_null hgo
  have hslave : y'.slave =
      ⟨if k + 1 = burstLength then .idle else .read (base burstLength a.addr) (k + 1),
        y.slave.mem⟩ := hs.slave.trans (Slave.next_of_read h.phase hgo)
  have hcnt : y'.bridge.burstCnt = (k + 1) % burstLength := by
    simp [hs.bridge, OcpBurstBridge.next, counts, h.state, hresp, h.burstCnt,
      MemBlock.pow_log2Up hb hB]
  have hcmd : y'.bridge.masterReg.cmd = .idle := by
    simp [hs.bridge, OcpBurstBridge.next, h.state, h.cmd, hs.cmd]
  have hmem : y'.slave.mem = y'.spec := by
    rw [hslave, hs.spec, h.mem]
  have hpos := pos_lt hb hB a.addr
  split
  · rename_i hlast
    have hend : k = burstLength - 1 := by omega
    refine ⟨hs.pend.trans h.pend, h.rd, ?_, ?_, hcmd, ?_, hmem, h.keep hs hgo (by omega)⟩
    · rw [hs.state, stateNext, h.state]
      simp [hresp, h.burstCnt, hend]
    · rw [hcnt, hlast, Nat.mod_self]
    · rw [hslave, if_pos hlast]
  · rename_i hmore
    have hlt := h.lt
    have hend : k ≠ burstLength - 1 := by omega
    refine ⟨hs.pend.trans h.pend, h.rd, ?_, ?_, by omega, hs.cmdPos.trans h.cmdPos, hcmd, ?_, hmem,
      h.keep hs hgo⟩
    · rw [hs.state, stateNext, h.state]
      simp [h.burstCnt, hend]
    · rw [hcnt, Nat.mod_eq_of_lt (by omega)]
    · rw [hslave, if_neg hmore]

/-! #### Writes -/

omit hs in
/-- The slave is sent the word of the access at its position, and nothing elsewhere. -/
theorem Sending.write (h : Sending burstLength y a old k) :
    y.slave.mem.write (base burstLength a.addr + k) (toSlave burstLength y.bridge).dataByteEn
        (toSlave burstLength y.bridge).data =
      if pos burstLength a.addr < k + 1 then y.spec else old := by
  rw [h.mem]
  by_cases hk : k = pos burstLength a.addr
  · have hword : base burstLength a.addr + k = a.addr / 4 := base_add_eq.mpr hk
    have hthis : y.bridge.state = .write ∧ y.bridge.burstCnt = y.bridge.cmdPos :=
      ⟨h.state, by rw [h.burstCnt, h.cmdPos, hk]⟩
    rw [toSlave, if_pos hthis, if_pos hthis, h.byteEn, h.data, hword, if_neg (by omega),
      if_pos (by omega), h.spec]
  · have hother : ¬ (y.bridge.state = .write ∧ y.bridge.burstCnt = y.bridge.cmdPos) := by
      rw [h.burstCnt, h.cmdPos]
      exact fun hand => hk hand.2
    have hbe : (toSlave burstLength y.bridge).dataByteEn = noBytes := if_neg hother
    rw [hbe, Memory.write_noBytes]
    by_cases hlt : pos burstLength a.addr < k
    · rw [if_pos hlt, if_pos (by omega)]
    · rw [if_neg hlt, if_neg (by omega)]

include hb hB in
theorem Sending.step (h : Sending burstLength y a old k)
    (hacc : m.dataAccept = true)
    (hslave : y'.slave =
      ⟨if k + 1 = burstLength then .resp else .write (base burstLength a.addr) (k + 1),
        y.slave.mem.write (base burstLength a.addr + k) (toSlave burstLength y.bridge).dataByteEn
          (toSlave burstLength y.bridge).data⟩) :
    if k + 1 = burstLength then WriteDone y' a
      else Writing burstLength y' a old (k + 1) := by
  have hcnt : y'.bridge.burstCnt = (k + 1) % burstLength := by
    simp [hs.bridge, OcpBurstBridge.next, counts, h.state, hacc, h.burstCnt,
      MemBlock.pow_log2Up hb hB]
  have hreg : y'.bridge.masterReg =
      { y.bridge.masterReg with cmd := .idle } := by
    simp [hs.bridge, OcpBurstBridge.next, h.state]
  have hmem : y'.slave.mem =
      if pos burstLength a.addr < k + 1 then y.spec else old := by rw [hslave, h.write]
  have hplace := pos_lt hb hB a.addr
  have hlt := h.lt
  split
  · rename_i hlast
    have hend : k = burstLength - 1 := by omega
    refine ⟨hs.pend.trans h.pend, h.wr, ?_, ?_, by rw [hreg], by rw [hslave, if_pos hlast], ?_⟩
    · rw [hs.state, stateNext, h.state]
      simp [h.burstCnt, hend]
    · rw [hcnt, hlast, Nat.mod_self]
    · rw [hmem, hs.spec, if_pos (by omega)]
  · rename_i hmore
    have hend : k ≠ burstLength - 1 := by omega
    refine ⟨⟨hs.pend.trans h.pend, h.wr, ?_, ?_, by omega, hs.cmdPos.trans h.cmdPos, ?_, ?_, ?_, ?_,
      ?_⟩, by rw [hreg], by rw [hslave, if_neg hmore]⟩
    · rw [hs.state, stateNext, h.state]
      simp [h.burstCnt, hend]
    · rw [hcnt, Nat.mod_eq_of_lt (by omega)]
    · rw [hreg, ← h.addr]
    · rw [hreg, ← h.data]
    · rw [hreg, ← h.byteEn]
    · rw [hmem, hs.spec]
    · rw [hs.spec, h.spec]

omit hs in
theorem Sending.dataValid (h : Sending burstLength y a old k) :
    (toSlave burstLength y.bridge).dataValid = true := by
  simp [toSlave, h.state]

include hb hB in
theorem WriteAsk.step (h : WriteAsk burstLength y a old) (hacc : c.mem.accept = true) :
    Writing burstLength y' a old 1 := by
  have hslave := hs.slave.trans (Slave.next_of_wr h.phase hacc h.cmd h.dataValid)
  rw [toSlave_addr hb hB, h.addr] at hslave
  have hword : m.dataAccept = true := by
    simp [← hs.out, Slave.out, h.phase, hacc]
  have hstep := h.toSending.step hb hB hs hword hslave
  have hmore : 0 + 1 ≠ burstLength := by
    have := two_le hb hB
    omega
  rwa [if_neg hmore] at hstep

include hb hB in
theorem Writing.step (h : Writing burstLength y a old k) :
    if k + 1 = burstLength then WriteDone y' a
      else Writing burstLength y' a old (k + 1) := by
  have hslave := hs.slave.trans (Slave.next_of_write h.phase h.dataValid)
  have hword : m.dataAccept = true := by
    simp [← hs.out, Slave.out, h.phase]
  exact h.toSending.step hb hB hs hword hslave

omit hs in
theorem WriteAsk.answer_null (h : WriteAsk burstLength y a old) :
    (y.answer burstLength c).resp = .null := by
  simp [answer, toMaster, h.state, slaveS, Slave.out, h.phase]

omit hs in
theorem Writing.answer_null (h : Writing burstLength y a old k) :
    (y.answer burstLength c).resp = .null := by
  simp [answer, toMaster, h.state, slaveS, Slave.out, h.phase]

theorem WriteDone.wait (h : WriteDone y a) (hgo : c.mem.go = false) :
    WriteDone y' a := by
  have hslave : y'.slave = y.slave := hs.slave.trans (Slave.next_of_resp_wait h.phase hgo)
  refine ⟨hs.pend.trans h.pend, h.wr, ?_, ?_, ?_, ?_, ?_⟩
  · rw [hs.state, stateNext, h.state]
  · simp [hs.bridge, OcpBurstBridge.next, counts, h.state, h.burstCnt]
  · simp [hs.bridge, OcpBurstBridge.next, h.state, h.cmd, hs.cmd]
  · rw [hslave, h.phase]
  · rw [hslave, hs.spec, h.mem]

/-! #### Every cycle -/

/-- The memory accepts and responds in a cycle. -/
def willing (c : Cycle) : Bool := c.mem.accept && c.mem.go

/-- How many willing cycles the outstanding access needs at most before its answer. -/
def remaining (burstLength : Nat) (y : Sys) : Nat :=
  match y.slave.phase with
  | .idle => if y.bridge.state = .readResp then 0 else burstLength + 1
  | .read _ k => burstLength - k
  | .write _ k => burstLength - k
  | .resp => 0

/-- What a cycle does. -/
structure Step (burstLength : Nat) (y y' : Sys) (c : Cycle) : Prop where
  stage : Stage burstLength y'
  progress : y.pend ≠ none → (y.answer burstLength c).resp = .null →
    remaining burstLength y' + (willing c).toNat ≤ remaining burstLength y

include hb hB in
theorem ReadAsk.advance (h : ReadAsk burstLength y a) : Step burstLength y y' c := by
  have hone := Bool.toNat_le (willing c)
  cases hacc : c.mem.accept with
  | false =>
    have h' := h.wait hs hacc
    refine ⟨.readAsk a h', fun _ _ => ?_⟩
    simp [remaining, h.phase, h.state, h'.phase, h'.state, willing, hacc]
  | true =>
    have h' := h.accept hb hB hs hacc
    refine ⟨.reading a 0 h', fun _ _ => ?_⟩
    simp only [remaining, h.phase, h.state, h'.phase, reduceCtorEq, if_false]
    omega

include hb hB in
theorem Reading.advance (h : Reading burstLength y a k) : Step burstLength y y' c := by
  have hone := Bool.toNat_le (willing c)
  have hlt := h.lt
  cases hgo : c.mem.go with
  | false =>
    have h' := h.wait hs hgo
    refine ⟨.reading a k h', fun _ _ => ?_⟩
    simp [remaining, h.phase, h'.phase, willing, hgo]
  | true =>
    have h' := h.beat hb hB hs hgo
    split at h'
    · refine ⟨.readDone a h', fun _ _ => ?_⟩
      simp only [remaining, h.phase, h'.phase, h'.state, if_true]
      omega
    · refine ⟨.reading a (k + 1) h', fun _ _ => ?_⟩
      simp only [remaining, h.phase, h'.phase]
      omega

include hb hB in
theorem WriteAsk.advance (h : WriteAsk burstLength y a old) (hprompt : y.Prompt c) :
    Step burstLength y y' c := by
  have h' := h.step hb hB hs (hprompt h.state h.cmd)
  refine ⟨.writing a old 1 h', fun _ _ => ?_⟩
  have hone := Bool.toNat_le (willing c)
  simp only [remaining, h.phase, h.state, h'.phase, reduceCtorEq, if_false]
  omega

include hb hB in
theorem Writing.advance (h : Writing burstLength y a old k) : Step burstLength y y' c := by
  have hone := Bool.toNat_le (willing c)
  have hlt := h.lt
  have h' := h.step hb hB hs
  split at h'
  · refine ⟨.writeDone a h', fun _ _ => ?_⟩
    simp only [remaining, h.phase, h'.phase]
    omega
  · refine ⟨.writing a old (k + 1) h', fun _ _ => ?_⟩
    simp only [remaining, h.phase, h'.phase]
    omega

omit hs in
include hb hB in
theorem WriteDone.advance (h : WriteDone y a) (hleg : y.Legal burstLength c) :
    Step burstLength y (y.next burstLength c) c := by
  cases hgo : c.mem.go with
  | false =>
    have hnull : (y.answer burstLength c).resp = .null := by
      rw [h.answer_resp, Slave.respOf, hgo]
      rfl
    have h' := h.wait (hleg.silent h.pend hnull) hgo
    refine ⟨.writeDone a h', fun _ _ => ?_⟩
    simp [remaining, h'.phase, willing, hgo]
  | true =>
    have hready : Ready burstLength y _ c := h.ready hgo
    refine ⟨hready.step hb hB, fun hpend hnull => ?_⟩
    exact hready.pend.elim (fun hnone => absurd hnone hpend) (fun hresp => absurd hnull hresp)

omit hs in
include hb hB in
theorem Stage.step (h : Stage burstLength y) (hleg : y.Legal burstLength c) (hprompt : y.Prompt c) :
    Step burstLength y (y.next burstLength c) c := by
  cases h with
  | idle h => exact ⟨h.ready.step hb hB, fun hpend => absurd h.pend hpend⟩
  | readAsk a h | reading a k h =>
    exact h.advance hb hB (hleg.silent h.pend (answer_of_read h.state))
  | readDone a h =>
    refine ⟨h.ready.step hb hB, fun _ hnull => ?_⟩
    rw [h.answer_eq] at hnull
    exact absurd hnull h.kept.resp
  | writeAsk a old h => exact h.advance hb hB (hleg.silent h.pend h.answer_null) hprompt
  | writing a old k h => exact h.advance hb hB (hleg.silent h.pend h.answer_null)
  | writeDone a h => exact h.advance hb hB hleg

omit hs

theorem observed_of_null (hpend : y.pend ≠ none) (hnull : (y.answer burstLength c).resp = .null) :
    Observed burstLength y c := by
  refine ⟨fun hresp => absurd hnull hresp, ?_, ?_⟩
  · intro _ _ _ hdva
    rw [hnull] at hdva
    exact absurd hdva OcpResp.noConfusion
  · rintro (hnone | hresp)
    · exact absurd hnone hpend
    · exact absurd hnull hresp

theorem Stage.observed (h : Stage burstLength y) (c : Cycle) : Observed burstLength y c := by
  cases h with
  | idle h =>
    refine ⟨fun hresp => absurd h.answer_null hresp, ?_, fun _ => h.mem⟩
    intro a ha
    rw [h.pend] at ha
    cases ha
  | readAsk a h | reading a k h =>
    exact observed_of_null (by simp [h.pend]) (answer_of_read h.state)
  | readDone a h =>
    refine ⟨fun _ => by simp [h.pend], ?_, fun _ => h.mem⟩
    intro a' ha _ hdva
    rw [h.pend] at ha
    cases ha
    rw [h.answer_eq] at hdva ⊢
    exact h.kept.data hdva
  | writeAsk a old h | writing a old k h => exact observed_of_null (by simp [h.pend]) h.answer_null
  | writeDone a h =>
    refine ⟨fun _ => by simp [h.pend], ?_, fun _ => h.mem⟩
    intro a' ha hrd
    rw [h.pend] at ha
    cases ha
    rw [h.wr] at hrd
    exact absurd hrd OcpCmd.noConfusion

theorem stage_init {s : State} (hs : IsReset s) (mem : Memory) :
    Stage burstLength (init s mem) :=
  .idle ⟨rfl, hs.state, hs.burstCnt, hs.masterReg, rfl, rfl⟩

end Steps

/-! ### Every run -/

section Runs

variable {burstLength b : Nat}

/-- An outstanding access is answered before the memory has been willing in
    `burstLength + 2` cycles. -/
def Answered (burstLength : Nat) (y : Sys) (cs : List Cycle) : Prop :=
  ∀ p q, cs = p ++ q → (run (next burstLength) y p).pend ≠ none →
    Along (next burstLength) (fun y c => (y.answer burstLength c).resp = .null)
      (run (next burstLength) y p) q →
    q.countP willing ≤ burstLength + 1

theorem remaining_le (y : Sys) : remaining burstLength y ≤ burstLength + 1 := by
  unfold remaining
  split
  · split <;> omega
  · omega
  · omega
  · omega

theorem pend_of_wait {y : Sys} {c : Cycle} (hleg : y.Legal burstLength c) (hpend : y.pend ≠ none)
    (hnull : (y.answer burstLength c).resp = .null) :
    (y.next burstLength c).pend ≠ none := by
  simpa [next, hleg hpend hnull, hnull] using hpend

/-- **The bridge has single word semantics** in every run in which a write command is accepted
    in its first cycle: reads return the word at their address, writes change the enabled bytes
    of theirs and nothing else, and every access gets one response. -/
theorem observed_of_prompt (hb : 1 ≤ b) (hB : burstLength = 2 ^ b) {s : State} (hs : IsReset s)
    (mem : Memory) {cs : List Cycle}
    (hrun : Along (next burstLength) (fun y c => y.Legal burstLength c ∧ y.Prompt c)
      (init s mem) cs) :
    Along (next burstLength) (Observed burstLength) (init s mem) cs ∧
      Answered burstLength (init s mem) cs := by
  have hkeep : ∀ y c, Stage burstLength y → y.Legal burstLength c ∧ y.Prompt c →
      Stage burstLength (y.next burstLength c) :=
    fun _ _ h hl => (h.step hb hB hl.1 hl.2).stage
  constructor
  · exact (hrun.with_inv hkeep (stage_init hs mem)).mono fun _ c h => h.1.observed c
  · rintro p q rfl hpend hnull
    refine countP_le_of_waits (W := fun y => y.pend ≠ none) (remaining burstLength) willing
      (fun _ _ => remaining_le _) hkeep ?_ (stage_init hs mem) hrun hpend hnull
    intro y c h hpend hl hnull
    exact ⟨pend_of_wait hl.1 hpend hnull, (h.step hb hB hl.1 hl.2).progress hpend hnull⟩

end Runs

/-! ### Two runs -/

/-- The registers after reset, with zeros where nothing is reset. -/
def powerUp : State := ⟨.idle, 0, 0, nothing, ⟨.null, fun _ => 0⟩⟩

theorem isReset_powerUp : IsReset powerUp := ⟨rfl, rfl, rfl⟩

def cycle (cmd : OcpCmd) (accept : Bool) : Cycle :=
  ⟨⟨cmd, 4, fun _ => 9, allBytes⟩, ⟨accept, true, false, fun _ => 0⟩⟩

/-- A write of word 1 and a read of it, with a burst of two words. -/
def writeRead : List Cycle :=
  [cycle .wr true, cycle .idle true, cycle .idle true, cycle .rd true] ++
    List.replicate 4 (cycle .idle true)

theorem writeRead_observed :
    ((run (next 2) (init powerUp numbered) writeRead.dropLast).answer 2 (cycle .idle true)).resp =
        .dva ∧
      Along (next 2) (Observed 2) (init powerUp numbered) writeRead ∧
      Answered 2 (init powerUp numbered) writeRead :=
  ⟨by decide +kernel, observed_of_prompt (b := 1) le_rfl rfl isReset_powerUp numbered
    (by decide +kernel)⟩

/-- A write of word 1 that is accepted one cycle late. -/
def lateWrite : List Cycle :=
  [cycle .wr true, cycle .idle false] ++ List.replicate 8 (cycle .idle true)

/-- The write command is withdrawn before it is accepted: the word is not written, and the
    master waits for an answer although the memory accepts and responds in every cycle. -/
theorem lateWrite_lost :
    Along (next 2) (Legal 2) (init powerUp numbered) lateWrite ∧
      (run (next 2) (init powerUp numbered) lateWrite).slave.mem 1 0 = 1 ∧
      (run (next 2) (init powerUp numbered) lateWrite).spec 1 0 = 9 ∧
      ¬ Answered 2 (init powerUp numbered) lateWrite := by
  refine ⟨by decide +kernel, by decide +kernel, by decide +kernel, fun h => ?_⟩
  have hbound := h [cycle .wr true] (cycle .idle false :: List.replicate 8 (cycle .idle true)) rfl
    (by decide +kernel) (by decide +kernel)
  exact absurd hbound (by decide +kernel)

end Sys

end Patmos.OcpBurstBridge
