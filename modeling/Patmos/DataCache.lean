import Patmos.DirectMappedCache
import Patmos.StackCache

/-!
# The data cache unit

`DataCache` for `DCACHE_SIZE > 0`, direct-mapped, write-through and without write
combining: the direct-mapped cache, the stack cache, the bypass `NullCache` for uncached
loads, the write path `WriteNoBuffer`, and the two joins that bring their bursts to one
port.  The address space of a command selects who sees it, except that the direct-mapped
cache sees every store.
-/

namespace Patmos

open Ocp

/-! ### The bypass -/

namespace NullCache

inductive Fsm where
  | idle
  | read
  | readResp
deriving DecidableEq, Repr

structure State where
  stateReg : Fsm
  burstCntReg : Nat
  posReg : Nat
  masterReg : CacheMaster
  slaveReg : CoreSlave

variable (burstLength : Nat)

/-- `io.slave.M`. -/
def toSlave (s : State) : BurstMaster where
  cmd := if s.masterReg.cmd = .rd then .rd else .idle
  addr := s.masterReg.addr / 2 ^ (MemBlock.log2Up burstLength + 2) *
    2 ^ (MemBlock.log2Up burstLength + 2)
  data := fun _ => 0
  dataValid := false
  dataByteEn := noBytes

/-- `io.master.S`. -/
def toMaster (s : State) : CoreSlave :=
  if s.stateReg = .readResp then s.slaveReg else ⟨.null, fun _ => 0⟩

def next (s : State) (master : CacheMaster) (m : BurstSlave) : State where
  stateReg :=
    if s.masterReg.cmd = .rd ∧ m.cmdAccept = true then .read
    else match s.stateReg with
      | .idle => .idle
      | .read => if m.resp ≠ .null ∧ s.burstCntReg = burstLength - 1 then .readResp else .read
      | .readResp => .idle
  burstCntReg := if s.stateReg = .read ∧ m.resp ≠ .null then
      (s.burstCntReg + 1) % 2 ^ MemBlock.log2Up burstLength
    else s.burstCntReg
  posReg := if s.masterReg.cmd = .rd ∧ m.cmdAccept = true then
      s.masterReg.addr / 4 % 2 ^ MemBlock.log2Up burstLength
    else s.posReg
  masterReg := if s.masterReg.cmd ≠ .rd ∨ m.cmdAccept = true then master else s.masterReg
  slaveReg := if s.stateReg = .read ∧ s.burstCntReg = s.posReg then ⟨m.resp, m.data⟩
    else s.slaveReg

theorem next_of_free {burstLength : Nat} {s : State} {master : CacheMaster} {m : BurstSlave}
    (hst : s.stateReg ≠ .read) (hcmd : s.masterReg.cmd ≠ .rd) :
    next burstLength s master m = { s with stateReg := .idle, masterReg := master } := by
  cases h : s.stateReg with
  | idle | readResp => simp [next, h, hcmd]
  | read => exact absurd h hst

end NullCache

/-! ### The write path -/

namespace WriteNoBuffer

/-- The source has a fourth state, `writeComb`, that is never entered. -/
inductive Fsm where
  | idle
  | write
  | writeResp
deriving DecidableEq, Repr

structure State where
  state : Fsm
  cntReg : Nat
  writeMasterReg : CacheMaster

variable (burstLength : Nat)

def wrPos (s : State) : Nat := s.writeMasterReg.addr / 4 % 2 ^ MemBlock.log2Up burstLength

/-- `io.slave.M`. -/
def toSlave (s : State) (readMaster : BurstMaster) : BurstMaster :=
  if s.state = .write then
    { cmd := if s.cntReg = 0 then .wr else readMaster.cmd
      addr := if s.cntReg = 0 then
          s.writeMasterReg.addr / 2 ^ (MemBlock.log2Up burstLength + 2) *
            2 ^ (MemBlock.log2Up burstLength + 2)
        else readMaster.addr
      data := s.writeMasterReg.data
      dataValid := true
      dataByteEn := if s.cntReg = wrPos burstLength s then s.writeMasterReg.byteEn else noBytes }
  else readMaster

/-- `io.readMaster.S`. -/
def toReadMaster (s : State) (m : BurstSlave) : BurstSlave :=
  { m with resp := if s.state = .write ∨ s.state = .writeResp then .null else m.resp }

/-- `io.writeMaster.S.Resp`. -/
def toWriteMaster (s : State) (m : BurstSlave) : OcpResp :=
  if s.state = .writeResp then m.resp else .null

def next (s : State) (writeMaster : CacheMaster) (m : BurstSlave) : State where
  state :=
    if writeMaster.cmd = .wr then .write
    else match s.state with
      | .idle => .idle
      | .write => if s.cntReg = burstLength - 1 then .writeResp else .write
      | .writeResp => if m.resp ≠ .null then .idle else .writeResp
  cntReg := if s.state = .write ∧ m.dataAccept = true then
      (s.cntReg + 1) % 2 ^ MemBlock.log2Up burstLength
    else s.cntReg
  writeMasterReg := if s.state ≠ .write then writeMaster else s.writeMasterReg

theorem next_of_free {burstLength : Nat} {s : State} {master : CacheMaster} {m : BurstSlave}
    (h : s.state = .idle ∨ s.state = .writeResp ∧ m.resp ≠ .null) :
    next burstLength s master m =
      { state := if master.cmd = .wr then .write else .idle
        cntReg := s.cntReg
        writeMasterReg := master } := by
  rcases h with hst | ⟨hst, hresp⟩
  · simp [next, hst]
  · simp [next, hst, hresp]

end WriteNoBuffer

/-! ### Joins -/

namespace BurstJoin

/-- `OcpBurstJoin` assumes that the two masters do not collide: the source takes the OR of
    the commands, of which one is idle. -/
def joinCmd (left right : BurstMaster) : OcpCmd :=
  if left.cmd = .idle then right.cmd else left.cmd

def selRight (selRightReg : Bool) (left right : BurstMaster) : Bool :=
  if left.cmd ≠ .idle then false else if right.cmd ≠ .idle then true else selRightReg

/-- `joined.M`. -/
def toJoined (selRightReg : Bool) (left right : BurstMaster) : BurstMaster :=
  { (if selRight selRightReg left right then right else left) with cmd := joinCmd left right }

/-- `left.S`. -/
def toLeft (selRightReg : Bool) (m : BurstSlave) : BurstSlave :=
  { m with resp := if selRightReg then .null else m.resp }

/-- `right.S`. -/
def toRight (selRightReg : Bool) (m : BurstSlave) : BurstSlave :=
  { m with resp := if selRightReg then m.resp else .null }

section Requests

variable {reg : Bool} {left right : BurstMaster}

theorem toJoined_of_left (hl : left.cmd ≠ .idle) : toJoined reg left right = left := by
  simp [toJoined, selRight, joinCmd, hl]

theorem toJoined_of_right (hl : left.cmd = .idle) (hr : right.cmd ≠ .idle) :
    toJoined reg left right = right := by
  simp [toJoined, selRight, joinCmd, hl, hr]

theorem toJoined_of_idle (hl : left.cmd = .idle) (hr : right.cmd = .idle) :
    (toJoined reg left right).cmd = .idle := by
  simp [toJoined, joinCmd, hl, hr]

theorem selRight_of_left (hl : left.cmd ≠ .idle) : selRight reg left right = false := by
  simp [selRight, hl]

theorem selRight_of_right (hl : left.cmd = .idle) (hr : right.cmd ≠ .idle) :
    selRight reg left right = true := by
  simp [selRight, hl, hr]

theorem selRight_of_idle (hl : left.cmd = .idle) (hr : right.cmd = .idle) :
    selRight reg left right = reg := by
  simp [selRight, hl, hr]

end Requests

end BurstJoin

/-! ### The unit -/

namespace DataCache

/-- `OcpCache`: the address spaces that the pipeline uses. -/
inductive AddrSpace where
  | stackCache
  | dataCache
  | uncached
deriving DecidableEq, Repr

/-- The sizes of the configuration, in bytes and words. -/
structure Config where
  dcacheSize : Nat
  scacheWords : Nat
  burstLength : Nat

structure State where
  selDCReg : Bool
  selSCReg : Bool
  dm : DirectMappedCache.State
  sc : StackCache.State
  bp : NullCache.State
  join1 : Bool
  join2 : Bool
  wc : WriteNoBuffer.State

/-- The pipeline's memory access, its stack operation, and the values of reads outside the
    memories. -/
structure Inputs where
  master : CacheMaster
  addrSpace : AddrSpace
  invalDCache : Bool
  enaIn : Bool
  op : StackCache.Op
  opData : Nat
  opOff : Nat
  undefTag : Nat
  undefWord : Word

section Circuit

variable (c : Config) (s : State) (i : Inputs) (m : BurstSlave)

def selDC : Bool := i.addrSpace == .dataCache

def selSC : Bool := i.addrSpace == .stackCache

/-- A command as one of the units sees it. -/
def gate (sel : Bool) (master : CacheMaster) : CacheMaster :=
  { master with cmd := if sel then master.cmd else .idle }

@[simp] theorem gate_true (master : CacheMaster) : gate true master = master := rfl

/-- `dm.io.master.M`: every store, whatever its address space. -/
def dmMaster : CacheMaster := gate (selDC i || i.master.cmd == .wr) i.master

def dmInputs : DirectMappedCache.Inputs := ⟨dmMaster i, i.invalDCache, i.undefTag, i.undefWord⟩

def scInputs : StackCache.Inputs :=
  ⟨i.enaIn, i.op, i.opData, i.opOff, if selSC i then i.master.cmd else .idle, i.master.addr,
    i.master.data, i.master.byteEn, i.undefWord⟩

def bpMaster : CacheMaster := gate (!selDC i && !selSC i) i.master

def wcMaster : CacheMaster := gate (!selSC i) i.master

/-- The port between the joins. -/
def bus1 : BurstMaster :=
  BurstJoin.toJoined s.join1
    (DirectMappedCache.toSlave c.dcacheSize c.burstLength s.dm (dmInputs i))
    (NullCache.toSlave c.burstLength s.bp)

def bus2 : BurstMaster :=
  BurstJoin.toJoined s.join2 (StackCache.toMemory c.scacheWords s.sc (scInputs i)) (bus1 c s i)

/-- `io.slave.M`. -/
def toSlave : BurstMaster := WriteNoBuffer.toSlave c.burstLength s.wc (bus2 c s i)

def bus2S : BurstSlave := WriteNoBuffer.toReadMaster s.wc m

def scS : BurstSlave := BurstJoin.toLeft s.join2 (bus2S s m)

def bus1S : BurstSlave := BurstJoin.toRight s.join2 (bus2S s m)

def dmS : BurstSlave := BurstJoin.toLeft s.join1 (bus1S s m)

def bpS : BurstSlave := BurstJoin.toRight s.join1 (bus1S s m)

/-- `io.master.S.Resp`. -/
def resp : OcpResp :=
  ((((DirectMappedCache.toMaster c.dcacheSize c.burstLength s.dm (dmInputs i)).resp.or
    s.sc.responseToCPUReg).or (NullCache.toMaster s.bp).resp).or
    (WriteNoBuffer.toWriteMaster s.wc m))

/-- `io.master.S.Data`. -/
def data : Word :=
  if s.selSCReg then StackCache.mbRdData c.scacheWords s.sc (scInputs i)
  else if s.selDCReg then
    (DirectMappedCache.toMaster c.dcacheSize c.burstLength s.dm (dmInputs i)).data
  else (NullCache.toMaster s.bp).data

def next : State where
  selDCReg := if i.master.cmd ≠ .idle then selDC i else s.selDCReg
  selSCReg := if i.master.cmd ≠ .idle then selSC i else s.selSCReg
  dm := DirectMappedCache.next c.dcacheSize c.burstLength s.dm (dmInputs i) (dmS s m)
  sc := StackCache.next c.scacheWords c.burstLength s.sc (scInputs i) (scS s m)
  bp := NullCache.next c.burstLength s.bp (bpMaster i) (bpS s m)
  join1 := BurstJoin.selRight s.join1
    (DirectMappedCache.toSlave c.dcacheSize c.burstLength s.dm (dmInputs i))
    (NullCache.toSlave c.burstLength s.bp)
  join2 := BurstJoin.selRight s.join2 (StackCache.toMemory c.scacheWords s.sc (scInputs i))
    (bus1 c s i)
  wc := WriteNoBuffer.next c.burstLength s.wc (wcMaster i) m

end Circuit

end DataCache

end Patmos
