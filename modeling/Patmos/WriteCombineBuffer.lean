import Patmos.Clocked
import Patmos.MemBlock

/-!
# The write-combine buffer

`WriteCombineBuffer` holds one line of pending writes: a tag, the data and the byte
enables of each word.  Writes from `writeMaster` to that line are combined, a write to
another line sends the old line to the slave as a burst.  Reads and burst writes of
`readMaster` pass through; the beats of a read are patched with pending bytes, and a burst
write also goes into the buffer, one cycle late.

`burstLength` is the parameter of the ports.  Addresses are byte addresses.
-/

namespace Patmos.WriteCombineBuffer

open Ocp

inductive Fsm where
  | idle
  | read
  | write
  | writeResp
  | writeComb
  | writeSnoop
deriving DecidableEq, Repr

structure State where
  state : Fsm
  cntReg : Nat
  writeMasterReg : CacheMaster
  readMasterReg : BurstMaster
  tagReg : Nat
  dataBuffer : Nat → Word
  byteEnBuffer : Nat → ByteEn
  hitReg : Bool
  dataAcceptReg : Bool

/-- The commands of the two masters. -/
structure Inputs where
  writeMaster : CacheMaster
  readMaster : BurstMaster

section Circuit

variable (burstLength : Nat)

/-- The bits of an address above `burstAddrBits + byteAddrBits`. -/
def tagOf (addr : Nat) : Nat := addr / 2 ^ (MemBlock.log2Up burstLength + 2)

/-- Bits `burstAddrBits + byteAddrBits - 1` to `byteAddrBits` of an address. -/
def posOf (addr : Nat) : Nat := addr / 4 % 2 ^ MemBlock.log2Up burstLength

def cntInc (s : State) : Nat := (s.cntReg + 1) % 2 ^ MemBlock.log2Up burstLength

def wrPos (s : State) : Nat := posOf burstLength s.writeMasterReg.addr

/-- `io.slave.M`.  The block that starts a read comes last and overrides a burst in progress. -/
def toSlave (s : State) (i : Inputs) : BurstMaster :=
  if s.state = .write ∧ i.readMaster.cmd ≠ .rd then
    { cmd := if s.cntReg = 0 then .wr else i.readMaster.cmd
      addr := if s.cntReg = 0 then s.tagReg * 2 ^ (MemBlock.log2Up burstLength + 2)
        else i.readMaster.addr
      data := s.dataBuffer s.cntReg
      dataValid := true
      dataByteEn := s.byteEnBuffer s.cntReg }
  else i.readMaster

/-- `io.readMaster.S`. -/
def toReadMaster (s : State) (m : BurstSlave) : BurstSlave :=
  { resp := if s.state = .write ∨ s.state = .writeResp then .null else m.resp
    data := if s.state = .read ∧ s.hitReg = true then
        merge (s.byteEnBuffer s.cntReg) (s.dataBuffer s.cntReg) m.data
      else m.data
    cmdAccept := m.cmdAccept
    dataAccept := m.dataAccept }

/-- `io.writeMaster.S.Resp`. -/
def toWriteMaster (s : State) (m : BurstSlave) : OcpResp :=
  match s.state with
  | .writeResp => m.resp
  | .writeComb => .dva
  | _ => .null

/-- The word at `pos` with the enabled bytes of `w` combined into it. -/
def combine (s : State) (pos : Nat) (be : ByteEn) (w : Word) : State :=
  { s with
    dataBuffer := Function.update s.dataBuffer pos (merge be w (s.dataBuffer pos))
    byteEnBuffer := Function.update s.byteEnBuffer pos (fun l => s.byteEnBuffer pos l || be l) }

/-- One word of the old line has been sent. -/
def evictWord (s : State) : State :=
  { s with
    tagReg := tagOf burstLength s.writeMasterReg.addr
    dataBuffer := if s.cntReg = wrPos burstLength s then
        Function.update s.dataBuffer s.cntReg s.writeMasterReg.data
      else s.dataBuffer
    byteEnBuffer := Function.update s.byteEnBuffer s.cntReg
      (if s.cntReg = wrPos burstLength s then s.writeMasterReg.byteEn else noBytes)
    cntReg := cntInc burstLength s }

/-- The word of a snooped burst that was accepted in the last cycle. -/
def snoopWord (s : State) : State :=
  if s.hitReg then combine s s.cntReg s.readMasterReg.dataByteEn s.readMasterReg.data else s

/-- The blocks for the current state. -/
def advance (s : State) (m : BurstSlave) : State :=
  match s.state with
  | .idle => s
  | .read =>
    if m.resp ≠ .null then
      { s with
        state := if s.cntReg = burstLength - 1 then .idle else .read
        cntReg := cntInc burstLength s }
    else s
  | .write =>
    { (if m.dataAccept then evictWord burstLength s else s) with
      state := if s.cntReg = burstLength - 1 then .writeResp else .write }
  | .writeResp => if m.resp ≠ .null then { s with state := .idle } else s
  | .writeComb =>
    { combine s (wrPos burstLength s) s.writeMasterReg.byteEn s.writeMasterReg.data with
      state := .idle }
  | .writeSnoop =>
    { (if s.dataAcceptReg then { snoopWord s with cntReg := cntInc burstLength s } else s) with
      state := if s.cntReg = burstLength - 1 then .idle else .writeSnoop }

/-- The blocks that start a transaction come last and override the state.  They compare
    with the tag before the clock edge, `tag`. -/
def start (tag : Nat) (s : State) (i : Inputs) : State :=
  let s1 :=
    if i.readMaster.cmd = .rd then
      { s with state := .read, hitReg := tag == tagOf burstLength i.readMaster.addr }
    else s
  let s2 :=
    if i.writeMaster.cmd = .wr then
      { s1 with
        writeMasterReg := i.writeMaster
        state := if tag = tagOf burstLength i.writeMaster.addr then .writeComb else .write }
    else s1
  if i.readMaster.cmd = .wr then
    { s2 with state := .writeSnoop, hitReg := tag == tagOf burstLength i.readMaster.addr }
  else s2

def next (s : State) (i : Inputs) (m : BurstSlave) : State :=
  { start burstLength s.tagReg (advance burstLength s m) i with
    readMasterReg := i.readMaster
    dataAcceptReg := m.dataAccept }

end Circuit

/-- Starting a transaction leaves the buffered line alone. -/
theorem start_frame (burstLength tag : Nat) (s : State) (i : Inputs) :
    (start burstLength tag s i).tagReg = s.tagReg ∧
      (start burstLength tag s i).dataBuffer = s.dataBuffer ∧
      (start burstLength tag s i).byteEnBuffer = s.byteEnBuffer := by
  unfold start
  by_cases hw : i.writeMaster.cmd = .wr
  · cases hr : i.readMaster.cmd <;> simp [hw]
  · cases hr : i.readMaster.cmd <;> simp [hw]

/-- The registers with a reset value have it. -/
structure IsReset (s : State) : Prop where
  state : s.state = .idle
  cntReg : s.cntReg = 0
  tagReg : s.tagReg = 0
  byteEnBuffer : s.byteEnBuffer = fun _ => noBytes

end Patmos.WriteCombineBuffer
