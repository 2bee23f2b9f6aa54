import Patmos.DataCache
import Patmos.DirectMappedLines

/-!
# The data cache unit between the pipeline and the memory

The unit runs with a burst memory behind it.  What the pipeline may rely on is a memory
that takes each store when its response arrives; `Spec` follows it at the master port,
together with the access that is outstanding.

The invariant has one case for each access.  The slave memory is that memory, up to the
word of a store that is on its way, and all valid lines of the cache are coherent with
it, up to the line of a load that is being fetched.
-/

namespace Patmos.DataCache

open Clocked Ocp
open DirectMappedCache (lineIndex tagCount tagOf wordIndex missIndex missIndexBits lineBase
  written Coherent)

/-! ### What the pipeline sees -/

/-- The outstanding access; a load knows whether it goes through the cache. -/
inductive Txn where
  | none
  | load (a : Nat) (cached : Bool)
  | store (a : Nat) (be : ByteEn) (w : Word)
deriving DecidableEq

/-- All completed stores are in `mem`. -/
structure Spec where
  mem : Memory
  txn : Txn

namespace Spec

def finish (p : Spec) (r : OcpResp) : Spec :=
  if r = .null then p
  else match p.txn with
    | .none => p
    | .load _ _ => { p with txn := .none }
    | .store a be w => ⟨p.mem.write a be w, .none⟩

def issue (p : Spec) (i : Inputs) : Spec :=
  match i.master.cmd with
  | .idle => p
  | .rd => { p with txn := .load (i.master.addr / 4) (selDC i) }
  | .wr => { p with txn := .store (i.master.addr / 4) i.master.byteEn i.master.data }

def next (p : Spec) (i : Inputs) (r : OcpResp) : Spec :=
  let p1 := p.finish r
  if p1.txn = .none then p1.issue i else p1

end Spec

/-- `erred` says that a beat of the fill in progress, or of the one just finished, was an
    error. -/
structure Sys where
  core : State
  slave : Slave
  spec : Spec
  erred : Bool

structure SysInputs where
  cpu : Inputs
  choice : Choice

namespace Sys

section Step

variable (c : Config) (y : Sys) (i : SysInputs)

def fromSlave : BurstSlave := y.slave.out (toSlave c y.core i.cpu) i.choice

/-- The response and the data that the pipeline sees. -/
def respOut : OcpResp := resp c y.core i.cpu (fromSlave c y i)

def dataOut : Word := data c y.core i.cpu

def next : Sys where
  core := DataCache.next c y.core i.cpu (fromSlave c y i)
  slave := y.slave.next c.burstLength (toSlave c y.core i.cpu) i.choice
  spec := y.spec.next i.cpu (respOut c y i)
  erred := y.core.dm.stateReg == .fill &&
    (y.erred || (dmS y.core (fromSlave c y i)).resp == .err)

/-- One access at a time, none of them to the stack cache, and a memory that reports
    errors on the beats of reads only.  A command may come together with the response to
    the last one. -/
structure Legal : Prop where
  noErr : y.slave.phase = .resp → i.choice.err = false
  space : i.cpu.master.cmd ≠ .idle → i.cpu.addrSpace ≠ .stackCache
  op : i.cpu.op = .none
  busy : (y.spec.finish (respOut c y i)).txn ≠ .none → i.cpu.master.cmd = .idle

end Step

/-- What the pipeline observes in a cycle, and the valid bit after a fill. -/
structure Observed (c : Config) (y : Sys) (i : SysInputs) : Prop where
  load : ∀ a cached, y.spec.txn = .load a cached → respOut c y i = .dva →
    dataOut c y i = y.spec.mem a
  spurious : y.spec.txn = .none → respOut c y i = .null
  invalid : y.core.dm.stateReg = .respond → y.erred = true →
    y.core.dm.tagVMem (lineIndex c.dcacheSize c.burstLength
      y.core.dm.masterReg.addr) = false

/-! ### The invariant -/

/-- The stack cache is not used. -/
structure ScQuiet (s : StackCache.State) : Prop where
  state : s.stateReg = .idleState
  resp : s.responseToCPUReg = .null

structure DmQuiet (s : DirectMappedCache.State) : Prop where
  state : s.stateReg = .idle
  cnt : s.burstCntReg = 0
  cmd : s.masterReg.cmd ≠ .rd

structure BpQuiet (s : NullCache.State) : Prop where
  state : s.stateReg = .idle
  cnt : s.burstCntReg = 0
  cmd : s.masterReg.cmd ≠ .rd

structure WcQuiet (s : WriteNoBuffer.State) : Prop where
  state : s.state = .idle
  cnt : s.cntReg = 0

/-- The word that was asked for has arrived. -/
structure Caught (r : CoreSlave) (w : Word) : Prop where
  resp : r.resp ≠ .null
  data : r.resp = .dva → r.data = w

/-- The entry of the cache that the load in `masterReg` uses. -/
def entry (c : Config) (y : Sys) : Nat :=
  lineIndex c.dcacheSize c.burstLength y.core.dm.masterReg.addr

/-- The lookups that the direct-mapped cache was built for.  A load hits only in a line that
    the cache has.  A load that misses claims no other line, as it would with a single line
    and an index that is not zero, and its position fits into `missIndexReg`. -/
structure Served (c : Config) (y : Sys) (i : SysInputs) : Prop where
  hit : DirectMappedCache.hit c.dcacheSize c.burstLength y.core.dm (dmInputs i.cpu) = true →
    entry c y < tagCount c.dcacheSize c.burstLength
  miss : DirectMappedCache.miss c.dcacheSize c.burstLength y.core.dm (dmInputs i.cpu) = true →
    MemBlock.truncateIndex (tagCount c.dcacheSize c.burstLength) (entry c y) = entry c y ∧
      missIndex c.burstLength y.core.dm.masterReg.addr < 2 ^ missIndexBits c.burstLength

/-- The index of the load is that of a line of the cache. -/
def Inside (c : Config) (y : Sys) : Prop := entry c y < tagCount c.dcacheSize c.burstLength

/-- The stages of a load through the cache, at the address in `masterReg`. -/
inductive DmStage (c : Config) (y : Sys) (a : Nat) : Prop where
  | lookup (state : y.core.dm.stateReg = .idle)
      (cnt : y.core.dm.burstCntReg = 0) (cmd : y.core.dm.masterReg.cmd = .rd)
      (tagRdAddr : y.core.dm.tagRdAddrReg = entry c y)
      (rdAddr : y.core.dm.rdAddrReg = wordIndex c.dcacheSize y.core.dm.masterReg.addr)
      (line : Inside c y → y.core.dm.tagV = true → ∀ p < c.burstLength,
        y.core.dm.mem (entry c y * c.burstLength + p) =
          y.spec.mem (lineBase c.dcacheSize c.burstLength (y.core.dm.tagMem (entry c y))
            (entry c y) + p))
      (coherent : Coherent c.dcacheSize c.burstLength y.core.dm y.spec.mem none)
      (phase : y.slave.phase = .idle)
  | hold (state : y.core.dm.stateReg = .hold) (cnt : y.core.dm.burstCntReg = 0)
      (cmd : y.core.dm.masterReg.cmd = .idle)
      (index : y.core.dm.missIndexReg = a % c.burstLength)
      (tag : Inside c y →
        y.core.dm.tagMem (entry c y) = tagOf c.dcacheSize y.core.dm.masterReg.addr)
      (coherent : Coherent c.dcacheSize c.burstLength y.core.dm y.spec.mem (some (entry c y)))
      (phase : y.slave.phase = .idle)
  | fill (k : Nat) (state : y.core.dm.stateReg = .fill) (cnt : y.core.dm.burstCntReg = k)
      (lt : k < c.burstLength) (cmd : y.core.dm.masterReg.cmd = .idle)
      (index : y.core.dm.missIndexReg = a % c.burstLength)
      (tag : Inside c y →
        y.core.dm.tagMem (entry c y) = tagOf c.dcacheSize y.core.dm.masterReg.addr)
      (coherent : Coherent c.dcacheSize c.burstLength y.core.dm y.spec.mem (some (entry c y)))
      (phase : y.slave.phase = .read (a / c.burstLength * c.burstLength) k)
      (left : y.core.join1 = false) (right : y.core.join2 = true)
      (filled : Inside c y → y.core.dm.tagVMem (entry c y) = true → ∀ i, ∀ p < k,
        written c.dcacheSize c.burstLength y.core.dm i (entry c y * c.burstLength + p) =
          y.spec.mem (a / c.burstLength * c.burstLength + p))
      (caught : a % c.burstLength < k → Caught y.core.dm.slaveReg (y.spec.mem a))
      (invalid : Inside c y → y.erred = true → y.core.dm.tagVMem (entry c y) = false)
  | respond (state : y.core.dm.stateReg = .respond) (cnt : y.core.dm.burstCntReg = 0)
      (cmd : y.core.dm.masterReg.cmd = .idle)
      (coherent : Coherent c.dcacheSize c.burstLength y.core.dm y.spec.mem none)
      (phase : y.slave.phase = .idle) (caught : Caught y.core.dm.slaveReg (y.spec.mem a))
      (invalid : Inside c y → y.erred = true → y.core.dm.tagVMem (entry c y) = false)

structure LoadCached (c : Config) (y : Sys) (a : Nat) : Prop where
  bp : BpQuiet y.core.bp
  wc : WcQuiet y.core.wc
  selDC : y.core.selDCReg = true
  selSC : y.core.selSCReg = false
  mem : y.slave.mem = y.spec.mem
  addr : y.core.dm.masterReg.addr / 4 = a
  stage : DmStage c y a

/-- The stages of a load around the cache. -/
inductive BpStage (c : Config) (y : Sys) (a : Nat) : Prop where
  | request (state : y.core.bp.stateReg = .idle) (cnt : y.core.bp.burstCntReg = 0)
      (cmd : y.core.bp.masterReg.cmd = .rd) (addr : y.core.bp.masterReg.addr / 4 = a)
      (phase : y.slave.phase = .idle)
  | read (k : Nat) (state : y.core.bp.stateReg = .read) (cnt : y.core.bp.burstCntReg = k)
      (lt : k < c.burstLength) (cmd : y.core.bp.masterReg.cmd ≠ .rd)
      (pos : y.core.bp.posReg = a % c.burstLength)
      (phase : y.slave.phase = .read (a / c.burstLength * c.burstLength) k)
      (left : y.core.join1 = true) (right : y.core.join2 = true)
      (caught : a % c.burstLength < k → Caught y.core.bp.slaveReg (y.spec.mem a))
  | respond (state : y.core.bp.stateReg = .readResp) (cnt : y.core.bp.burstCntReg = 0)
      (cmd : y.core.bp.masterReg.cmd ≠ .rd) (phase : y.slave.phase = .idle)
      (caught : Caught y.core.bp.slaveReg (y.spec.mem a))

structure LoadUncached (c : Config) (y : Sys) (a : Nat) : Prop where
  dm : DmQuiet y.core.dm
  coherent : Coherent c.dcacheSize c.burstLength y.core.dm y.spec.mem none
  wc : WcQuiet y.core.wc
  selDC : y.core.selDCReg = false
  selSC : y.core.selSCReg = false
  mem : y.slave.mem = y.spec.mem
  stage : BpStage c y a

/-- The stages of a store on its way to the memory. -/
inductive WcStage (c : Config) (y : Sys) (a : Nat) (be : ByteEn) (w : Word) : Prop where
  | write (k : Nat) (state : y.core.wc.state = .write) (cnt : y.core.wc.cntReg = k)
      (lt : k < c.burstLength) (addr : y.core.wc.writeMasterReg.addr / 4 = a)
      (byteEn : y.core.wc.writeMasterReg.byteEn = be) (data : y.core.wc.writeMasterReg.data = w)
      (phase : y.slave.phase =
        if k = 0 then .idle else .write (a / c.burstLength * c.burstLength) k)
      (mem : y.slave.mem =
        if a % c.burstLength < k then y.spec.mem.write a be w else y.spec.mem)
  | resp (state : y.core.wc.state = .writeResp) (cnt : y.core.wc.cntReg = 0)
      (phase : y.slave.phase = .resp) (mem : y.slave.mem = y.spec.mem.write a be w)

structure Storing (c : Config) (y : Sys) (a : Nat) (be : ByteEn) (w : Word) : Prop where
  dm : DmQuiet y.core.dm
  coherent : Coherent c.dcacheSize c.burstLength y.core.dm
    (y.spec.mem.write a be w) none
  bp : BpQuiet y.core.bp
  stage : WcStage c y a be w

structure Waiting (c : Config) (y : Sys) : Prop where
  dm : DmQuiet y.core.dm
  coherent : Coherent c.dcacheSize c.burstLength y.core.dm y.spec.mem none
  bp : BpQuiet y.core.bp
  wc : WcQuiet y.core.wc
  phase : y.slave.phase = .idle
  mem : y.slave.mem = y.spec.mem

def Inv (c : Config) (y : Sys) : Prop :=
  ScQuiet y.core.sc ∧
    match y.spec.txn with
    | .none => Waiting c y
    | .load a true => LoadCached c y a
    | .load a false => LoadUncached c y a
    | .store a be w => Storing c y a be w

end Sys

end Patmos.DataCache
