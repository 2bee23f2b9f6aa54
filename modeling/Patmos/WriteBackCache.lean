import Patmos.DirectMappedCache

/-!
# The write-back data cache

`DirectMappedCacheWriteBack`: a direct-mapped cache that keeps stores to itself.  A line that
was written is dirty, and goes back to the memory as one burst before another line takes its
place.  A store that misses fetches its line like a load, and is merged into the word on its
way.  The addresses are cut as in `DirectMappedCache`.

For a write-back the data memories are read through the read port of the core, so the word on
the bus was addressed one cycle before: `rdAddrCntReg` runs one step ahead of `burstCntReg`.
-/

namespace Patmos.DirectMappedCacheWriteBack

open Ocp
open DirectMappedCache (Inputs lineBits tagCount missIndexBits lineIndex tagOf wordIndex
  missIndex vecRead vecWrite)

inductive Fsm where
  | idle
  | write
  | writeWaitForResp
  | hold
  | fill
  | respond
deriving DecidableEq, Repr

structure State where
  doingRead : Bool
  coreWrDataReg : Word
  coreByteEnReg : ByteEn
  masterReg : CacheMaster
  stateReg : Fsm
  burstCntReg : Nat
  missIndexReg : Nat
  tagMem : Nat → Nat
  tagRdAddrReg : Nat
  tagVMem : Nat → Bool
  tagV : Bool
  dirtyMem : Nat → Bool
  dirty : Bool
  mem : Nat → Word
  rdAddrReg : Nat
  rdAddrCntReg : Nat
  fillReg : Bool
  wrAddrReg : Nat
  wrDataReg : Word
  slaveReg : CoreSlave
  memWrAddrReg : Nat

section Circuit

variable (size burstLength : Nat)

def tag (s : State) (i : Inputs) : Nat :=
  MemBlock.read (tagCount size burstLength) s.tagMem s.tagRdAddrReg i.undefTag

def tagValid (s : State) (i : Inputs) : Bool :=
  s.tagV && tag size burstLength s i == tagOf size s.masterReg.addr

def hit (s : State) (i : Inputs) : Bool :=
  tagValid size burstLength s i && s.masterReg.cmd != .idle

/-- The condition that starts handling a miss. -/
def miss (s : State) (i : Inputs) : Bool :=
  !tagValid size burstLength s i && s.masterReg.cmd != .idle

def stmsk (s : State) : ByteEn := if s.masterReg.cmd = .wr then s.masterReg.byteEn else noBytes

/-- The data memories after the write port of this cycle. -/
def written (s : State) (i : Inputs) : Nat → Word :=
  MemBlock.writeBytes (size / 4) s.mem
    (fun l => s.fillReg || (tagValid size burstLength s i && stmsk s l)) s.wrAddrReg s.wrDataReg

/-- A store hits. -/
def storeHit (s : State) (i : Inputs) : Bool :=
  tagValid size burstLength s i && decide (stmsk s ≠ noBytes)

/-- A miss for which a dirty line has to go back first. -/
def evict (s : State) (i : Inputs) : Bool := miss size burstLength s i && s.dirty

def selWrBack (s : State) (i : Inputs) : Bool :=
  evict size burstLength s i || s.stateReg == .write

def rdAddr (s : State) (i : Inputs) : Nat :=
  if selWrBack size burstLength s i then
    lineIndex size burstLength s.masterReg.addr * 2 ^ (lineBits burstLength - 2) + s.rdAddrCntReg
  else wordIndex size i.master.addr

def rdData (s : State) (i : Inputs) : Word :=
  MemBlock.read (size / 4) s.mem s.rdAddrReg i.undefWord

/-- `io.master.S`. -/
def toMaster (s : State) (i : Inputs) : CoreSlave :=
  if s.stateReg = .respond then s.slaveReg
  else ⟨if hit size burstLength s i then .dva else .null, rdData size s i⟩

/-- `io.slave.M`. -/
def toSlave (s : State) (i : Inputs) : BurstMaster where
  cmd := if s.stateReg = .hold then .rd
    else if s.stateReg = .write ∧ s.burstCntReg = 0 then .wr
    else if miss size burstLength s i && !s.dirty then .rd else .idle
  addr := if s.stateReg = .write then
      s.memWrAddrReg / 2 ^ lineBits burstLength * 2 ^ lineBits burstLength
    else s.masterReg.addr / 2 ^ lineBits burstLength * 2 ^ lineBits burstLength
  data := if s.stateReg = .write then rdData size s i else fun _ => 0
  dataValid := s.stateReg == .write
  dataByteEn := if s.stateReg = .write then allBytes else noBytes

/-- A word of a write-back is accepted. -/
def sent (s : State) (m : BurstSlave) : Bool := s.stateReg == .write && m.dataAccept

/-- A beat of a fill. -/
def beat (s : State) (m : BurstSlave) : Bool := s.stateReg == .fill && m.resp != .null

def lastBeat (s : State) : Bool := s.burstCntReg == burstLength - 1

/-- Where the answer to a write-back leads. -/
def answered (m : BurstSlave) (otherwise : Fsm) : Fsm :=
  match m.resp with
  | .null => .writeWaitForResp
  | .dva => .hold
  | .err => .respond
  | .fail => otherwise

def nextState (s : State) (i : Inputs) (m : BurstSlave) : Fsm :=
  let requested : Fsm := if m.cmdAccept then .fill else .hold
  let started : Fsm := if miss size burstLength s i then if s.dirty then .write else requested
    else s.stateReg
  match s.stateReg with
  | .idle => started
  | .write => if lastBeat burstLength s then answered m started else started
  | .writeWaitForResp => answered m .writeWaitForResp
  | .hold => requested
  | .fill => if beat s m && lastBeat burstLength s then .respond else started
  | .respond => .idle

/-- The valid bits: a miss sets one, an erroneous beat clears it, and `invalidate` clears
    all. -/
def nextTagVMem (s : State) (i : Inputs) (m : BurstSlave) : Nat → Bool :=
  let j := lineIndex size burstLength s.masterReg.addr
  let v1 := if miss size burstLength s i then vecWrite (tagCount size burstLength) s.tagVMem j true
    else s.tagVMem
  let v2 := if s.stateReg = .fill ∧ m.resp = .err then
      vecWrite (tagCount size burstLength) v1 j false
    else v1
  if i.invalidate then fun _ => false else v2

/-- The dirty bits: a store that hits sets one, and a miss sets or clears it. -/
def nextDirtyMem (s : State) (i : Inputs) : Nat → Bool :=
  let j := lineIndex size burstLength s.masterReg.addr
  let d1 := if storeHit size burstLength s i then
      vecWrite (tagCount size burstLength) s.dirtyMem j true
    else s.dirtyMem
  if miss size burstLength s i then
    vecWrite (tagCount size burstLength) d1 j (s.masterReg.cmd == .wr)
  else d1

def nextRdAddrCnt (s : State) (i : Inputs) (m : BurstSlave) : Nat :=
  if s.stateReg = .write ∧ lastBeat burstLength s then s.rdAddrCntReg
  else if sent s m || evict size burstLength s i then
    (s.rdAddrCntReg + 1) % 2 ^ (lineBits burstLength - 2)
  else s.rdAddrCntReg

/-- The word that a beat brings, with the bytes of a store that waits for it. -/
def merged (s : State) (m : BurstSlave) : Word :=
  if s.burstCntReg = s.missIndexReg ∧ s.doingRead = false then
    merge s.coreByteEnReg s.coreWrDataReg m.data
  else m.data

/-- The address of the master is kept from a miss to the answer. -/
def keepsAddr (s : State) (i : Inputs) : Bool :=
  miss size burstLength s i || s.stateReg == .write || s.stateReg == .writeWaitForResp ||
    s.stateReg == .hold || s.stateReg == .fill

def next (s : State) (i : Inputs) (m : BurstSlave) : State where
  doingRead := if miss size burstLength s i then s.masterReg.cmd == .rd else s.doingRead
  coreWrDataReg := if miss size burstLength s i && s.masterReg.cmd == .wr then s.masterReg.data
    else s.coreWrDataReg
  coreByteEnReg := if miss size burstLength s i && s.masterReg.cmd == .wr then s.masterReg.byteEn
    else s.coreByteEnReg
  masterReg := { i.master with
    addr := if keepsAddr size burstLength s i then s.masterReg.addr else i.master.addr }
  stateReg := nextState size burstLength s i m
  burstCntReg := if sent s m || beat s m then
      (s.burstCntReg + 1) % 2 ^ (lineBits burstLength - 2)
    else s.burstCntReg
  missIndexReg := if miss size burstLength s i then
      missIndex burstLength s.masterReg.addr % 2 ^ missIndexBits burstLength
    else s.missIndexReg
  tagMem := MemBlock.write (tagCount size burstLength) s.tagMem (miss size burstLength s i)
    (lineIndex size burstLength s.masterReg.addr) (tagOf size s.masterReg.addr)
  tagRdAddrReg := lineIndex size burstLength i.master.addr
  tagVMem := nextTagVMem size burstLength s i m
  tagV := vecRead (tagCount size burstLength) s.tagVMem (lineIndex size burstLength i.master.addr)
  dirtyMem := nextDirtyMem size burstLength s i
  dirty := if storeHit size burstLength s i && decide (lineIndex size burstLength i.master.addr =
        lineIndex size burstLength s.masterReg.addr) then true
    else vecRead (tagCount size burstLength) s.dirtyMem (lineIndex size burstLength i.master.addr)
  mem := written size burstLength s i
  rdAddrReg := rdAddr size burstLength s i
  rdAddrCntReg := nextRdAddrCnt size burstLength s i m
  fillReg := beat s m
  wrAddrReg := if s.stateReg = .fill then
      lineIndex size burstLength s.masterReg.addr * 2 ^ (lineBits burstLength - 2) + s.burstCntReg
    else wordIndex size i.master.addr
  wrDataReg := if beat s m then merged s m else i.master.data
  slaveReg := if beat s m && s.burstCntReg == s.missIndexReg then ⟨m.resp, m.data⟩
    else if m.resp = .err ∧ (s.stateReg = .write ∧ lastBeat burstLength s ∨
      s.stateReg = .writeWaitForResp) then ⟨m.resp, m.data⟩
    else s.slaveReg
  memWrAddrReg := if miss size burstLength s i then
      (tag size burstLength s i * 2 ^ (DirectMappedCache.addrBits size + 2 - lineBits burstLength) +
        lineIndex size burstLength s.masterReg.addr) * 2 ^ lineBits burstLength
    else s.memWrAddrReg

end Circuit

/-- The registers with a reset value have it, and no command is waiting. -/
structure IsReset (s : State) : Prop where
  stateReg : s.stateReg = .idle
  burstCntReg : s.burstCntReg = 0
  rdAddrCntReg : s.rdAddrCntReg = 0
  tagVMem : ∀ j, s.tagVMem j = false
  dirtyMem : ∀ j, s.dirtyMem j = false
  cmd : s.masterReg.cmd = .idle
  fillReg : s.fillReg = false

end Patmos.DirectMappedCacheWriteBack
