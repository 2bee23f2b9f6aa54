import Patmos.Clocked
import Patmos.MemBlock
import Mathlib.Data.Nat.Size
import Mathlib.Tactic.Ring
import Mathlib.Tactic.Positivity

/-!
# The direct-mapped data cache

`DirectMappedCache`: tags, valid bits and data of a write-through cache.  A command is
looked up in the cycle after it was issued; a load that misses fetches its line as one
burst, and the word that was asked for is caught on its way.  A store only updates a word
that is already there, in the cycle after it was issued.

`size` is the size in bytes, `burstLength` the words of a line.  The sizes of the
memories come from `size`, but an address is cut at bit positions, so a line index may
lie outside the memories when the number of lines is not a power of two.
-/

namespace Patmos.DirectMappedCache

open Ocp

inductive Fsm where
  | idle
  | hold
  | fill
  | respond
deriving DecidableEq, Repr

structure State where
  masterReg : CacheMaster
  tagMem : Nat → Nat
  tagRdAddrReg : Nat
  tagVMem : Nat → Bool
  tagV : Bool
  mem : Nat → Word
  rdAddrReg : Nat
  fillReg : Bool
  wrAddrReg : Nat
  wrDataReg : Word
  stateReg : Fsm
  burstCntReg : Nat
  missIndexReg : Nat
  slaveReg : CoreSlave

/-- The master port, the invalidate signal, and what the memories return outside their
    range. -/
structure Inputs where
  master : CacheMaster
  invalidate : Bool
  undefTag : Nat
  undefWord : Word

section Circuit

variable (size burstLength : Nat)

def addrBits : Nat := MemBlock.log2Up (size / 4)

def lineBits : Nat := MemBlock.log2Up (burstLength * 4)

def tagCount : Nat := size / (burstLength * 4)

/-- `missIndexReg` is declared as `Reg(UInt(lineBits-2))`: its width is that of the literal
    `lineBits-2`, not `lineBits-2` itself. -/
def missIndexBits : Nat := max 1 (Nat.size (lineBits burstLength - 2))

/-- `Addr(addrBits + 1, lineBits)`. -/
def lineIndex (addr : Nat) : Nat :=
  addr / 2 ^ lineBits burstLength % 2 ^ (addrBits size + 2 - lineBits burstLength)

/-- `Addr(ADDR_WIDTH-1, addrBits+2)`. -/
def tagOf (addr : Nat) : Nat := addr / 2 ^ (addrBits size + 2)

/-- `Addr(addrBits + 1, 2)`. -/
def wordIndex (addr : Nat) : Nat := addr / 4 % 2 ^ addrBits size

/-- `Addr(lineBits-1, 2)`. -/
def missIndex (addr : Nat) : Nat := addr / 4 % 2 ^ (lineBits burstLength - 2)

/-- A dynamic index into a `Vec` that is out of range reads the first element. -/
def vecRead (n : Nat) (v : Nat → Bool) (j : Nat) : Bool := if j < n then v j else v 0

/-- A write that is out of range has no effect. -/
def vecWrite (n : Nat) (v : Nat → Bool) (j : Nat) (b : Bool) : Nat → Bool :=
  if MemBlock.truncateIndex n j < n then Function.update v (MemBlock.truncateIndex n j) b else v

def tag (s : State) (i : Inputs) : Nat :=
  MemBlock.read (tagCount size burstLength) s.tagMem s.tagRdAddrReg i.undefTag

def tagValid (s : State) (i : Inputs) : Bool :=
  s.tagV && tag size burstLength s i == tagOf size s.masterReg.addr

def hit (s : State) (i : Inputs) : Bool :=
  tagValid size burstLength s i && s.masterReg.cmd == .rd

/-- The condition that starts handling a miss. -/
def miss (s : State) (i : Inputs) : Bool :=
  !tagValid size burstLength s i && s.masterReg.cmd == .rd

def stmsk (s : State) : ByteEn := if s.masterReg.cmd = .wr then s.masterReg.byteEn else noBytes

/-- The data memories after the write port of this cycle. -/
def written (s : State) (i : Inputs) : Nat → Word :=
  MemBlock.writeBytes (size / 4) s.mem
    (fun l => s.fillReg || (tagValid size burstLength s i && stmsk s l)) s.wrAddrReg s.wrDataReg

def rdData (s : State) (i : Inputs) : Word :=
  MemBlock.read (size / 4) s.mem s.rdAddrReg i.undefWord

/-- `io.master.S`. -/
def toMaster (s : State) (i : Inputs) : CoreSlave :=
  if s.stateReg = .respond then s.slaveReg
  else ⟨if hit size burstLength s i then .dva else .null, rdData size s i⟩

/-- `io.slave.M`. -/
def toSlave (s : State) (i : Inputs) : BurstMaster where
  cmd := if miss size burstLength s i ∨ s.stateReg = .hold then .rd else .idle
  addr := s.masterReg.addr / 2 ^ lineBits burstLength * 2 ^ lineBits burstLength
  data := fun _ => 0
  dataValid := false
  dataByteEn := noBytes

/-- A beat of a fill. -/
def beat (s : State) (m : BurstSlave) : Bool := s.stateReg == .fill && m.resp != .null

def nextState (s : State) (i : Inputs) (m : BurstSlave) : Fsm :=
  let requested : Fsm := if m.cmdAccept then .fill else .hold
  match s.stateReg with
  | .idle => if miss size burstLength s i then requested else .idle
  | .hold => requested
  | .fill =>
    if beat s m && s.burstCntReg == burstLength - 1 then .respond
    else if miss size burstLength s i then requested else .fill
  | .respond => .idle

/-- The valid bits: a miss sets one, an erroneous beat clears it, and `invalidate` clears
    all. -/
def nextTagVMem (s : State) (i : Inputs) (m : BurstSlave) : Nat → Bool :=
  let j := lineIndex size burstLength s.masterReg.addr
  let v1 := if miss size burstLength s i then vecWrite (tagCount size burstLength) s.tagVMem j true
    else s.tagVMem
  let v2 := if s.stateReg = .fill ∧ m.resp = .err then
      vecWrite (tagCount size burstLength) v1 j false
    else v1
  if i.invalidate then fun _ => false else v2

def next (s : State) (i : Inputs) (m : BurstSlave) : State where
  masterReg := { i.master with
    addr := if miss size burstLength s i ∨ s.stateReg = .hold ∨ s.stateReg = .fill then
        s.masterReg.addr
      else i.master.addr }
  tagMem := MemBlock.write (tagCount size burstLength) s.tagMem (miss size burstLength s i)
    (lineIndex size burstLength s.masterReg.addr) (tagOf size s.masterReg.addr)
  tagRdAddrReg := lineIndex size burstLength i.master.addr
  tagVMem := nextTagVMem size burstLength s i m
  tagV := vecRead (tagCount size burstLength) s.tagVMem (lineIndex size burstLength i.master.addr)
  mem := written size burstLength s i
  rdAddrReg := wordIndex size i.master.addr
  fillReg := beat s m
  wrAddrReg := if s.stateReg = .fill then
      lineIndex size burstLength s.masterReg.addr * 2 ^ (lineBits burstLength - 2) + s.burstCntReg
    else wordIndex size i.master.addr
  wrDataReg := if beat s m then m.data else i.master.data
  stateReg := nextState size burstLength s i m
  burstCntReg := if beat s m then (s.burstCntReg + 1) % 2 ^ (lineBits burstLength - 2)
    else s.burstCntReg
  missIndexReg := if miss size burstLength s i then
      missIndex burstLength s.masterReg.addr % 2 ^ missIndexBits burstLength
    else s.missIndexReg
  slaveReg := if beat s m && s.burstCntReg == s.missIndexReg then ⟨m.resp, m.data⟩ else s.slaveReg

end Circuit

theorem vecWrite_of_ne {n j k : Nat} (hj : MemBlock.truncateIndex n j = j) (hne : k ≠ j)
    (v : Nat → Bool) (b : Bool) : vecWrite n v j b k = v k := by
  unfold vecWrite
  split
  · rw [hj, Function.update_of_ne hne]
  · rfl

theorem vecWrite_of_le {n j k : Nat} (hk : n ≤ k) (v : Nat → Bool) (b : Bool) :
    vecWrite n v j b k = v k := by
  unfold vecWrite
  split
  · exact Function.update_of_ne (by omega) _ _
  · rfl

theorem vecWrite_of_lt {n j : Nat} (h : j < n) (v : Nat → Bool) (b : Bool) :
    vecWrite n v j b = Function.update v j b := by
  rw [vecWrite, MemBlock.truncateIndex_of_lt h, if_pos h]

/-! ### Lines -/

/-- The number of lines that the index bits can tell apart. -/
def sets (size burstLength : Nat) : Nat := 2 ^ (addrBits size + 2 - lineBits burstLength)

/-- The address of the first word of the line with this tag and index. -/
def lineBase (size burstLength tag j : Nat) : Nat := (tag * sets size burstLength + j) * burstLength

section Geometry

variable {size burstLength b : Nat}

variable (hb : 1 ≤ b) (hB : burstLength = 2 ^ b) (hn : 0 < tagCount size burstLength)

include hb hB in
theorem lineBits_eq : lineBits burstLength = b + 2 := by
  rw [lineBits, hB, show 2 ^ b * 4 = 2 ^ (b + 2) by rw [Nat.pow_add], MemBlock.log2Up,
    Nat.clog_pow 2 (b + 2) (by omega)]
  omega

include hb hB in
theorem lineWords_eq : 2 ^ (lineBits burstLength - 2) = burstLength := by
  rw [lineBits_eq hb hB, Nat.add_sub_cancel, hB]

include hb hB in
theorem lineBytes_eq : 2 ^ lineBits burstLength = 4 * burstLength := by
  rw [lineBits_eq hb hB, Nat.pow_add, hB, Nat.mul_comm]

theorem le_pow_addrBits (size : Nat) : size / 4 ≤ 2 ^ addrBits size := by
  have hclog : size / 4 ≤ 2 ^ Nat.clog 2 (size / 4) := Nat.le_pow_clog one_lt_two _
  exact hclog.trans (Nat.pow_le_pow_right two_pos (le_max_right _ _))

include hb hB hn in
/-- A cache of at least one line has index bits for all words of a line. -/
theorem pow_addrBits : 2 ^ addrBits size = sets size burstLength * burstLength := by
  have hline : burstLength ≤ size / 4 := by
    have hle : 1 ≤ size / (burstLength * 4) := hn
    have := (Nat.le_div_iff_mul_le (by rw [hB]; positivity)).mp hle
    exact (Nat.le_div_iff_mul_le (by omega)).mpr (by omega)
  have hbits : b ≤ addrBits size := by
    have hle : 2 ^ b ≤ 2 ^ addrBits size := hB ▸ hline.trans (le_pow_addrBits size)
    exact (Nat.pow_le_pow_iff_right (by omega)).mp hle
  rw [sets, lineBits_eq hb hB, hB, ← Nat.pow_add]
  congr 1
  omega

include hb hB in
theorem lineIndex_eq (addr : Nat) :
    lineIndex size burstLength addr = addr / 4 / burstLength % sets size burstLength := by
  rw [lineIndex, sets, lineBytes_eq hb hB, Nat.div_div_eq_div_mul]

include hb hB hn in
theorem tagOf_eq (addr : Nat) :
    tagOf size addr = addr / 4 / burstLength / sets size burstLength := by
  rw [tagOf, pow_add, pow_addrBits hb hB hn, Nat.div_div_eq_div_mul, Nat.div_div_eq_div_mul]
  congr 1
  ring

include hb hB hn in
theorem wordIndex_eq (addr : Nat) :
    wordIndex size addr =
      lineIndex size burstLength addr * burstLength + addr / 4 % burstLength := by
  rw [wordIndex, lineIndex_eq hb hB, pow_addrBits hb hB hn, mul_comm (sets size burstLength),
    Nat.mod_mul, add_comm, mul_comm burstLength]

theorem word_lt {j p : Nat} (hj : j < tagCount size burstLength) (hp : p < burstLength) :
    j * burstLength + p < size / 4 := by
  have hle : (j + 1) * (burstLength * 4) ≤ size :=
    (Nat.mul_le_mul_right _ hj).trans (Nat.div_mul_le_self _ _)
  have hexp : (j + 1) * (burstLength * 4) = (j * burstLength + burstLength) * 4 := by ring
  rw [hexp] at hle
  exact (Nat.le_div_iff_mul_le (by omega)).mpr (by omega)

include hb hB hn in
theorem lineBase_add (addr : Nat) :
    lineBase size burstLength (tagOf size addr) (lineIndex size burstLength addr) +
      addr / 4 % burstLength = addr / 4 := by
  rw [lineBase, tagOf_eq hb hB hn, lineIndex_eq hb hB, mul_comm (_ / _) (sets _ _),
    Nat.div_add_mod, mul_comm, Nat.div_add_mod]

theorem lineBase_inj {t t' j j' p p' : Nat} (hp : p < burstLength) (hp' : p' < burstLength)
    (hj : j < sets size burstLength) (hj' : j' < sets size burstLength)
    (h : lineBase size burstLength t j + p = lineBase size burstLength t' j' + p') :
    t = t' ∧ j = j' ∧ p = p' := by
  obtain ⟨hline, hpos⟩ := MemBlock.line_add_inj hp hp' h
  obtain ⟨htag, hindex⟩ := MemBlock.line_add_inj hj hj' hline
  exact ⟨htag, hindex, hpos⟩

end Geometry

end Patmos.DirectMappedCache
