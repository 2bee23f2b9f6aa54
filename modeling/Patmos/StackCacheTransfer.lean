import Patmos.StackCache
import Patmos.StackSim
import Mathlib.Tactic.Ring
import Mathlib.Tactic.Positivity

/-!
# Spilling and filling

The stack cache and a burst memory run side by side with the model of `stacksim.c`, which
performs each operation in the cycle in which the pipeline issues it.  Between issue and
completion the circuit moves whole bursts, although the words to be spilled or filled
start and end anywhere inside a burst.

The invariant of a transfer speaks about the transfer address: the words below it are as
in the model, and of the others only those in the range of the operation may differ.
-/

namespace Patmos.StackCache

open Clocked Ocp

/-! ### Sizes -/

/-- Sizes for which the circuit exists: a power of two of words in the cache, and a burst
    whose bits lie between those of a word and those of an address. -/
structure Sizes (words burstLength : Nat) : Prop where
  words : ∃ k, words = 2 ^ k
  burst : ∃ b, 1 ≤ b ∧ b ≤ 29 ∧ burstLength = 2 ^ b

section Arithmetic

variable {words burstLength : Nat} (hsz : Sizes words burstLength)

include hsz

theorem Sizes.words_pos : 0 < words := by
  obtain ⟨k, rfl⟩ := hsz.words
  positivity

theorem Sizes.two_le_burst : 2 ≤ burstLength := by
  obtain ⟨b, hb, -, rfl⟩ := hsz.burst
  exact Nat.le_self_pow (by omega) 2

theorem Sizes.burst_le : burstLength ≤ 2 ^ 29 := by
  obtain ⟨b, -, hb, rfl⟩ := hsz.burst
  exact Nat.pow_le_pow_right (by omega) hb

theorem Sizes.burstBytes_eq : burstBytes burstLength = 4 * burstLength := by
  obtain ⟨b, -, -, rfl⟩ := hsz.burst
  have hpow : 2 ^ b * 4 = 2 ^ (b + 2) := by ring
  rw [burstBytes, MemBlock.pow_log2Up (by omega) hpow, mul_comm]

/-- The entry of the word at an address.  With a single word the index still has one bit, which
    the memory block ignores. -/
theorem Sizes.entry_eq (addr : Nat) :
    MemBlock.truncateIndex words (index words addr) = addr / 4 % words := by
  obtain ⟨k, rfl⟩ := hsz.words
  rcases Nat.eq_zero_or_pos k with rfl | hk
  · rw [pow_zero, MemBlock.truncateIndex_one, Nat.mod_one]
  · rw [index, MemBlock.pow_log2Up hk rfl]
    exact MemBlock.truncateIndex_of_lt (Nat.mod_lt _ (Nat.two_pow_pos k))

theorem Sizes.index_eq (t : Nat) :
    MemBlock.truncateIndex words (index words (4 * t)) = t % words := by
  rw [hsz.entry_eq, Nat.mul_div_cancel_left t (by omega)]

theorem Sizes.burstStart_eq (t : Nat) :
    burstStart burstLength (4 * t) = 4 * (t / burstLength * burstLength) := by
  rw [burstStart, hsz.burstBytes_eq, Nat.mul_div_mul_left _ _ (by omega)]
  ring

theorem Sizes.burstCounter_eq {s : State} {t : Nat} (ht : s.transferAddrReg = 4 * t) :
    burstCounter burstLength s = t % burstLength := by
  rw [burstCounter, hsz.burstBytes_eq, ht, Nat.mul_mod_mul_left,
    Nat.mul_div_cancel_left _ (by omega)]

end Arithmetic

/-! ### The circuit, its memory and the model -/

/-- Beside the three machines: the word that a load issued in the last cycle is to
    return, and the words that some operation has spilled so far. -/
structure Sys where
  core : State
  slave : Slave
  model : StackSim.State
  expect : Option Word
  spilled : Nat → Bool

structure SysInputs where
  cpu : Inputs
  choice : Choice

namespace Sys

section Step

variable (words burstLength : Nat) (y : Sys) (i : SysInputs)

/-- The operation that the pipeline issues in this cycle, on the model. -/
def issue : StackSim.State :=
  match i.cpu.op with
  | .res => StackSim.reserve words (i.cpu.opOff / 4) y.model
  | .ens => StackSim.ensure words (i.cpu.opOff / 4) y.model
  | .free => StackSim.free (i.cpu.opOff / 4) y.model
  | .spill => StackSim.spill words (i.cpu.opOff / 4) y.model
  | _ => y.model

def modelNext : StackSim.State :=
  if y.core.stateReg = .idleState then
    if i.cpu.cmd = .wr then
      StackSim.store words (y.model.scTop + i.cpu.addr / 4) i.cpu.byteEn i.cpu.data y.model
    else if i.cpu.enaIn then issue words y i else y.model
  else y.model

/-- The signals that the memory returns in this cycle. -/
def fromMemory : BurstSlave := y.slave.out (toMemory words y.core i.cpu) i.choice

def next : Sys where
  core := StackCache.next words burstLength y.core i.cpu (fromMemory words y i)
  slave := y.slave.next burstLength (toMemory words y.core i.cpu) i.choice
  model := modelNext words y i
  expect := if i.cpu.cmd = .rd then
      some (StackSim.load words (y.model.scTop + i.cpu.addr / 4) y.model) else none
  spilled := fun a => y.spilled a ||
    (decide ((modelNext words y i).memTop ≤ a) && decide (a < y.model.memTop))

/-- Sizes are whole words of at most the size of the cache, and no pointer wraps. -/
def LegalOp : Prop :=
  match i.cpu.op with
  | .none => True
  | .setSt | .setMt => False
  | .ens => i.cpu.opOff % 4 = 0 ∧ i.cpu.opOff ≤ scacheSize words
  | .free => i.cpu.opOff % 4 = 0 ∧ i.cpu.opOff ≤ scacheSize words ∧
      y.core.stackTopReg + i.cpu.opOff + scacheSize words < 2 ^ 32
  | .res => i.cpu.opOff % 4 = 0 ∧ i.cpu.opOff ≤ scacheSize words ∧
      i.cpu.opOff ≤ y.core.stackTopReg
  | .spill => i.cpu.opOff % 4 = 0 ∧ i.cpu.opOff ≤ y.core.memTopReg - y.core.stackTopReg

/-- A cycle of the pipeline and of a memory that reports no error. -/
structure Legal : Prop where
  noErr : i.choice.err = false
  busy : y.core.stateReg ≠ .idleState → i.cpu.enaIn = true ∧ i.cpu.cmd = .idle
  access : i.cpu.cmd ≠ .idle →
    i.cpu.op = .none ∧ i.cpu.addr < y.core.memTopReg - y.core.stackTopReg
  op : y.core.stateReg = .idleState → i.cpu.enaIn = true → LegalOp words y i

end Step

/-! ### The invariant -/

variable (words burstLength : Nat)

/-- The pointers of the model. -/
structure Pointers (m : StackSim.State) : Prop where
  le : m.scTop ≤ m.memTop
  size : m.memTop ≤ m.scTop + words
  bound : 4 * m.scTop + 4 * words < 2 ^ 32

/-- Nothing is in progress. -/
structure Idle (y : Sys) : Prop where
  memTop : y.core.memTopReg = 4 * y.model.memTop
  cache : ∀ j < words, y.core.memoryBlock j = y.model.sc j
  phase : y.slave.phase = .idle
  mem : y.slave.mem = y.model.mem

/-- Words from `y.model.memTop` up to `hi` are being spilled, and `t` is the next one to be
    transferred. -/
structure Spilling (y : Sys) (hi t : Nat) : Prop where
  le : y.model.memTop ≤ hi
  bound : 4 * hi < 2 ^ 32
  limit : (if y.core.isReserveReg then (y.core.stackTopReg + scacheSize words) % 2 ^ 32
    else y.core.newMemTopReg) = 4 * y.model.memTop
  transfer : y.core.transferAddrReg = 4 * t
  rdAddr : MemBlock.truncateIndex words y.core.rdAddrReg = t % words
  cache : ∀ j < words, y.core.memoryBlock j = y.model.sc j
  copied : ∀ a, y.model.memTop ≤ a → a < hi → y.model.mem a = y.model.sc (a % words)
  mem : ∀ a, ¬ (y.model.memTop ≤ a ∧ a < hi ∧ t ≤ a) → y.slave.mem a = y.model.mem a
  spilled : ∀ a, y.model.memTop ≤ a → a < hi → y.spilled a = true

/-- Words from `lo` up to `y.model.memTop` are being filled, and `t` is the next one to be
    transferred. -/
structure Filling (y : Sys) (lo t : Nat) : Prop where
  le : lo ≤ y.model.memTop
  newTop : y.core.newMemTopReg = 4 * y.model.memTop
  transfer : y.core.transferAddrReg = 4 * t
  mem : y.slave.mem = y.model.mem
  filled : ∀ a, lo ≤ a → a < y.model.memTop → y.model.sc (a % words) = y.model.mem a
  cache : ∀ j < words, (∀ a, lo ≤ a → a < y.model.memTop → t ≤ a → a % words ≠ j) →
    y.core.memoryBlock j = y.model.sc j
  memTop : y.core.memTopReg = 4 * lo ∨
    y.model.memTop ≤ t ∧ y.core.memTopReg = 4 * y.model.memTop

/-- What holds in each state of the controller, with the burst that the memory is
    serving. -/
def Transfer (y : Sys) : Prop :=
  match y.core.stateReg with
  | .idleState => Idle words y
  | .holdSpillState => ∃ hi t, Spilling words y hi t ∧ y.core.memTopReg = 4 * hi ∧
      y.slave.phase = .idle ∧ t % burstLength = 0 ∧ t ≤ hi
  | .spillState => ∃ hi t, Spilling words y hi t ∧ y.core.memTopReg = 4 * hi ∧
      y.slave.phase = .write (t - t % burstLength) (t % burstLength) ∧
      t % burstLength ≠ 0 ∧ t - t % burstLength ≤ hi
  | .waitSpillState => ∃ hi t, Spilling words y hi t ∧
      (y.core.memTopReg = 4 * hi ∨ hi ≤ t ∧ y.core.memTopReg = 4 * y.model.memTop) ∧
      y.slave.phase = .resp ∧ t % burstLength = 0
  | .fillState => ∃ lo t, Filling words y lo t ∧ y.slave.phase = .idle ∧
      t % burstLength = 0 ∧ t ≤ y.model.memTop
  | .waitFillState => ∃ lo t, Filling words y lo t ∧
      y.slave.phase = .read (t - t % burstLength) (t % burstLength) ∧
      t - t % burstLength ≤ y.model.memTop
  | .errorState => False

structure Inv (mem₀ : Memory) (y : Sys) : Prop where
  pointers : Pointers words y.model
  stackTop : y.core.stackTopReg = 4 * y.model.scTop
  transfer : Transfer words burstLength y
  expect : ∀ v, y.expect = some v → y.core.responseToCPUReg = .dva ∧
    ∀ j, mbRdData words y.core j = v
  unspilled : ∀ a, y.spilled a = false → y.slave.mem a = mem₀ a

section Busy

variable {words burstLength} {y : Sys} {i : SysInputs}

variable {hi t : Nat} {mem₀ : Memory} (hsz : Sizes words burstLength)
  (h : Inv words burstLength mem₀ y) (hleg : Legal words y i)

include hleg in
theorem next_of_busy {B : Nat} (hst : y.core.stateReg ≠ .idleState) :
    next words B y i =
      ⟨{ control words B y.core i.cpu (fromMemory words y i) with
          memoryBlock := mbWrite words y.core i.cpu (fromMemory words y i)
          rdAddrReg := mbRdAddr words B y.core i.cpu (fromMemory words y i)
          responseToCPUReg := .null },
        y.slave.next B (toMemory words y.core i.cpu) i.choice, y.model, none, y.spilled⟩ := by
  obtain ⟨hena, hcmd⟩ := hleg.busy hst
  have hmodel : modelNext words y i = y.model := by simp [modelNext, hst]
  have hspilled : (fun a => y.spilled a ||
      (decide (y.model.memTop ≤ a) && decide (a < y.model.memTop))) = y.spilled := by
    funext a
    cases y.spilled a with
    | true => rfl
    | false => simp
  simp only [next, hmodel, hspilled]
  simp [StackCache.next, hena, hcmd]

/-- Without a store or a beat of a fill the memory block keeps its contents. -/
theorem mbWrite_eq_self {s : State} {j : Inputs} {m : BurstSlave} (hcmd : j.cmd ≠ .wr)
    (hfill : fills s m = false) : mbWrite words s j m = s.memoryBlock := by
  simp [mbWrite, hcmd, hfill]

theorem Spilling.writeEnable_eq (h : Spilling words y hi t) (htop : y.core.memTopReg = 4 * hi) :
    writeEnable words y.core = (decide (y.model.memTop ≤ t) && decide (t < hi)) := by
  have hlimit := h.limit
  have hle : (4 * y.model.memTop ≤ 4 * t) ↔ y.model.memTop ≤ t := by omega
  have hlt : (4 * t < 4 * hi) ↔ t < hi := by omega
  unfold writeEnable
  split at hlimit
  all_goals
    rename_i hr
    simp only [hr, if_true, Bool.false_eq_true, if_false, hlimit, h.transfer, htop, hle, hlt]

/-- The word on the bus is the one that the model spills. -/
theorem Spilling.data_eq (h : Spilling words y hi t) (hpos : 0 < words) :
    (toMemory words y.core i.cpu).data = y.model.sc (t % words) := by
  have hlt : t % words < words := Nat.mod_lt _ hpos
  change MemBlock.read words y.core.memoryBlock y.core.rdAddrReg i.cpu.undef = _
  rw [MemBlock.read_of_index h.rdAddr hlt]
  exact h.cache _ hlt

/-- Transferring the word at `t` brings the memory one word closer to the model's. -/
theorem Spilling.write_mem (h : Spilling words y hi t) (hpos : 0 < words)
    (htop : y.core.memTopReg = 4 * hi) (a : Nat)
    (ha : ¬ (y.model.memTop ≤ a ∧ a < hi ∧ t + 1 ≤ a)) :
    y.slave.mem.write t (toMemory words y.core i.cpu).dataByteEn
      (toMemory words y.core i.cpu).data a = y.model.mem a := by
  have hbe : (toMemory words y.core i.cpu).dataByteEn =
      fun _ => decide (y.model.memTop ≤ t) && decide (t < hi) := by
    rw [← h.writeEnable_eq htop]
    rfl
  by_cases hat : a = t
  · rw [hat, Memory.write_self, hbe, h.data_eq hpos]
    by_cases hin : y.model.memTop ≤ t ∧ t < hi
    · rw [h.copied t hin.1 hin.2]
      funext l
      simp [merge, hin.1, hin.2]
    · rw [← h.mem t (by omega)]
      funext l
      have : (decide (y.model.memTop ≤ t) && decide (t < hi)) = false := by
        simpa using hin
      simp [merge, this]
  · rw [Memory.write_of_ne _ hat]
    exact h.mem a (by omega)

/-- Only words of the spilled range are changed. -/
theorem Spilling.write_unspilled (h : Spilling words y hi t) (htop : y.core.memTopReg = 4 * hi)
    (a : Nat) (ha : y.spilled a = false) :
    y.slave.mem.write t (toMemory words y.core i.cpu).dataByteEn
      (toMemory words y.core i.cpu).data a = y.slave.mem a := by
  by_cases hat : a = t
  · have hout : (decide (y.model.memTop ≤ t) && decide (t < hi)) = false := by
      by_contra hin
      simp only [Bool.not_eq_false, Bool.and_eq_true, decide_eq_true_eq] at hin
      have := h.spilled t hin.1 hin.2
      rw [← hat, ha] at this
      exact absurd this (by simp)
    have hbe : (toMemory words y.core i.cpu).dataByteEn = noBytes := by
      funext l
      change writeEnable words y.core = false
      rw [h.writeEnable_eq htop, hout]
    rw [hbe, Memory.write_noBytes]
  · rw [Memory.write_of_ne _ hat]

include h in
/-- A cycle of a transfer keeps the invariant when it keeps the transfer going and leaves
    words outside the spilled ranges alone. -/
theorem Inv.of_next {core : State} {slave : Slave}
    (hnext : next words burstLength y i = ⟨core, slave, y.model, none, y.spilled⟩)
    (hstack : core.stackTopReg = y.core.stackTopReg)
    (hmem : ∀ a, y.spilled a = false → slave.mem a = y.slave.mem a)
    (htransfer : Transfer words burstLength ⟨core, slave, y.model, none, y.spilled⟩) :
    Inv words burstLength mem₀ (next words burstLength y i) := by
  rw [hnext]
  exact ⟨h.pointers, hstack.trans h.stackTop, htransfer, nofun,
    fun a ha => (hmem a ha).trans (h.unspilled a ha)⟩

variable (burstLength) in
include hleg in
/-- Transferring a word moves the transfer address and puts the next word on the read port. -/
theorem Spilling.next_eq (st : Fsm) (h : Spilling words y hi t) (hst : y.core.stateReg ≠ .idleState)
    (hfits : 4 * (t + 1) < 2 ^ 33)
    (hctl : control words burstLength y.core i.cpu (fromMemory words y i) =
      { y.core with transferAddrReg := nextTransferAddr y.core, stateReg := st })
    (hrd : mbRdAddr words burstLength y.core i.cpu (fromMemory words y i) =
      index words (nextTransferAddr y.core)) (hfill : fills y.core (fromMemory words y i) = false) :
    next words burstLength y i =
      ⟨{ y.core with
          transferAddrReg := 4 * (t + 1)
          rdAddrReg := index words (4 * (t + 1))
          stateReg := st
          responseToCPUReg := .null },
        y.slave.next burstLength (toMemory words y.core i.cpu) i.choice, y.model, none,
        y.spilled⟩ := by
  have hnext : nextTransferAddr y.core = 4 * (t + 1) := by
    rw [nextTransferAddr, h.transfer, Nat.mod_eq_of_lt (by omega)]
    omega
  rw [next_of_busy hleg hst, mbWrite_eq_self (by rw [(hleg.busy hst).2]; simp) hfill, hctl, hrd,
    hnext]

include hsz in
theorem Spilling.advance (h : Spilling words y hi t)
    (htop : y.core.memTopReg = 4 * hi) (st : Fsm) (phase : Phase) :
    Spilling words
      ⟨{ y.core with
          transferAddrReg := 4 * (t + 1)
          rdAddrReg := index words (4 * (t + 1))
          stateReg := st
          responseToCPUReg := .null },
        ⟨phase, y.slave.mem.write t (toMemory words y.core i.cpu).dataByteEn
          (toMemory words y.core i.cpu).data⟩, y.model, none, y.spilled⟩ hi (t + 1) :=
  ⟨h.le, h.bound, h.limit, rfl, hsz.index_eq _, h.cache, h.copied,
    h.write_mem hsz.words_pos htop, h.spilled⟩

theorem succ_mod_of_last {t B : Nat} (hB : 0 < B) (h : t % B = B - 1) : (t + 1) % B = 0 := by
  rw [← Nat.mod_add_mod, h, Nat.sub_add_cancel hB, Nat.mod_self]

theorem succ_mod_of_ne_last {t B : Nat} (hB : 0 < B) (h : t % B ≠ B - 1) :
    (t + 1) % B = t % B + 1 := by
  have hlt := Nat.mod_lt t hB
  rw [← Nat.mod_add_mod, Nat.mod_eq_of_lt (by omega)]

include hsz h hleg in
theorem inv_of_hold (hst : y.core.stateReg = .holdSpillState) :
    Inv words burstLength mem₀ (next words burstLength y i) := by
  have hne : y.core.stateReg ≠ .idleState := by rw [hst]; simp
  obtain ⟨hena, hcmd⟩ := hleg.busy hne
  have htransfer := h.transfer
  simp only [Transfer, hst] at htransfer
  obtain ⟨hi, t, hsp, htop, hphase, hmod, hle⟩ := htransfer
  have hburst := hsz.two_le_burst
  have hmcmd : (toMemory words y.core i.cpu).cmd = .wr := by simp [toMemory, hena, hst]
  have hvalid : (toMemory words y.core i.cpu).dataValid = true := by simp [toMemory, hst]
  have hbound := hsp.bound
  have haddr : (toMemory words y.core i.cpu).addr / 4 = t := by
    change y.core.transferAddrReg % 2 ^ 32 / 4 = t
    rw [hsp.transfer, Nat.mod_eq_of_lt (by omega)]
    omega
  have hfill : fills y.core (fromMemory words y i) = false := by simp [fills, hst]
  have haccept : (fromMemory words y i).cmdAccept = i.choice.accept := by
    simp [fromMemory, Slave.out, hphase]
  cases hacc : i.choice.accept
  · -- not yet accepted: everything is held
    rw [hacc] at haccept
    have hnext : next words burstLength y i = ⟨{ y.core with
        stateReg := .holdSpillState, responseToCPUReg := .null }, y.slave, y.model, none,
        y.spilled⟩ := by
      rw [next_of_busy hleg hne, Slave.next_of_wait hphase hacc,
        mbWrite_eq_self (by rw [hcmd]; simp) hfill]
      simp only [control, mbRdAddr, hst, haccept, Bool.false_eq_true, if_false]
    refine h.of_next hnext rfl (fun _ _ => rfl) ?_
    simp only [Transfer]
    exact ⟨hi, t, { hsp with }, htop, hphase, hmod, hle⟩
  · -- the first word of a burst
    rw [hacc] at haccept
    have hnext := hsp.next_eq burstLength hleg .spillState hne (by omega)
      (by simp [control, hst, haccept]) (by simp [mbRdAddr, hst, haccept]) hfill
    rw [Slave.next_of_wr hphase hacc hmcmd hvalid, haddr, if_neg (by omega)] at hnext
    have hmod' : (t + 1) % burstLength = 1 := by
      rw [Nat.add_mod, hmod, zero_add, Nat.mod_mod, Nat.mod_eq_of_lt (by omega)]
    refine h.of_next hnext rfl (hsp.write_unspilled htop) ?_
    simp only [Transfer]
    refine ⟨hi, t + 1, hsp.advance hsz htop _ _, htop, ?_, ?_, ?_⟩
    · rw [hmod']
      rfl
    · rw [hmod']; simp
    · rw [hmod']; exact hle

include hsz h hleg in
theorem inv_of_spill (hst : y.core.stateReg = .spillState) :
    Inv words burstLength mem₀ (next words burstLength y i) := by
  have hne : y.core.stateReg ≠ .idleState := by rw [hst]; simp
  have htransfer := h.transfer
  simp only [Transfer, hst] at htransfer
  obtain ⟨hi, t, hsp, htop, hphase, hmod, hle⟩ := htransfer
  have hburst := hsz.two_le_burst
  have hburst' := hsz.burst_le
  have hlt : t % burstLength < burstLength := Nat.mod_lt _ (by omega)
  have hmodle : t % burstLength ≤ t := Nat.mod_le _ _
  have hbound := hsp.bound
  have hvalid : (toMemory words y.core i.cpu).dataValid = true := by simp [toMemory, hst]
  have hfill : fills y.core (fromMemory words y i) = false := by simp [fills, hst]
  have hnext := hsp.next_eq burstLength hleg
    (if t % burstLength = burstLength - 1 then .waitSpillState
    else .spillState) hne (by omega)
    (by simp only [control, hst, hsz.burstCounter_eq hsp.transfer]) (by simp [mbRdAddr, hst]) hfill
  rw [Slave.next_of_write hphase hvalid, Nat.sub_add_cancel hmodle] at hnext
  refine h.of_next hnext rfl (hsp.write_unspilled htop) ?_
  by_cases hlast : t % burstLength = burstLength - 1
  · -- the last word of the burst
    simp only [Transfer, if_pos hlast]
    refine ⟨hi, t + 1, hsp.advance hsz htop _ _, .inl htop, if_pos (by omega),
      succ_mod_of_last (by omega) hlast⟩
  · have hmod' : (t + 1) % burstLength = t % burstLength + 1 :=
      succ_mod_of_ne_last (by omega) hlast
    have hbase : t + 1 - (t + 1) % burstLength = t - t % burstLength := by omega
    simp only [Transfer, if_neg hlast]
    refine ⟨hi, t + 1, hsp.advance hsz htop _ _, htop, ?_, by omega, by omega⟩
    rw [if_neg (by omega), hbase, hmod']

include h hleg in
theorem inv_of_waitSpill (hst : y.core.stateReg = .waitSpillState) :
    Inv words burstLength mem₀ (next words burstLength y i) := by
  have hne : y.core.stateReg ≠ .idleState := by rw [hst]; simp
  have htransfer := h.transfer
  simp only [Transfer, hst] at htransfer
  obtain ⟨hi, t, hsp, htop, hphase, hmod⟩ := htransfer
  have hfill : fills y.core (fromMemory words y i) = false := by simp [fills, hst]
  have hle := hsp.le
  -- the top of memory is lowered as soon as all words are out, before the response
  have hdone : spillingDone y.core = decide (hi ≤ t) := by
    have hiff : y.core.memTopReg ≤ y.core.transferAddrReg ↔ hi ≤ t := by
      rw [hsp.transfer]
      rcases htop with htop | ⟨htop, htop'⟩ <;> omega
    simp only [spillingDone, hiff]
  have hresp : (fromMemory words y i).resp = if i.choice.go then .dva else .null := by
    simp [fromMemory, Slave.out, hphase, Slave.respOf, hleg.noErr]
  have hnext := next_of_busy (B := burstLength) hleg hne
  rw [mbWrite_eq_self (by rw [(hleg.busy hne).2]; simp) hfill] at hnext
  simp only [control, mbRdAddr, hst, hdone, hsp.limit, decide_eq_true_eq] at hnext
  cases hgo : i.choice.go
  · -- still waiting
    rw [Slave.next_of_resp_wait hphase hgo, hresp, hgo] at hnext
    refine h.of_next hnext rfl (fun _ _ => rfl) ?_
    simp only [Transfer, Bool.false_eq_true, if_false, reduceCtorEq]
    refine ⟨hi, t, { hsp with }, ?_, hphase, hmod⟩
    by_cases hd : hi ≤ t
    · exact .inr ⟨hd, if_pos hd⟩
    · rw [if_neg hd]
      exact .inl (htop.resolve_right fun hc => hd hc.1)
  · rw [Slave.next_of_resp hphase hgo, hresp, hgo] at hnext
    refine h.of_next hnext rfl (fun _ _ => rfl) ?_
    by_cases hd : hi ≤ t
    · -- all words are in memory
      simp only [Transfer, if_pos hd, if_true]
      refine ⟨rfl, hsp.cache, rfl, ?_⟩
      funext a
      exact hsp.mem a (by omega)
    · -- another burst
      simp only [Transfer, if_neg hd, if_true]
      exact ⟨hi, t, { hsp with }, htop.resolve_right fun hc => hd hc.1, trivial, hmod, by omega⟩

theorem Filling.done_eq {lo t : Nat} (h : Filling words y lo t) :
    fillingDone y.core = decide (y.model.memTop ≤ t) := by
  have hiff : y.core.newMemTopReg ≤ y.core.transferAddrReg ↔ y.model.memTop ≤ t := by
    rw [h.newTop, h.transfer]
    omega
  simp only [fillingDone, hiff]

include h hleg in
theorem inv_of_fill (hst : y.core.stateReg = .fillState) :
    Inv words burstLength mem₀ (next words burstLength y i) := by
  have hne : y.core.stateReg ≠ .idleState := by rw [hst]; simp
  obtain ⟨hena, hcmd⟩ := hleg.busy hne
  have htransfer := h.transfer
  simp only [Transfer, hst] at htransfer
  obtain ⟨lo, t, hf, hphase, hmod, hle⟩ := htransfer
  have hfill : fills y.core (fromMemory words y i) = false := by simp [fills, hst]
  have haccept : (fromMemory words y i).cmdAccept = i.choice.accept := by
    simp [fromMemory, Slave.out, hphase]
  have hmcmd : (toMemory words y.core i.cpu).cmd = .rd := by simp [toMemory, hena, hst]
  obtain ⟨-, hsize, hbound⟩ := h.pointers
  have haddr : (toMemory words y.core i.cpu).addr / 4 = t := by
    change y.core.transferAddrReg % 2 ^ 32 / 4 = t
    rw [hf.transfer, Nat.mod_eq_of_lt (by omega)]
    omega
  have hnext := next_of_busy (B := burstLength) hleg hne
  rw [mbWrite_eq_self (by rw [hcmd]; simp) hfill] at hnext
  simp only [control, hst, haccept] at hnext
  cases hacc : i.choice.accept
  · rw [Slave.next_of_wait hphase hacc, hacc] at hnext
    refine h.of_next hnext rfl (fun _ _ => rfl) ?_
    simp only [Transfer, Bool.false_eq_true, if_false]
    exact ⟨lo, t, { hf with }, hphase, hmod, hle⟩
  · rw [Slave.next_of_rd hphase hacc hmcmd, haddr, hacc] at hnext
    refine h.of_next hnext rfl (fun _ _ => rfl) ?_
    simp only [Transfer, if_true]
    refine ⟨lo, t, { hf with }, ?_, ?_⟩
    · rw [hmod, Nat.sub_zero]
    · omega

include hsz in
/-- A beat of a fill brings the cache one word closer to the model's. -/
theorem Filling.write_cache {lo t : Nat} (h : Filling words y lo t) (hpos : 0 < words)
    {m : BurstSlave} (hfills : fills y.core m = true) (hcmd : i.cpu.cmd = .idle)
    (hdata : m.data = y.model.mem t) (j : Nat) (hj : j < words)
    (hno : ∀ a, lo ≤ a → a < y.model.memTop → t + 1 ≤ a → a % words ≠ j) :
    mbWrite words y.core i.cpu m j = y.model.sc j := by
  have hlt : t % words < words := Nat.mod_lt _ hpos
  have hena : (!fillingDone y.core && decide (y.core.memTopReg ≤ 4 * t)) =
      decide (lo ≤ t ∧ t < y.model.memTop) := by
    rw [h.done_eq]
    have hle := h.le
    rw [Bool.eq_iff_iff]
    simp only [Bool.and_eq_true, Bool.not_eq_true', decide_eq_false_iff_not, decide_eq_true_eq]
    rcases h.memTop with htop | ⟨hd, htop⟩
    · omega
    · omega
  have hwrite : mbWrite words y.core i.cpu m =
      Function.update y.core.memoryBlock (t % words)
        (merge (fun _ => decide (lo ≤ t ∧ t < y.model.memTop)) (y.model.mem t)
          (y.core.memoryBlock (t % words))) := by
    simp only [mbWrite, hfills, hcmd, hena, hdata, h.transfer, if_true]
    rw [if_neg (by simp), MemBlock.writeBytes_of_index (hsz.index_eq t) hlt]
  rw [hwrite]
  by_cases hin : lo ≤ t ∧ t < y.model.memTop
  · by_cases hjt : j = t % words
    · rw [hjt, Function.update_self, h.filled t hin.1 hin.2]
      funext l
      simp [merge, hin]
    · rw [Function.update_of_ne hjt]
      refine h.cache j hj fun a h1 h2 h3 => ?_
      by_cases hat : a = t
      · rw [hat]
        exact fun hc => hjt hc.symm
      · exact hno a h1 h2 (by omega)
  · -- a word outside the range is not written
    have hsame : merge (fun _ => decide (lo ≤ t ∧ t < y.model.memTop)) (y.model.mem t)
        (y.core.memoryBlock (t % words)) = y.core.memoryBlock (t % words) := by
      funext l
      rw [merge_apply, if_neg (by simpa using hin)]
    rw [hsame, Function.update_eq_self]
    exact h.cache j hj fun a h1 h2 h3 => hno a h1 h2 (by omega)

include hsz in
theorem Filling.beat {lo t : Nat} (h : Filling words y lo t) {m : BurstSlave}
    (hfills : fills y.core m = true) (hcmd : i.cpu.cmd = .idle) (hdata : m.data = y.model.mem t)
    (st : Fsm) (rd : Nat) (phase : Phase) :
    Filling words
      ⟨{ y.core with
          transferAddrReg := 4 * (t + 1)
          newMemTopReg := 4 * y.model.memTop
          memTopReg := if y.model.memTop ≤ t then 4 * y.model.memTop else y.core.memTopReg
          memoryBlock := mbWrite words y.core i.cpu m
          stateReg := st
          rdAddrReg := rd
          responseToCPUReg := .null },
        ⟨phase, y.slave.mem⟩, y.model, none, y.spilled⟩ lo (t + 1) := by
  refine ⟨h.le, rfl, rfl, h.mem, h.filled, h.write_cache hsz hsz.words_pos hfills hcmd hdata, ?_⟩
  by_cases hd : y.model.memTop ≤ t
  · exact .inr ⟨Nat.le_succ_of_le hd, if_pos hd⟩
  · simp only [if_neg hd]
    exact .inl (h.memTop.resolve_right fun hc => hd hc.1)

include hsz h hleg in
theorem inv_of_waitFill (hst : y.core.stateReg = .waitFillState) :
    Inv words burstLength mem₀ (next words burstLength y i) := by
  have hne : y.core.stateReg ≠ .idleState := by rw [hst]; simp
  have htransfer := h.transfer
  simp only [Transfer, hst] at htransfer
  obtain ⟨lo, t, hf, hphase, hle⟩ := htransfer
  have hcmd := (hleg.busy hne).2
  have hburst := hsz.two_le_burst
  have hburst' := hsz.burst_le
  have hlt : t % burstLength < burstLength := Nat.mod_lt _ (by omega)
  have hmodle : t % burstLength ≤ t := Nat.mod_le _ _
  obtain ⟨-, hsize, hbound⟩ := h.pointers
  have hresp : (fromMemory words y i).resp = if i.choice.go then .dva else .null := by
    simp [fromMemory, Slave.out, hphase, Slave.respOf, hleg.noErr]
  have hnext := next_of_busy (B := burstLength) hleg hne
  cases hgo : i.choice.go
  · -- no beat in this cycle
    rw [hgo] at hresp
    have hfill : fills y.core (fromMemory words y i) = false := by simp [fills, hresp]
    rw [Slave.next_of_read_wait hphase hgo, mbWrite_eq_self (by rw [hcmd]; simp) hfill] at hnext
    simp only [control, hst, hresp, Bool.false_eq_true, reduceCtorEq, if_false] at hnext
    refine h.of_next hnext rfl (fun _ _ => rfl) ?_
    simp only [Transfer]
    exact ⟨lo, t, { hf with }, hphase, hle⟩
  · rw [hgo] at hresp
    have hdata : (fromMemory words y i).data = y.model.mem t := by
      rw [← hf.mem]
      simp [fromMemory, Slave.out, hphase, hgo, hleg.noErr, Nat.sub_add_cancel hmodle]
    have hfills : fills y.core (fromMemory words y i) = true := by simp [fills, hst, hresp]
    have hadvance : nextTransferAddr y.core = 4 * (t + 1) := by
      rw [nextTransferAddr, hf.transfer, Nat.mod_eq_of_lt (by omega)]
      omega
    have hbeat := hf.beat hsz hfills hcmd hdata
    rw [Slave.next_of_read hphase hgo] at hnext
    simp only [control, hst, hresp, if_true, hadvance, hf.done_eq, hf.newTop, decide_eq_true_eq,
      hsz.burstCounter_eq hf.transfer] at hnext
    refine h.of_next hnext rfl (fun _ _ => rfl) ?_
    by_cases hlast : t % burstLength = burstLength - 1
    · by_cases hd : y.model.memTop ≤ t
      · simp only [Transfer, if_pos hlast, if_pos hd]
        refine ⟨rfl, fun j hj => ?_, if_pos (by omega), hf.mem⟩
        exact hf.write_cache hsz hsz.words_pos hfills hcmd hdata j hj fun a _ h2 h3 => by omega
      · simp only [Transfer, if_pos hlast, if_neg hd]
        have hbeat' := hbeat .fillState
        simp only [if_neg hd] at hbeat'
        exact ⟨lo, t + 1, hbeat' _ _, if_pos (by omega),
          succ_mod_of_last (by omega) hlast, by omega⟩
    · have hmod' : (t + 1) % burstLength = t % burstLength + 1 :=
        succ_mod_of_ne_last (by omega) hlast
      have hbase : t + 1 - (t + 1) % burstLength = t - t % burstLength := by omega
      simp only [Transfer, if_neg hlast]
      refine ⟨lo, t + 1, hbeat _ _ _, ?_, by omega⟩
      rw [if_neg (by omega), hbase, hmod']

end Busy

end Sys

end Patmos.StackCache
