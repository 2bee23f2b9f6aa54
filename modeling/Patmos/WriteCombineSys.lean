import Patmos.WriteCombineBuffer
import Mathlib.Tactic.Ring
import Mathlib.Tactic.Positivity

/-!
# The memory behind the write-combine buffer

The buffer runs between its two masters and a burst memory.  What the masters may rely on
is a memory that takes each write when its response arrives; `Spec` follows it at the two
ports, with the transaction that is outstanding.

The slave memory overlaid with the pending bytes of the buffer is that memory whenever no
write is on its way.  During a write the relation between the two depends on how far the
transaction has come, so the invariant has one case for each kind of transaction.
-/

namespace Patmos.WriteCombineBuffer

open Clocked Ocp

/-! ### What the masters see -/

/-- The outstanding transaction.  A burst write carries the memory with its words so
    far. -/
inductive Txn where
  | none
  | write (addr : Nat) (be : ByteEn) (w : Word)
  | readCmd
  | read (base done : Nat)
  | burstCmd
  | burst (base done : Nat) (words : Memory)
  | burstResp (words : Memory)

/-- All completed writes are in `mem`. -/
structure Spec where
  mem : Memory
  txn : Txn

namespace Spec

variable (burstLength : Nat)

/-- The outstanding transaction in a cycle with these responses.  A command that was not
    accepted yet is presented again. -/
def finish (p : Spec) (r : BurstMaster) (resp : OcpResp) (m : BurstSlave) : Spec :=
  match p.txn with
  | .none | .readCmd | .burstCmd => { p with txn := .none }
  | .write a be w => if resp ≠ .null then ⟨p.mem.write a be w, .none⟩ else p
  | .read base done =>
    if m.resp ≠ .null then
      { p with txn := if done + 1 = burstLength then .none else .read base (done + 1) }
    else p
  | .burst base done words =>
    if r.dataValid && m.dataAccept then
      let words' := words.write (base + done) r.dataByteEn r.data
      ⟨p.mem, if done + 1 = burstLength then .burstResp words'
        else .burst base (done + 1) words'⟩
    else p
  | .burstResp words => if m.resp ≠ .null then ⟨words, .none⟩ else p

/-- A new transaction. -/
def issue (p : Spec) (i : Inputs) (m : BurstSlave) : Spec :=
  if i.writeMaster.cmd = .wr then
    { p with txn := .write (i.writeMaster.addr / 4) i.writeMaster.byteEn i.writeMaster.data }
  else
    match i.readMaster.cmd with
    | .idle => p
    | .rd =>
      { p with txn := if m.cmdAccept then .read (i.readMaster.addr / 4) 0 else .readCmd }
    | .wr =>
      let words :=
        p.mem.write (i.readMaster.addr / 4) i.readMaster.dataByteEn i.readMaster.data
      { p with txn := if m.cmdAccept then .burst (i.readMaster.addr / 4) 1 words else .burstCmd }

def next (p : Spec) (i : Inputs) (resp : OcpResp) (m : BurstSlave) : Spec :=
  let p1 := finish burstLength p i.readMaster resp m
  match p1.txn with
  | .none => issue p1 i m
  | _ => p1

/-- The last response of a transaction arrives. -/
def Completes (p : Spec) (resp : OcpResp) (m : BurstSlave) : Prop :=
  match p.txn with
  | .write _ _ _ => resp ≠ .null
  | .read _ done => m.resp ≠ .null ∧ done + 1 = burstLength
  | .burstResp _ => m.resp ≠ .null
  | _ => False

end Spec

/-! ### The buffer between masters and memory -/

structure Sys where
  core : State
  slave : Slave
  spec : Spec

structure SysInputs where
  masters : Inputs
  choice : Choice

namespace Sys

section Step

variable (burstLength : Nat) (y : Sys) (i : SysInputs)

def fromSlave : BurstSlave := y.slave.out (toSlave burstLength y.core i.masters) i.choice

/-- The response that `writeMaster` sees. -/
def writeResp : OcpResp := toWriteMaster y.core (fromSlave burstLength y i)

/-- The signals that `readMaster` sees. -/
def readPort : BurstSlave := toReadMaster y.core (fromSlave burstLength y i)

def next : Sys where
  core := WriteCombineBuffer.next burstLength y.core i.masters (fromSlave burstLength y i)
  slave := y.slave.next burstLength (toSlave burstLength y.core i.masters) i.choice
  spec := y.spec.next burstLength i.masters (writeResp burstLength y i) (readPort burstLength y i)

def finished : Spec :=
  y.spec.finish burstLength i.masters.readMaster (writeResp burstLength y i)
    (readPort burstLength y i)

/-- Masters with at most one outstanding transaction, which may start a transaction in the
    cycle in which the last one completes, and a memory that reports no error. -/
structure Legal : Prop where
  noErr : i.choice.err = false
  exclusive : i.masters.writeMaster.cmd = .wr → i.masters.readMaster.cmd = .idle
  aligned : i.masters.readMaster.cmd ≠ .idle → i.masters.readMaster.addr % (4 * burstLength) = 0
  valid : i.masters.readMaster.cmd = .wr → i.masters.readMaster.dataValid = true
  busy : (finished burstLength y i).txn ≠ .none →
    i.masters.writeMaster.cmd ≠ .wr ∧ i.masters.readMaster.cmd = .idle
  heldRead : y.spec.txn = .readCmd → i.masters.readMaster.cmd = .rd
  heldBurst : y.spec.txn = .burstCmd → i.masters.readMaster.cmd = .wr
  words : ∀ base done words, y.spec.txn = .burst base done words →
    i.masters.readMaster.dataValid = true

end Step

/-! ### The overlaid memory -/

variable (burstLength : Nat)

/-- The memory with the pending bytes of the buffer. -/
def overlay (s : State) (mem : Memory) : Memory := fun a =>
  if a / burstLength = s.tagReg then
    merge (s.byteEnBuffer (a % burstLength)) (s.dataBuffer (a % burstLength)) (mem a)
  else mem a

/-- What the masters observe in a cycle.  The memory in `completed` is the one before the
    cycle, because the first word of a next burst write may be accepted in it. -/
structure Observed (y : Sys) (i : SysInputs) : Prop where
  idle : y.spec.txn = .none → overlay burstLength y.core y.slave.mem = y.spec.mem
  beat : ∀ base done, y.spec.txn = .read base done → (readPort burstLength y i).resp ≠ .null →
    (readPort burstLength y i).data = overlay burstLength y.core y.slave.mem (base + done) ∧
    (readPort burstLength y i).data = y.spec.mem (base + done)
  completed :
    y.spec.Completes burstLength (writeResp burstLength y i) (readPort burstLength y i) →
    overlay burstLength (next burstLength y i).core y.slave.mem =
        (next burstLength y i).spec.mem ∧
      ((∀ base done words, (next burstLength y i).spec.txn ≠ .burst base done words) →
        (next burstLength y i).slave.mem = y.slave.mem)

/-! ### The invariant -/

/-- No word of a transaction is on its way. -/
structure Clean (y : Sys) : Prop where
  cnt : y.core.cntReg = 0
  phase : y.slave.phase = .idle
  overlay : overlay burstLength y.core y.slave.mem = y.spec.mem

/-- The line `line` is being sent, and `k` of its words have been replaced by those of the
    line of the write to `a`. -/
structure Evicting (y : Sys) (a : Nat) (be : ByteEn) (w : Word) (line k : Nat) : Prop where
  cnt : y.core.cntReg = k
  lt : k < burstLength
  ne : line ≠ a / burstLength
  phase : y.slave.phase = if k = 0 then .idle else .write (line * burstLength) k
  tag : y.core.tagReg = if k = 0 then line else a / burstLength
  mem : ∀ x, y.spec.mem x =
    if x / burstLength = line ∧ k ≤ x % burstLength then
      merge (y.core.byteEnBuffer (x % burstLength)) (y.core.dataBuffer (x % burstLength))
        (y.slave.mem x)
    else y.slave.mem x
  enables : ∀ j < k, y.core.byteEnBuffer j = if j = a % burstLength then be else noBytes
  data : a % burstLength < k → y.core.dataBuffer (a % burstLength) = w

structure Writing (y : Sys) (a : Nat) (be : ByteEn) (w : Word) : Prop where
  addr : y.core.writeMasterReg.addr / 4 = a
  byteEn : y.core.writeMasterReg.byteEn = be
  data : y.core.writeMasterReg.data = w
  stage : y.core.state = .writeComb ∧ Clean burstLength y ∧
      y.core.tagReg = a / burstLength ∨
    y.core.state = .write ∧ (∃ line k, Evicting burstLength y a be w line k) ∨
    y.core.state = .writeResp ∧ y.core.cntReg = 0 ∧ y.slave.phase = .resp ∧
      overlay burstLength y.core y.slave.mem = y.spec.mem.write a be w

/-- `done` beats of a read have been returned. -/
structure Reading (y : Sys) (base done : Nat) : Prop where
  state : y.core.state = .read
  cnt : y.core.cntReg = done
  lt : done < burstLength
  aligned : base % burstLength = 0
  hit : y.core.hitReg = (y.core.tagReg == base / burstLength)
  phase : y.slave.phase = .read base done
  overlay : overlay burstLength y.core y.slave.mem = y.spec.mem

/-- A word of a burst write has been accepted that is not in the buffer yet. -/
structure Snooping (y : Sys) (base done : Nat) (words : Memory) : Prop where
  state : y.core.state = .writeSnoop
  accepted : y.core.dataAcceptReg = true
  cnt : y.core.cntReg + 1 = done
  overlay : overlay burstLength (snoopWord y.core) y.slave.mem = words
  aligned : base % burstLength = 0
  hit : y.core.hitReg = (y.core.tagReg == base / burstLength)

def Inv (y : Sys) : Prop :=
  match y.spec.txn with
  | .none => y.core.state = .idle ∧ Clean burstLength y
  | .write a be w => Writing burstLength y a be w
  | .readCmd => y.core.state = .read ∧ Clean burstLength y
  | .read base done => Reading burstLength y base done
  | .burstCmd => y.core.state = .writeSnoop ∧ y.core.dataAcceptReg = false ∧ Clean burstLength y
  | .burst base done words => Snooping burstLength y base done words ∧ done < burstLength ∧
      y.slave.phase = .write base done
  | .burstResp words => y.slave.phase = .resp ∧
      ((∃ base, Snooping burstLength y base burstLength words) ∨
        y.core.state = .idle ∧ y.core.cntReg = 0 ∧
          overlay burstLength y.core y.slave.mem = words)

/-! ### Lines and words -/

/-- The burst lengths of the circuit. -/
def BurstLength : Prop := ∃ b, 1 ≤ b ∧ burstLength = 2 ^ b

section Arithmetic

variable {burstLength} (hB : BurstLength burstLength)

include hB

theorem BurstLength.two_le : 2 ≤ burstLength := by
  obtain ⟨b, hb, rfl⟩ := hB
  exact Nat.le_self_pow (by omega) 2

theorem BurstLength.pow_eq : 2 ^ MemBlock.log2Up burstLength = burstLength := by
  obtain ⟨b, hb, rfl⟩ := hB
  exact MemBlock.pow_log2Up hb rfl

theorem BurstLength.tagOf_eq (addr : Nat) : tagOf burstLength addr = addr / 4 / burstLength := by
  rw [tagOf, Nat.pow_add, hB.pow_eq, Nat.div_div_eq_div_mul, Nat.mul_comm 4]

theorem BurstLength.posOf_eq (addr : Nat) : posOf burstLength addr = addr / 4 % burstLength := by
  rw [posOf, hB.pow_eq]

theorem BurstLength.cntInc_eq (s : State) :
    cntInc burstLength s = (s.cntReg + 1) % burstLength := by
  rw [cntInc, hB.pow_eq]

theorem BurstLength.lineAddr_eq (tag : Nat) :
    tag * 2 ^ (MemBlock.log2Up burstLength + 2) / 4 = tag * burstLength := by
  rw [Nat.pow_add, hB.pow_eq, ← Nat.mul_assoc]
  exact Nat.mul_div_cancel _ (by omega)

end Arithmetic

theorem div_of_aligned {B base done : Nat} (h : base % B = 0) (hlt : done < B) :
    (base + done) / B = base / B ∧ (base + done) % B = done := by
  refine (MemBlock.eq_line_add hlt).mp ?_
  rw [Nat.div_mul_cancel (Nat.dvd_of_mod_eq_zero h)]

section Overlay

variable {burstLength}

theorem overlay_congr {s s' : State} (htag : s'.tagReg = s.tagReg)
    (hdata : s'.dataBuffer = s.dataBuffer) (hbe : s'.byteEnBuffer = s.byteEnBuffer)
    (mem : Memory) : overlay burstLength s' mem = overlay burstLength s mem := by
  unfold overlay
  rw [htag, hdata, hbe]

theorem merge_combine (old be : ByteEn) (d w m : Word) :
    merge (fun l => old l || be l) (merge be w d) m = merge be w (merge old d m) := by
  funext l
  cases hb : be l <;> simp [merge, hb]

/-- Combining a word into the buffer writes it to the overlaid memory. -/
theorem overlay_combine {pos : Nat} (hpos : pos < burstLength) (s : State) (be : ByteEn)
    (w : Word) (mem : Memory) :
    overlay burstLength (combine s pos be w) mem =
      (overlay burstLength s mem).write (s.tagReg * burstLength + pos) be w := by
  funext a
  rw [Memory.write_apply]
  by_cases ha : a = s.tagReg * burstLength + pos
  · obtain ⟨hline, hmod⟩ := (MemBlock.eq_line_add hpos).mp ha
    rw [if_pos ha, ← ha]
    simp only [overlay, combine, hline, hmod, if_true, Function.update_self]
    exact merge_combine _ _ _ _ _
  · rw [if_neg ha]
    by_cases hline : a / burstLength = s.tagReg
    · have hmod : a % burstLength ≠ pos := fun h => ha ((MemBlock.eq_line_add hpos).mpr ⟨hline, h⟩)
      simp only [overlay, combine, hline, if_true, Function.update_of_ne hmod]
    · simp only [overlay, combine, hline, if_false]

/-- A word written to the memory reaches the overlaid memory when a buffer of that line
    takes it as well. -/
theorem overlay_snoop {x : Nat} (hpos : 0 < burstLength) (s : State) (be : ByteEn) (w : Word)
    (mem : Memory) :
    overlay burstLength
        (if s.tagReg == x / burstLength then combine s (x % burstLength) be w else s)
        (mem.write x be w) =
      (overlay burstLength s mem).write x be w := by
  have hlt : x % burstLength < burstLength := Nat.mod_lt _ hpos
  by_cases hline : s.tagReg = x / burstLength
  · rw [if_pos (beq_iff_eq.mpr hline), overlay_combine hlt, hline, mul_comm, Nat.div_add_mod]
    funext a
    by_cases ha : a = x
    · rw [ha, Memory.write_self, Memory.write_self]
      simp only [overlay, hline, if_true, Memory.write_self]
      funext l
      cases hb : be l <;> simp [merge, hb]
    · rw [Memory.write_of_ne _ ha, Memory.write_of_ne _ ha]
      simp only [overlay, Memory.write_of_ne _ ha]
  · rw [if_neg (by simpa using hline)]
    funext a
    by_cases ha : a = x
    · rw [ha, Memory.write_self]
      simp only [overlay, Ne.symm hline, if_false, Memory.write_self]
    · rw [Memory.write_of_ne _ ha]
      simp only [overlay, Memory.write_of_ne _ ha]

@[simp] theorem snoopWord_tagReg (s : State) : (snoopWord s).tagReg = s.tagReg := by
  unfold snoopWord combine
  split <;> rfl

@[simp] theorem snoopWord_hitReg (s : State) : (snoopWord s).hitReg = s.hitReg := by
  unfold snoopWord combine
  split <;> rfl

end Overlay

/-! ### Starting a transaction -/

section Issue

variable {burstLength} {y y' : Sys} {i : SysInputs} {m : BurstSlave} {s : State} {p : Spec}

/-- The slave in a cycle with the signals `r` and `m`, after which it serves at most a command of
    that cycle. -/
structure Frees (y y' : Sys) (r : BurstMaster) (m : BurstSlave) : Prop where
  accepts : r.cmd ≠ .idle → m.dataAccept = m.cmdAccept
  quiet : r.cmd = .idle ∨ m.cmdAccept = false → y'.slave = ⟨.idle, y.slave.mem⟩
  read : r.cmd = .rd → m.cmdAccept = true → y'.slave = ⟨.read (r.addr / 4) 0, y.slave.mem⟩
  burst : r.cmd = .wr → r.dataValid = true → m.cmdAccept = true → y'.slave =
    ⟨.write (r.addr / 4) 1, y.slave.mem.write (r.addr / 4) r.dataByteEn r.data⟩

theorem toSlave_of_ne (h : y.core.state ≠ .write) :
    toSlave burstLength y.core i.masters = i.masters.readMaster := by
  simp [toSlave, h]

theorem frees_of_idle (hB : BurstLength burstLength) (hst : y.core.state ≠ .write)
    (hphase : y.slave.phase = .idle) :
    Frees y (next burstLength y i) i.masters.readMaster (fromSlave burstLength y i) := by
  have hto : toSlave burstLength y.core i.masters = i.masters.readMaster := toSlave_of_ne hst
  have hout : fromSlave burstLength y i =
      ⟨.null, i.choice.junk, i.choice.accept, i.choice.accept⟩ := by
    simp [fromSlave, Slave.out, hphase]
  have htwo := hB.two_le
  have hmem : y.slave = ⟨.idle, y.slave.mem⟩ := by rw [← hphase]
  rw [hout]
  constructor
  · intro _
    rfl
  · rintro (hcmd | hacc)
    · refine Eq.trans (Slave.next_of_noCmd hphase ?_) hmem
      rw [hto]
      exact hcmd
    · exact Eq.trans (Slave.next_of_wait hphase hacc) hmem
  · intro hcmd hacc
    change y.slave.next burstLength _ _ = _
    rw [hto]
    exact Slave.next_of_rd hphase hacc hcmd
  · intro hcmd hvalid hacc
    change y.slave.next burstLength _ _ = _
    rw [hto, Slave.next_of_wr hphase hacc hcmd hvalid, if_neg (by omega)]

/-- A slave that gives its last response accepts nothing in that cycle. -/
theorem frees_of_last (hphase : y.slave.phase ≠ .idle)
    (hwrite : ∀ a k, y.slave.phase ≠ .write a k) (hst : y.core.state ≠ .write)
    (hlast : (next burstLength y i).slave = ⟨.idle, y.slave.mem⟩) :
    Frees y (next burstLength y i) i.masters.readMaster (fromSlave burstLength y i) := by
  have hbusy : i.masters.readMaster.cmd ≠ .idle → (fromSlave burstLength y i).cmdAccept = false ∧
      (fromSlave burstLength y i).dataAccept = false := by
    intro hcmd
    rw [fromSlave, toSlave_of_ne hst]
    cases hp : y.slave.phase with
    | idle => exact absurd hp hphase
    | write a k => exact absurd hp (hwrite a k)
    | read _ _ | resp => simp [Slave.out, hp, Slave.busyAccept, hcmd]
  refine ⟨fun hcmd => (hbusy hcmd).2.trans (hbusy hcmd).1.symm, fun _ => hlast, ?_, ?_⟩
  · intro hcmd hacc
    rw [(hbusy (by simp [hcmd])).1] at hacc
    cases hacc
  · intro hcmd _ hacc
    rw [(hbusy (by simp [hcmd])).1] at hacc
    cases hacc

theorem spec_of_finished (hfin : finished burstLength y i = p) (h : p.txn = .none) :
    (next burstLength y i).spec = p.issue i.masters (readPort burstLength y i) := by
  change (match (finished burstLength y i).txn with
    | .none => (finished burstLength y i).issue i.masters (readPort burstLength y i)
    | _ => finished burstLength y i) = _
  rw [hfin, h]

theorem spec_of_busy (hfin : finished burstLength y i = p) (h : p.txn ≠ .none) :
    (next burstLength y i).spec = p := by
  change (match (finished burstLength y i).txn with
    | .none => (finished burstLength y i).issue i.masters (readPort burstLength y i)
    | _ => finished burstLength y i) = _
  rw [hfin]
  cases hf : p.txn with
  | none => exact absurd hf h
  | write _ _ _ | readCmd | read _ _ | burstCmd | burst _ _ _ | burstResp _ => rfl

/-- The buffer after the blocks for its state. -/
def advanced (burstLength : Nat) (y : Sys) (i : SysInputs) : State :=
  advance burstLength y.core (fromSlave burstLength y i)

theorem core_of_noCmd (burstLength : Nat) (y : Sys) (hr : i.masters.readMaster.cmd = .idle)
    (hw : i.masters.writeMaster.cmd ≠ .wr) :
    (next burstLength y i).core = { advanced burstLength y i with
      readMasterReg := i.masters.readMaster
      dataAcceptReg := (fromSlave burstLength y i).dataAccept } := by
  simp [next, WriteCombineBuffer.next, start, advanced, hr, hw]

/-- What a cycle that leads to `y'` establishes. -/
structure Handover (burstLength : Nat) (y y' : Sys) : Prop where
  inv : Inv burstLength y'
  overlay : overlay burstLength y'.core y.slave.mem = y'.spec.mem
  mem : (∀ base done words, y'.spec.txn ≠ .burst base done words) → y'.slave.mem = y.slave.mem

/-- The old transaction ends in a cycle that leads to `y'`: the slave answers `m`, the buffer
    advances to `s`, and nothing is outstanding in `p`. -/
structure Freed (burstLength : Nat) (y : Sys) (i : SysInputs) (y' : Sys) (m : BurstSlave)
    (s : State) (p : Spec) : Prop where
  next : y' = next burstLength y i
  out : fromSlave burstLength y i = m
  advanced : advanced burstLength y i = s
  finished : finished burstLength y i = p
  txn : p.txn = .none
  slave : Frees y y' i.masters.readMaster m
  mem : overlay burstLength s y.slave.mem = p.mem
  cnt : s.cntReg = 0
  tag : s.tagReg = y.core.tagReg
  state : i.masters.readMaster.cmd = .idle → s.state = .idle

section Free

variable {wm : CacheMaster} {r : BurstMaster} {c : Choice}
  (h : Freed burstLength y ⟨⟨wm, r⟩, c⟩ y' m s p) (hB : BurstLength burstLength)
  (hleg : Legal burstLength y ⟨⟨wm, r⟩, c⟩)
include h

theorem Freed.core : y'.core = { start burstLength y.core.tagReg s ⟨wm, r⟩ with
    readMasterReg := r
    dataAcceptReg := m.dataAccept } := by
  rw [h.next, ← h.advanced, ← h.out]
  rfl

theorem Freed.spec : y'.spec = p.issue ⟨wm, r⟩ m := by
  rw [h.next, spec_of_finished h.finished h.txn, ← h.out]
  rfl

theorem Freed.overlay : overlay burstLength y'.core y.slave.mem = y'.spec.mem := by
  obtain ⟨htag, hdata, hbe⟩ := start_frame burstLength y.core.tagReg s ⟨wm, r⟩
  rw [h.core, h.spec, Spec.issue]
  refine (overlay_congr htag hdata hbe _).trans (h.mem.trans ?_)
  split
  · rfl
  · cases r.cmd <;> rfl

theorem Freed.handover_of_noCmd (hr : r.cmd = .idle) (hw : wm.cmd ≠ .wr) :
    Handover burstLength y y' := by
  have hslave := h.slave.quiet (Or.inl hr)
  have hcore := h.core
  have hissue : y'.spec = p := by simp [h.spec, Spec.issue, hw, hr]
  simp only [start, hr, hw, reduceCtorEq, if_false] at hcore
  refine ⟨?_, h.overlay, fun _ => by rw [hslave]⟩
  simp only [Inv, hissue, h.txn]
  refine ⟨?_, ?_, ?_, ?_⟩
  · rw [hcore]
    exact h.state hr
  · rw [hcore]
    exact h.cnt
  · rw [hslave]
  · rw [hslave, h.overlay, hissue]

include hB

/-- A write of one word starts: into the buffer when it is for the buffered line, and after the
    eviction of that line otherwise. -/
theorem Freed.handover_of_write (hw : wm.cmd = .wr) (hr : r.cmd = .idle) :
    Handover burstLength y y' := by
  have hslave := h.slave.quiet (Or.inl hr)
  have hissue : y'.spec = ⟨p.mem, .write (wm.addr / 4) wm.byteEn wm.data⟩ := by
    simp [h.spec, Spec.issue, hw]
  have hcore := h.core
  simp only [start, hr, hw, reduceCtorEq, if_false, if_true, hB.tagOf_eq] at hcore
  have hover : Sys.overlay burstLength y'.core y'.slave.mem = y'.spec.mem := by
    rw [hslave]
    exact h.overlay
  refine ⟨?_, h.overlay, fun _ => by rw [hslave]⟩
  simp only [Inv, hissue]
  refine ⟨by rw [hcore], by rw [hcore], by rw [hcore], ?_⟩
  by_cases hhit : y.core.tagReg = wm.addr / 4 / burstLength
  · refine Or.inl ⟨?_, ⟨?_, ?_, hover⟩, ?_⟩
    · rw [hcore]
      exact if_pos hhit
    · rw [hcore]
      exact h.cnt
    · rw [hslave]
    · rw [hcore, ← hhit]
      exact h.tag
  · refine Or.inr (Or.inl ⟨?_, y.core.tagReg, 0, ⟨?_, ?_, hhit, ?_, ?_, ?_, ?_, ?_⟩⟩)
    · rw [hcore]
      exact if_neg hhit
    · rw [hcore]
      exact h.cnt
    · have := hB.two_le
      omega
    · rw [hslave, if_pos rfl]
    · rw [hcore, if_pos rfl]
      exact h.tag
    · intro x
      have htag : y'.core.tagReg = y.core.tagReg := by
        rw [hcore]
        exact h.tag
      rw [← hover]
      simp only [Sys.overlay, htag, Nat.zero_le, and_true]
    · intro j hj
      exact absurd hj (Nat.not_lt_zero j)
    · intro hj
      exact absurd hj (Nat.not_lt_zero _)

include hleg

omit h hB in
theorem Legal.base_mod (hr : r.cmd ≠ .idle) : r.addr / 4 % burstLength = 0 := by
  obtain ⟨q, hq⟩ := Nat.dvd_of_mod_eq_zero (hleg.aligned hr)
  change r.addr = _ at hq
  rw [hq, Nat.mul_assoc, Nat.mul_div_cancel_left _ (by omega), Nat.mul_mod_right]

/-- A burst read starts, or asks again in the next cycle. -/
theorem Freed.handover_of_read (hw : wm.cmd ≠ .wr) (hr : r.cmd = .rd) :
    Handover burstLength y y' := by
  have hcore := h.core
  simp only [start, hr, hw, reduceCtorEq, if_false, if_true, hB.tagOf_eq] at hcore
  have hissue : y'.spec =
      ⟨p.mem, if m.cmdAccept then .read (r.addr / 4) 0 else .readCmd⟩ := by
    simp only [h.spec, Spec.issue, hw, hr, if_false]
  have hslavemem : y'.slave.mem = y.slave.mem := by
    cases hacc : m.cmdAccept with
    | false => rw [h.slave.quiet (Or.inr hacc)]
    | true => rw [h.slave.read hr hacc]
  have hover : Sys.overlay burstLength y'.core y'.slave.mem = y'.spec.mem := by
    rw [hslavemem]
    exact h.overlay
  refine ⟨?_, h.overlay, fun _ => hslavemem⟩
  cases hacc : m.cmdAccept with
  | false =>
    simp only [Inv, hissue, hacc, Bool.false_eq_true, if_false]
    refine ⟨by rw [hcore], ?_, ?_, hover⟩
    · rw [hcore]
      exact h.cnt
    · rw [h.slave.quiet (Or.inr hacc)]
  | true =>
    simp only [Inv, hissue, hacc, if_true]
    refine ⟨by rw [hcore], ?_, ?_, hleg.base_mod (by simp [hr]), ?_, ?_, hover⟩
    · rw [hcore]
      exact h.cnt
    · have := hB.two_le
      omega
    · rw [hcore]
      exact congrArg (· == _) h.tag.symm
    · rw [h.slave.read hr hacc]

/-- A burst write starts, or asks again in the next cycle.  Its first word waits in
    `readMasterReg` for the buffer. -/
theorem Freed.handover_of_burst (hw : wm.cmd ≠ .wr) (hr : r.cmd = .wr) :
    Handover burstLength y y' := by
  have hover := h.overlay
  have hcore := h.core
  simp only [start, hr, hw, reduceCtorEq, if_false, if_true, hB.tagOf_eq] at hcore
  have hissue : y'.spec = ⟨p.mem, if m.cmdAccept then
      .burst (r.addr / 4) 1 (p.mem.write (r.addr / 4) r.dataByteEn r.data) else .burstCmd⟩ := by
    simp only [h.spec, Spec.issue, hw, hr, if_false]
  have hdata := h.slave.accepts (by simp [hr])
  cases hacc : m.cmdAccept with
  | false =>
    have hslave := h.slave.quiet (Or.inr hacc)
    refine ⟨?_, hover, fun _ => by rw [hslave]⟩
    simp only [Inv, hissue, hacc, Bool.false_eq_true, if_false]
    refine ⟨by rw [hcore], ?_, ?_, ?_, ?_⟩
    · rw [hcore]
      exact hdata.trans hacc
    · rw [hcore]
      exact h.cnt
    · rw [hslave]
    · rw [hslave]
      exact hover
  | true =>
    have hslave := h.slave.burst hr (hleg.valid hr) hacc
    have hbase := hleg.base_mod (by simp [hr])
    have htwo := hB.two_le
    refine ⟨?_, hover, ?_⟩
    · simp only [Inv, hissue, hacc, if_true]
      refine ⟨⟨by rw [hcore], ?_, ?_, ?_, hbase, ?_⟩, by omega, by rw [hslave]⟩
      · rw [hcore]
        exact hdata.trans hacc
      · rw [hcore]
        exact congrArg (· + 1) h.cnt
      · have hsnoop : snoopWord y'.core = if y'.core.tagReg == r.addr / 4 / burstLength then
            combine y'.core (r.addr / 4 % burstLength) r.dataByteEn r.data else y'.core := by
          rw [hbase, hcore]
          simp only [snoopWord, h.cnt, h.tag]
        rw [hsnoop, hslave, overlay_snoop (by omega), hover, hissue]
      · rw [hcore]
        exact congrArg (· == _) h.tag.symm
    · intro hno
      rw [hissue] at hno
      simp only [hacc, if_true] at hno
      exact absurd rfl (hno _ _ _)

/-- With nothing left of the old transaction, a new one starts in any way that the masters
    may start one. -/
theorem Freed.handover : Handover burstLength y y' := by
  by_cases hw : wm.cmd = .wr
  · exact h.handover_of_write hB hw (hleg.exclusive hw)
  · cases hr : r.cmd with
    | idle => exact h.handover_of_noCmd hr hw
    | rd => exact h.handover_of_read hB hleg hw hr
    | wr => exact h.handover_of_burst hB hleg hw hr

end Free

end Issue

end Sys

end Patmos.WriteCombineBuffer
