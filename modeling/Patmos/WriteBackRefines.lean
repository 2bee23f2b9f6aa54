import Patmos.Clocked
import Patmos.WriteBackLines

/-!
# The write-back cache implements a memory

The cache with a burst memory behind it, and beside it the memory `spec` that the core believes
to have: the first contents of the memory with all stores that were answered.  A command goes
through stages, each with a lemma about one cycle: the lookup, which may answer at once; the
write-back of a dirty line, the wait for its answer, the request of the new line and the fill;
and the answer after it.

A write-back only works when its first word is accepted in the first cycle.  Otherwise the read
port has moved on, and the second word is sent in the place of the first.
-/

namespace Patmos.DirectMappedCacheWriteBack

open Ocp Clocked
open DirectMappedCache (Inputs lineBits tagCount missIndexBits lineIndex tagOf wordIndex
  missIndex vecRead vecWrite vecWrite_of_lt lineBase sets)

/-- The cache, the memory, what the core believes the memory to be, and the command that waits
    for its answer. -/
structure Sys where
  core : State
  slave : Slave
  spec : Memory
  pend : Option CacheMaster

structure Cycle where
  core : Inputs
  mem : Choice

namespace Sys

section

variable (size burstLength : Nat)

/-- `io.slave.S`. -/
def fromSlave (y : Sys) (c : Cycle) : BurstSlave :=
  y.slave.out (toSlave size burstLength y.core c.core) c.mem

/-- `io.master.S`. -/
def answer (y : Sys) (c : Cycle) : CoreSlave := toMaster size burstLength y.core c.core

def next (y : Sys) (c : Cycle) : Sys where
  core := DirectMappedCacheWriteBack.next size burstLength y.core c.core
    (y.fromSlave size burstLength c)
  slave := y.slave.next burstLength (toSlave size burstLength y.core c.core) c.mem
  spec := if (y.answer size burstLength c).resp = .null then y.spec
    else y.pend.elim y.spec (effect y.spec)
  pend := if c.core.master.cmd ≠ .idle then some c.core.master
    else if (y.answer size burstLength c).resp = .null then y.pend else none

/-- One command at a time, no invalidation, and a memory that answers without errors. -/
structure Legal (y : Sys) (c : Cycle) : Prop where
  noErr : c.mem.err = false
  keep : c.core.invalidate = false
  busy : y.pend ≠ none → (y.answer size burstLength c).resp = .null →
    c.core.master.cmd = .idle

/-- A write-back is accepted in its first cycle, and a command that misses is for a word whose
    position in its line `missIndexReg` can hold. -/
structure Served (y : Sys) (c : Cycle) : Prop where
  accept : y.core.stateReg = .write → y.core.burstCntReg = 0 → c.mem.accept = true
  position : miss size burstLength y.core c.core = true →
    missIndex burstLength y.core.masterReg.addr < 2 ^ missIndexBits burstLength

/-- What the core observes: loads return what was stored last, there is no answer without a
    command, and while no command waits and in the state `idle`, the memory with the dirty lines
    over it is `spec`. -/
structure Observed (y : Sys) (c : Cycle) : Prop where
  load : ∀ q, y.pend = some q → q.cmd = .rd → (y.answer size burstLength c).resp ≠ .null →
    y.answer size burstLength c = ⟨.dva, y.spec (q.addr / 4)⟩
  silent : y.pend = none → (y.answer size burstLength c).resp = .null
  overlay : y.pend = none ∨ y.core.stateReg = .idle →
    overlay size burstLength y.core y.slave.mem = y.spec

/-! ### Stages -/

/-- No miss is being handled. -/
structure Ready (y : Sys) : Prop where
  state : y.core.stateReg = .idle
  fill : y.core.fillReg = false
  burst : y.core.burstCntReg = 0
  rdCnt : y.core.rdAddrCntReg = 0
  phase : y.slave.phase = .idle
  pend : y.pend = if y.core.masterReg.cmd = .idle then none else some y.core.masterReg
  look : y.core.masterReg.cmd ≠ .idle → Lookup size burstLength y.core
  coherent : Coherent size burstLength y.core y.slave.mem y.spec none fun _ => False

/-- The command `q` for the line `j` has missed. -/
structure Missed (y : Sys) (q : CacheMaster) (j : Nat) : Prop where
  line : lineIndex size burstLength q.addr = j
  pend : y.pend = some q
  issued : q.cmd ≠ .idle
  quiet : y.core.masterReg.cmd = .idle
  addr : y.core.masterReg.addr = q.addr
  read : y.core.doingRead = (q.cmd == .rd)
  data : q.cmd = .wr → y.core.coreWrDataReg = q.data ∧ y.core.coreByteEnReg = q.byteEn
  index : y.core.missIndexReg = missIndex burstLength q.addr
  valid : y.core.tagVMem j = true
  tag : y.core.tagMem j = tagOf size q.addr
  dirty : y.core.dirtyMem j = (q.cmd == .wr)

/-- The first `k` words of the line with tag `v` are back in the memory. -/
structure Writing (y : Sys) (q : CacheMaster) (j v k : Nat) : Prop where
  missed : y.Missed size burstLength q j
  state : y.core.stateReg = .write
  fill : y.core.fillReg = false
  lt : k < burstLength
  burst : y.core.burstCntReg = k
  rdCnt : y.core.rdAddrCntReg = (k + 1) % burstLength
  rd : y.core.rdAddrReg = j * burstLength + k
  addr : y.core.memWrAddrReg = lineBase size burstLength v j * 4
  phase : y.slave.phase = if k = 0 then .idle else .write (lineBase size burstLength v j) k
  words : ∀ p, p < burstLength →
    y.core.mem (j * burstLength + p) = y.spec (lineBase size burstLength v j + p)
  coherent : Coherent size burstLength y.core y.slave.mem y.spec (some j) fun a =>
    ∃ p, k ≤ p ∧ p < burstLength ∧ a = lineBase size burstLength v j + p

/-- The old line is back, or was not dirty. -/
structure Vacant (y : Sys) (q : CacheMaster) (j : Nat) : Prop where
  missed : y.Missed size burstLength q j
  fill : y.core.fillReg = false
  burst : y.core.burstCntReg = 0
  rdCnt : y.core.rdAddrCntReg = 0
  coherent : Coherent size burstLength y.core y.slave.mem y.spec (some j) fun _ => False

/-- The first `k` words of the new line have arrived. -/
structure Filling (y : Sys) (q : CacheMaster) (j k : Nat) : Prop where
  missed : y.Missed size burstLength q j
  burst : y.core.burstCntReg = k % burstLength
  rdCnt : y.core.rdAddrCntReg = 0
  bound : y.core.fillReg = true → y.core.wrAddrReg < size / 4
  words : ∀ p, p < k → settled y.core (j * burstLength + p) =
    effect y.spec q (lineBase size burstLength (tagOf size q.addr) j + p)
  caught : missIndex burstLength q.addr < k → y.core.slaveReg = ⟨.dva, y.spec (q.addr / 4)⟩
  coherent : Coherent size burstLength y.core y.slave.mem y.spec (some j) fun _ => False

inductive Stage (y : Sys) : Prop where
  | ready (h : y.Ready size burstLength)
  | writing (q : CacheMaster) (j v k : Nat) (h : y.Writing size burstLength q j v k)
  | waiting (q : CacheMaster) (j : Nat) (h : y.Vacant size burstLength q j)
      (hstate : y.core.stateReg = .writeWaitForResp) (hphase : y.slave.phase = .resp)
  | holding (q : CacheMaster) (j : Nat) (h : y.Vacant size burstLength q j)
      (hstate : y.core.stateReg = .hold) (hphase : y.slave.phase = .idle)
  | filling (q : CacheMaster) (j k : Nat) (h : y.Filling size burstLength q j k)
      (hstate : y.core.stateReg = .fill) (hlt : k < burstLength)
      (hphase : y.slave.phase = .read (lineBase size burstLength (tagOf size q.addr) j) k)
  | responding (q : CacheMaster) (j : Nat) (h : y.Filling size burstLength q j burstLength)
      (hstate : y.core.stateReg = .respond) (hphase : y.slave.phase = .idle)

/-! ### Progress -/

/-- The memory is ready to accept and to respond. -/
def willing (c : Cycle) : Bool := c.mem.accept && c.mem.go

/-- How many willing cycles a command needs at most before its answer. -/
def remaining (y : Sys) : Nat :=
  match y.core.stateReg with
  | .idle => 2 * burstLength + 3
  | .write => 2 * burstLength + 2 - y.core.burstCntReg
  | .writeWaitForResp => burstLength + 2
  | .hold => burstLength + 1
  | .fill => burstLength - y.core.burstCntReg
  | .respond => 0

/-- What a cycle that leads to `y'` establishes. -/
structure Step (y y' : Sys) (c : Cycle) : Prop where
  stage : y'.Stage size burstLength
  progress : (y.answer size burstLength c).resp = .null → y.pend ≠ none →
    y'.remaining burstLength + (willing c).toNat ≤ y.remaining burstLength

end

/-! ### Waiting -/

section Cycle

variable {size burstLength b n j : Nat} {y y' : Sys} {c : Cycle} {q : CacheMaster}
  (hs : Sized size burstLength b n) (hleg : Legal size burstLength y c)
  (hy : y' = y.next size burstLength c)

section Next

include hy

theorem next_state : y'.core.stateReg =
    nextState size burstLength y.core c.core (y.fromSlave size burstLength c) := by rw [hy]; rfl

theorem next_burst : y'.core.burstCntReg =
    if sent y.core (y.fromSlave size burstLength c) || beat y.core (y.fromSlave size burstLength c)
    then (y.core.burstCntReg + 1) % 2 ^ (lineBits burstLength - 2) else y.core.burstCntReg := by
  rw [hy]
  rfl

theorem next_rdCnt : y'.core.rdAddrCntReg =
    nextRdAddrCnt size burstLength y.core c.core (y.fromSlave size burstLength c) := by rw [hy]; rfl

theorem next_fill : y'.core.fillReg =
    beat y.core (y.fromSlave size burstLength c) := by rw [hy]; rfl

end Next

theorem resp_ne_err (hleg : Legal size burstLength y c) :
    (y.fromSlave size burstLength c).resp ≠ .err := Slave.resp_ne_err hleg.noErr

section Busy

variable (h : y.Missed size burstLength q j)
  (hstate : y.core.stateReg ≠ .idle ∧ y.core.stateReg ≠ .respond)
include h

theorem Missed.pend_ne : y.pend ≠ none := by
  rw [h.pend]
  exact Option.some_ne_none q

include hstate

/-- A miss is not answered before the fill is over. -/
theorem Missed.answer : (y.answer size burstLength c).resp = .null := by
  rw [Sys.answer, toMaster, if_neg hstate.2, hit_of_noCmd h.quiet]
  rfl

include hy

theorem Missed.spec : y'.spec = y.spec := by
  rw [hy]
  exact if_pos (h.answer hstate)

include hleg

omit hstate in
theorem Missed.kept : Kept y.core y'.core := by
  rw [hy]
  exact kept_of_noWrite (miss_of_noCmd h.quiet) (storeHit_of_noCmd h.quiet) hleg.keep
    (resp_ne_err hleg)

omit hy in
theorem Missed.noCmd : c.core.master.cmd = .idle :=
  hleg.busy h.pend_ne (h.answer hstate)

theorem Missed.next : y'.Missed size burstLength q j := by
  have hkept := h.kept hleg hy
  have hcmd := h.noCmd hleg hstate
  have haddr : keepsAddr size burstLength y.core c.core = true := by
    cases hs : y.core.stateReg with
    | idle => exact absurd hs hstate.1
    | respond => exact absurd hs hstate.2
    | write | writeWaitForResp | hold | fill => simp [keepsAddr, hs]
  constructor
  · exact h.line
  · simp [hy, Sys.next, hcmd, h.answer hstate, h.pend]
  · exact h.issued
  · rw [hy]
    exact hcmd
  · simp [hy, Sys.next, DirectMappedCacheWriteBack.next, haddr, h.addr]
  · rw [hkept.doingRead, h.read]
  · rw [hkept.coreWrDataReg, hkept.coreByteEnReg]
    exact h.data
  · rw [hkept.missIndexReg, h.index]
  · rw [hkept.tagVMem, h.valid]
  · rw [hkept.tagMem, h.tag]
  · rw [hkept.dirtyMem, h.dirty]

end Busy

/-! ### One cycle -/

include hy

/-- Without a beat and a store the data memories only settle. -/
theorem settled_of_noBeat (hfill : y'.core.fillReg = false)
    (hstore : storeHit size burstLength y.core c.core = false)
    (hbound : y.core.fillReg = true → y.core.wrAddrReg < size / 4) :
    settled y'.core = settled y.core := by
  subst hy
  exact settled_next hfill hstore hbound

theorem mem_of_noStore (hstore : storeHit size burstLength y.core c.core = false)
    (hfill : y.core.fillReg = false) : y'.core.mem = y.core.mem := by
  subst hy
  change written size burstLength y.core c.core = _
  rw [written_of_noStore hstore (by simp [hfill]), settled_of_noFill hfill]

include hleg

theorem Vacant.next (h : y.Vacant size burstLength q j)
    (hstate : y.core.stateReg = .writeWaitForResp ∨ y.core.stateReg = .hold)
    (hmem : y'.slave.mem = y.slave.mem) : y'.Vacant size burstLength q j := by
  have hbusy : y.core.stateReg ≠ .idle ∧ y.core.stateReg ≠ .respond := by
    rcases hstate with hst | hst <;> simp [hst]
  have hfill' : y'.core.fillReg = false := by
    rcases hstate with hst | hst <;> simp [next_fill hy, beat, hst]
  refine ⟨h.missed.next hleg hy hbusy, hfill', ?_, ?_, ?_⟩
  · rcases hstate with hst | hst <;> simp [next_burst hy, sent, beat, hst, h.burst]
  · rcases hstate with hst | hst <;> simp [next_rdCnt hy, nextRdAddrCnt, sent, evict,
      miss_of_noCmd h.missed.quiet, hst, h.rdCnt]
  · rw [hmem, h.missed.spec hy hbusy]
    exact (h.missed.kept hleg hy).coherent
      (settled_of_noBeat hy hfill' (storeHit_of_noCmd h.missed.quiet) (by simp [h.fill])) h.coherent

/-- The wait for the answer to a write-back. -/
theorem Vacant.step_of_waiting (h : y.Vacant size burstLength q j)
    (hstate : y.core.stateReg = .writeWaitForResp) (hphase : y.slave.phase = .resp) :
    Step size burstLength y y' c := by
  have hstate' : y'.core.stateReg = if c.mem.go then .hold else .writeWaitForResp := by
    cases hgo : c.mem.go <;>
      simp [next_state hy, nextState, hstate, answered, fromSlave, Slave.out, hphase, Slave.respOf,
        hgo, hleg.noErr]
  cases hgo : c.mem.go with
  | false =>
    rw [hgo] at hstate'
    have hslave : y'.slave = y.slave :=
      (congrArg slave hy).trans (Slave.next_of_resp_wait hphase hgo)
    refine ⟨.waiting q j (h.next hleg hy (.inl hstate) (by rw [hslave])) hstate' ?_, ?_⟩
    · rw [hslave, hphase]
    · intro _ _
      simp [remaining, hstate, hstate', willing, hgo]
  | true =>
    rw [hgo] at hstate'
    have hslave : y'.slave = ⟨.idle, y.slave.mem⟩ :=
      (congrArg slave hy).trans (Slave.next_of_resp hphase hgo)
    refine ⟨.holding q j (h.next hleg hy (.inl hstate) (by rw [hslave])) hstate' ?_, ?_⟩
    · rw [hslave]
    · intro _ _
      have := Bool.toNat_le (willing c)
      simp only [remaining, hstate, hstate', if_true]
      omega

omit hleg hy in
theorem Vacant.filling (h : y.Vacant size burstLength q j) :
    y.Filling size burstLength q j 0 where
  missed := h.missed
  burst := by rw [h.burst, Nat.zero_mod]
  rdCnt := h.rdCnt
  bound hfill := by
    rw [h.fill] at hfill
    cases hfill
  words p hp := absurd hp (Nat.not_lt_zero p)
  caught hlt := absurd hlt (Nat.not_lt_zero _)
  coherent := h.coherent

include hs

omit hleg in
/-- The new line is requested, and its command accepted or not. -/
theorem step_of_request (hphase : y.slave.phase = .idle)
    (hcmd : (toSlave size burstLength y.core c.core).cmd = .rd)
    (haddr : (toSlave size burstLength y.core c.core).addr / 4 =
      lineBase size burstLength (tagOf size q.addr) j)
    (hstate' : y'.core.stateReg = if c.mem.accept then .fill else .hold)
    (hvacant : y'.slave.mem = y.slave.mem → y'.Vacant size burstLength q j)
    (hle : burstLength + 1 ≤ y.remaining burstLength) : Step size burstLength y y' c := by
  cases hacc : c.mem.accept with
  | false =>
    have hslave : y'.slave = y.slave :=
      (congrArg slave hy).trans (Slave.next_of_wait hphase hacc)
    rw [hacc] at hstate'
    refine ⟨.holding q j (hvacant (by rw [hslave])) hstate' (by rw [hslave, hphase]), ?_⟩
    intro _ _
    simpa [remaining, hstate', willing, hacc] using hle
  | true =>
    have hslave : y'.slave = ⟨.read _ 0, y.slave.mem⟩ :=
      (congrArg slave hy).trans (Slave.next_of_rd hphase hacc hcmd)
    rw [hacc] at hstate'
    have hfilling := (hvacant (by rw [hslave])).filling
    refine ⟨.filling q j 0 hfilling hstate' (burst_pos hs) (by rw [hslave, haddr]), ?_⟩
    intro _ _
    have hwill := Bool.toNat_le (willing c)
    have hnew : y'.remaining burstLength ≤ burstLength := by
      simp [remaining, hstate']
    omega

theorem Vacant.step_of_holding (h : y.Vacant size burstLength q j)
    (hstate : y.core.stateReg = .hold) (hphase : y.slave.phase = .idle) :
    Step size burstLength y y' c := by
  refine step_of_request hs hy hphase ?_ ?_ ?_ (h.next hleg hy (.inr hstate))
    (by simp [remaining, hstate])
  · simp [toSlave, hstate]
  · simp only [toSlave, hstate]
    rw [← h.missed.line, ← h.missed.addr]
    exact line_addr hs _
  · simp [next_state hy, nextState, hstate, fromSlave, Slave.out, hphase]

section Writing

variable {v k : Nat} (h : y.Writing size burstLength q j v k)
  (hserved : Served size burstLength y c)
include h hserved

omit hs hleg hy in
theorem Writing.taken : (y.fromSlave size burstLength c).dataAccept = true ∧
    (y.fromSlave size burstLength c).resp = .null := by
  have hphase := h.phase
  by_cases hk : k = 0
  · rw [if_pos hk] at hphase
    have hacc : c.mem.accept = true := hserved.accept h.state (h.burst.trans hk)
    simp [fromSlave, Slave.out, hphase, hacc]
  · rw [if_neg hk] at hphase
    simp [fromSlave, Slave.out, hphase]

omit hleg in
theorem Writing.slave : y'.slave =
    ⟨if k + 1 = burstLength then .resp else .write (lineBase size burstLength v j) (k + 1),
      y.slave.mem.write (lineBase size burstLength v j + k) allBytes
        (y.spec (lineBase size burstLength v j + k))⟩ := by
  subst hy
  have hvalid : (toSlave size burstLength y.core c.core).dataValid = true := by
    simp [toSlave, h.state]
  have hbe : (toSlave size burstLength y.core c.core).dataByteEn = allBytes := by
    simp [toSlave, h.state]
  have haddr : (toSlave size burstLength y.core c.core).addr / 4 =
      lineBase size burstLength v j := by
    simp only [toSlave, h.state, if_true, h.addr]
    exact lineBase_addr hs _ _
  have hdata : (toSlave size burstLength y.core c.core).data =
      y.spec (lineBase size burstLength v j + k) := by
    have hj : j < tagCount size burstLength := h.missed.line ▸ lineIndex_lt hs _
    simp only [toSlave, h.state, if_true]
    rw [rdData, h.rd, MemBlock.read_of_lt (DirectMappedCache.word_lt hj h.lt)]
    exact h.words k h.lt
  have hphase := h.phase
  rw [← hbe, ← hdata]
  by_cases hk : k = 0
  · have hcmd : (toSlave size burstLength y.core c.core).cmd = .wr := by
      simp [toSlave, h.state, h.burst, hk]
    rw [if_pos hk] at hphase
    have hnext : (y.next size burstLength c).slave = _ :=
      Slave.next_of_wr hphase (hserved.accept h.state (h.burst.trans hk)) hcmd hvalid
    rw [hnext, haddr, hk]
    simp [eq_comm]
  · rw [if_neg hk] at hphase
    exact Slave.next_of_write hphase hvalid

theorem Writing.step : Step size burstLength y y' c := by
  have hbusy : y.core.stateReg ≠ .idle ∧ y.core.stateReg ≠ .respond := by simp [h.state]
  have hwords := DirectMappedCache.lineWords_eq hs.line hs.burst
  obtain ⟨hacc, hresp⟩ := h.taken hserved
  have hslave := h.slave hs hy hserved
  have hfill' : y'.core.fillReg = false := by simp [next_fill hy, beat, h.state]
  have hburst' : y'.core.burstCntReg = (k + 1) % burstLength := by
    simp [next_burst hy, sent, h.state, hacc, h.burst, hwords]
  have hcoh : Coherent size burstLength y'.core y'.slave.mem y'.spec (some j) fun a =>
      ∃ p, k + 1 ≤ p ∧ p < burstLength ∧ a = lineBase size burstLength v j + p := by
    rw [hslave, h.missed.spec hy hbusy]
    exact (h.missed.kept hleg hy).coherent
      (settled_of_noBeat hy hfill' (storeHit_of_noCmd h.missed.quiet) (by simp [h.fill]))
      h.coherent.writeBack
  have hlt := h.lt
  have hwill := Bool.toNat_le (willing c)
  rcases lt_or_eq_of_le (Nat.succ_le_of_lt h.lt) with hmore | hlast
  · have hbeat : lastBeat burstLength y.core = false := by
      simp only [lastBeat, h.burst, beq_eq_false_iff_ne]
      omega
    have hstate' : y'.core.stateReg = .write := by
      simp [next_state hy, nextState, h.state, hbeat, miss_of_noCmd h.missed.quiet]
    have hmod : (k + 1) % burstLength = k + 1 := Nat.mod_eq_of_lt hmore
    refine ⟨.writing q j v (k + 1) ⟨h.missed.next hleg hy hbusy, hstate', hfill', hmore, ?_, ?_, ?_,
      ?_, ?_, ?_, hcoh⟩, ?_⟩
    · rw [hburst', hmod]
    · simp [next_rdCnt hy, nextRdAddrCnt, hbeat, sent, h.state, hacc, h.rdCnt, hwords, hmod]
    · simp [hy, Sys.next, DirectMappedCacheWriteBack.next, rdAddr, selWrBack, h.state, h.rdCnt,
        hwords,
        hmod, h.missed.addr, h.missed.line]
    · rw [(h.missed.kept hleg hy).memWrAddrReg]
      exact h.addr
    · rw [hslave, if_neg (ne_of_lt hmore), if_neg (Nat.succ_ne_zero k)]
    · rw [mem_of_noStore hy (storeHit_of_noCmd h.missed.quiet) h.fill, h.missed.spec hy hbusy]
      exact h.words
    · intro _ _
      simp only [remaining, h.state, hstate', hburst', hmod, h.burst]
      omega
  · have hbeat : lastBeat burstLength y.core = true := by
      simp only [lastBeat, h.burst, beq_iff_eq]
      omega
    have hstate' : y'.core.stateReg = .writeWaitForResp := by
      simp [next_state hy, nextState, h.state, hbeat, answered, hresp]
    have hmod : (k + 1) % burstLength = 0 := by rw [← Nat.succ_eq_add_one, hlast, Nat.mod_self]
    refine ⟨.waiting q j ⟨h.missed.next hleg hy hbusy, hfill', by rw [hburst', hmod], ?_, ?_⟩
      hstate' ?_, ?_⟩
    · simp [next_rdCnt hy, nextRdAddrCnt, h.state, hbeat, h.rdCnt, hmod]
    · refine hcoh.mono ?_
      rintro a ⟨p, hp, hp', -⟩
      omega
    · rw [hslave, if_pos hlast]
    · intro _ _
      simp only [remaining, h.state, hstate', h.burst]
      omega

end Writing

/-! ### Fills -/

section Fill

variable {k : Nat} (hstate : y.core.stateReg = .fill) (hlt : k < burstLength)
  (hphase : y.slave.phase = .read (lineBase size burstLength (tagOf size q.addr) j) k)
  (h : y.Filling size burstLength q j k)
include hstate hphase

omit hs hleg hy in
theorem beat_of_fill : beat y.core (y.fromSlave size burstLength c) = c.mem.go := by
  simp only [beat, hstate, fromSlave, Slave.out, hphase, Slave.respOf]
  cases c.mem.go <;> cases c.mem.err <;> rfl

include hlt h

omit hleg in
/-- A word that comes is written into the line. -/
theorem Filling.settled : settled y'.core =
    if c.mem.go then Function.update (settled y.core) (j * burstLength + k)
      (merged y.core (y.fromSlave size burstLength c))
    else settled y.core := by
  have hbeat := beat_of_fill (c := c) hstate hphase
  have hmem : y'.core.mem = DirectMappedCacheWriteBack.settled y.core := by
    rw [hy]
    exact written_of_noStore (storeHit_of_noCmd h.missed.quiet) h.bound
  rw [DirectMappedCacheWriteBack.settled, next_fill hy, hbeat, hmem]
  cases hgo : c.mem.go with
  | false => rfl
  | true =>
    rw [hgo] at hbeat
    simp [hy, Sys.next, DirectMappedCacheWriteBack.next, hbeat, hstate, h.burst, h.missed.addr,
      h.missed.line, Nat.mod_eq_of_lt hlt, DirectMappedCache.lineWords_eq hs.line hs.burst]

omit hy hstate in
theorem Filling.data (hgo : c.mem.go = true) : (y.fromSlave size burstLength c).data =
    y.spec (lineBase size burstLength (tagOf size q.addr) j + k) := by
  rw [← h.coherent.fetched hs (h.missed.line ▸ lineIndex_lt hs _) hlt]
  simp [fromSlave, Slave.out, hphase, hgo, hleg.noErr]

omit hy hstate in
/-- The word that arrives, with the bytes of a store. -/
theorem Filling.merged (hgo : c.mem.go = true) :
    merged y.core (y.fromSlave size burstLength c) =
      effect y.spec q (lineBase size burstLength (tagOf size q.addr) j + k) := by
  have hburst : y.core.burstCntReg = k := h.burst.trans (Nat.mod_eq_of_lt hlt)
  have haddr := addr_eq hs q.addr
  rw [h.missed.line] at haddr
  rw [DirectMappedCacheWriteBack.merged, hburst, h.missed.index, h.missed.read,
    h.data hs hleg hlt hphase hgo, effect]
  by_cases hwr : q.cmd = .wr
  · obtain ⟨hword, hbe⟩ := h.missed.data hwr
    rw [if_pos hwr, hword, hbe, hwr]
    by_cases hk : k = missIndex burstLength q.addr
    · rw [if_pos ⟨hk, rfl⟩, hk, ← haddr, Memory.write_self]
    · rw [if_neg fun hand => hk hand.1, Memory.write_of_ne]
      intro heq
      rw [haddr] at heq
      exact hk (add_left_cancel heq)
  · have hrd : q.cmd = .rd := by
      cases hq : q.cmd with
      | idle => exact absurd hq h.missed.issued
      | wr => exact absurd hq hwr
      | rd => rfl
    rw [if_neg hwr, if_neg (by simp [hrd])]

theorem Filling.next (hmem : y'.slave.mem = y.slave.mem) :
    y'.Filling size burstLength q j (k + c.mem.go.toNat) := by
  have hbusy : y.core.stateReg ≠ .idle ∧ y.core.stateReg ≠ .respond := by simp [hstate]
  have hspec := h.missed.spec hy hbusy
  have hkept := h.missed.kept hleg hy
  have hj : j < tagCount size burstLength := h.missed.line ▸ lineIndex_lt hs _
  have hwords := DirectMappedCache.lineWords_eq hs.line hs.burst
  have hmod := Nat.mod_eq_of_lt hlt
  have hsettled := h.settled hs hy hstate hlt hphase
  have hbeat := beat_of_fill (c := c) hstate hphase
  -- the word of the command is kept for the answer
  have hreg : y'.core.slaveReg = if c.mem.go = true ∧ k = missIndex burstLength q.addr then
      ⟨.dva, (y.fromSlave size burstLength c).data⟩ else y.core.slaveReg := by
    have hresp : (y.fromSlave size burstLength c).resp = Slave.respOf c.mem := by
      simp [fromSlave, Slave.out, hphase]
    simp only [hy, Sys.next, DirectMappedCacheWriteBack.next, hbeat, h.burst, h.missed.index, hmod,
      hstate, hresp]
    cases hgo : c.mem.go <;> simp [Slave.respOf, hgo, hleg.noErr]
  refine ⟨h.missed.next hleg hy hbusy, ?_, ?_, ?_, ?_, ?_, ?_⟩
  · rw [next_burst hy, hbeat, h.burst, hmod, hwords]
    cases c.mem.go <;> simp [sent, hstate, hmod]
  · simp [next_rdCnt hy, nextRdAddrCnt, hstate, sent, evict, miss_of_noCmd h.missed.quiet, h.rdCnt]
  · intro _
    simp only [hy, Sys.next, DirectMappedCacheWriteBack.next, hstate, if_true, h.burst, hmod,
      hwords,
      h.missed.addr, h.missed.line]
    exact DirectMappedCache.word_lt hj hlt
  all_goals cases hgo : c.mem.go <;> rw [hgo] at hsettled hreg
  · rw [hsettled, hspec]
    exact h.words
  · intro p hp
    rw [hsettled, hspec, if_pos rfl, h.merged hs hleg hlt hphase hgo]
    rcases Nat.lt_succ_iff_lt_or_eq.mp hp with hbefore | rfl
    · rw [Function.update_of_ne]
      · exact h.words p hbefore
      · intro heq
        exact absurd (add_left_cancel heq) (ne_of_lt hbefore)
    · rw [Function.update_self]
  · rw [hreg, hspec]
    exact h.caught
  · intro hcaught
    rw [hreg, hspec]
    split
    · rename_i hk
      rw [h.data hs hleg hlt hphase hgo, hk.2, ← h.missed.line, ← addr_eq hs]
    · rename_i hk
      exact h.caught (lt_of_le_of_ne (Nat.le_of_lt_succ hcaught) fun heq => hk ⟨rfl, heq.symm⟩)
  · rw [hmem, hspec]
    exact hkept.coherent hsettled h.coherent
  · rw [hmem, hspec]
    exact Coherent.beat hlt hkept hsettled h.coherent

theorem Filling.step : Step size burstLength y y' c := by
  have hburst : y.core.burstCntReg = k := h.burst.trans (Nat.mod_eq_of_lt hlt)
  have hnext := h.next hs hleg hy hstate hlt hphase
  have hstate' : y'.core.stateReg =
      if c.mem.go = true ∧ k + 1 = burstLength then .respond else .fill := by
    have hend : k = burstLength - 1 ↔ k + 1 = burstLength := by omega
    simp [next_state hy, nextState, hstate, beat_of_fill hstate hphase,
      miss_of_noCmd h.missed.quiet, lastBeat, hburst, hend]
  cases hgo : c.mem.go with
  | false =>
    have hslave : y'.slave = y.slave :=
      (congrArg slave hy).trans (Slave.next_of_read_wait hphase hgo)
    rw [hgo] at hstate' hnext
    have hnext := hnext (by rw [hslave])
    refine ⟨.filling q j k hnext hstate' hlt (by rw [hslave, hphase]), fun _ _ => ?_⟩
    simp [remaining, hstate, hstate', hburst, hnext.burst, Nat.mod_eq_of_lt hlt, willing, hgo]
  | true =>
    have hslave : y'.slave = _ :=
      (congrArg slave hy).trans (Slave.next_of_read hphase hgo)
    have hwill := Bool.toNat_le (willing c)
    rw [hgo] at hstate' hnext
    have hnext := hnext (by rw [hslave])
    rcases lt_or_eq_of_le (Nat.succ_le_of_lt hlt) with hmore | hlast
    · rw [if_neg fun hand => ne_of_lt hmore hand.2] at hstate'
      refine ⟨.filling q j (k + 1) hnext hstate' hmore (by rw [hslave, if_neg (ne_of_lt hmore)]),
        fun _ _ => ?_⟩
      have hmod : y'.core.burstCntReg = k + 1 := hnext.burst.trans (Nat.mod_eq_of_lt hmore)
      simp only [remaining, hstate, hstate', hburst, hmod]
      omega
    · rw [if_pos ⟨rfl, hlast⟩] at hstate'
      have hfull : k + true.toNat = burstLength := hlast
      rw [hfull] at hnext
      refine ⟨.responding q j hnext hstate' (by rw [hslave, if_pos hlast]), fun _ _ => ?_⟩
      simp only [remaining, hstate, hstate', hburst]
      omega

end Fill

/-- A cycle in which no miss is handled: the next command is looked up. -/
theorem ready_of_free (hstate : y.core.stateReg = .idle ∨ y.core.stateReg = .respond)
    (hmiss : miss size burstLength y.core c.core = false)
    (hphase : y.slave.phase = .idle) (hburst : y.core.burstCntReg = 0)
    (hrdCnt : y.core.rdAddrCntReg = 0)
    (hpend : (y.answer size burstLength c).resp = .null → y.pend = none)
    (hcoh : Coherent size burstLength y'.core y.slave.mem y'.spec none fun _ => False) :
    y'.Ready size burstLength := by
  have hcmd : (toSlave size burstLength y.core c.core).cmd = .idle := by
    rcases hstate with hst | hst <;> simp [toSlave, hst, hmiss]
  have hslave : y'.slave = y.slave :=
    (congrArg slave hy).trans (Slave.next_of_noCmd hphase hcmd)
  have hmaster : y'.core.masterReg = c.core.master := by
    have hkeeps : keepsAddr size burstLength y.core c.core = false := by
      rcases hstate with hst | hst <;> simp [keepsAddr, hst, hmiss]
    simp [hy, Sys.next, DirectMappedCacheWriteBack.next, hkeeps]
  have hidle : ∀ f : Fsm, f ≠ .idle → f ≠ .respond → y.core.stateReg ≠ f := by
    rintro f hf hf' rfl
    exact hstate.elim hf hf'
  constructor
  · rcases hstate with hst | hst <;> simp [next_state hy, nextState, hst, hmiss]
  · simp [next_fill hy, beat, hidle]
  · simp [next_burst hy, sent, beat, hidle, hburst]
  · simp [next_rdCnt hy, nextRdAddrCnt, sent, evict, hidle, hmiss, hrdCnt]
  · rw [hslave, hphase]
  · rw [hmaster, hy]
    change (if c.core.master.cmd ≠ .idle then some c.core.master else _) = _
    by_cases hnone : c.core.master.cmd = .idle
    · rw [if_neg (not_not.mpr hnone), if_pos hnone]
      split
      · rename_i hnull
        exact hpend hnull
      · rfl
    · rw [if_pos hnone, if_neg hnone]
  · intro _
    rw [hy] at hmaster ⊢
    exact lookup_of_free hs hmiss (hidle .fill (by decide) (by decide))
      (hidle .write (by decide) (by decide)) hleg.keep hmaster
  · rw [hslave]
    exact hcoh

omit hleg hy in
theorem Filling.answer (h : y.Filling size burstLength q j burstLength)
    (hstate : y.core.stateReg = .respond) :
    y.answer size burstLength c = ⟨.dva, y.spec (q.addr / 4)⟩ := by
  rw [Sys.answer, toMaster, if_pos hstate]
  exact h.caught (missIndex_lt hs q.addr)

theorem Filling.step_of_responding (h : y.Filling size burstLength q j burstLength)
    (hstate : y.core.stateReg = .respond) (hphase : y.slave.phase = .idle) :
    Step size burstLength y y' c := by
  have hans := h.answer (c := c) hs hstate
  have hspec : y'.spec = effect y.spec q := by
    simp [hy, Sys.next, hans, h.missed.pend]
  have hsettled := settled_of_noBeat hy (by simp [next_fill hy, beat, hstate])
    (storeHit_of_noCmd h.missed.quiet) h.bound
  refine ⟨.ready (ready_of_free hs hleg hy (.inr hstate) (miss_of_noCmd h.missed.quiet) hphase
    (by rw [h.burst, Nat.mod_self]) h.rdCnt ?_ ?_), ?_⟩
  · intro hnull
    simp [hans] at hnull
  · rw [hspec]
    exact (h.missed.kept hleg hy).coherent hsettled
      (h.coherent.filled hs h.missed.line h.missed.valid
      h.missed.tag h.missed.dirty h.words)
  · intro hnull
    simp [hans] at hnull

/-! ### Lookups -/

section Lookup

variable (h : y.Ready size burstLength)
include h

omit hs hleg hy in
theorem Ready.pend_eq (hcmd : y.core.masterReg.cmd ≠ .idle) : y.pend = some y.core.masterReg := by
  rw [h.pend, if_neg hcmd]

omit hs hleg hy in
theorem Ready.answer : y.answer size burstLength c =
    ⟨if hit size burstLength y.core c.core then .dva else .null, rdData size y.core c.core⟩ := by
  rw [Sys.answer, toMaster, if_neg (by simp [h.state])]

omit hs hleg hy in
theorem Ready.answer_of_miss (hmiss : miss size burstLength y.core c.core = true) :
    (y.answer size burstLength c).resp = .null := by
  simp only [miss, Bool.and_eq_true, Bool.not_eq_true'] at hmiss
  simp [h.answer, hit, hmiss.1]

omit hs in
theorem Ready.coherent_of_noStore (hmiss : miss size burstLength y.core c.core = false)
    (hcmd : y.core.masterReg.cmd ≠ .wr) :
    Coherent size burstLength y'.core y.slave.mem y.spec none fun _ => False := by
  have hstore : storeHit size burstLength y.core c.core = false := storeHit_of_noStore hcmd
  subst hy
  refine (kept_of_noWrite hmiss hstore hleg.keep (resp_ne_err hleg)).coherent ?_ h.coherent
  exact settled_next (by simp [beat, h.state]) hstore (by simp [h.fill])

theorem Ready.step_of_noCmd (hcmd : y.core.masterReg.cmd = .idle) :
    Step size burstLength y y' c := by
  have hpend : y.pend = none := by rw [h.pend, if_pos hcmd]
  have hmiss : miss size burstLength y.core c.core = false := miss_of_noCmd hcmd
  have hspec : y'.spec = y.spec := by simp [hy, Sys.next, hpend]
  refine ⟨.ready (ready_of_free hs hleg hy (.inl h.state) hmiss h.phase h.burst h.rdCnt
    (fun _ => hpend) ?_), fun _ hsome => absurd hpend hsome⟩
  rw [hspec]
  exact h.coherent_of_noStore hleg hy hmiss (by simp [hcmd])

theorem Ready.step_of_hit (hcmd : y.core.masterReg.cmd ≠ .idle)
    (hhit : tagValid size burstLength y.core c.core = true) : Step size burstLength y y' c := by
  have hmiss : miss size burstLength y.core c.core = false := by simp [miss, hhit]
  have hans : (y.answer size burstLength c).resp ≠ .null := by
    simp [h.answer, hit, hhit, hcmd]
  have hspec : y'.spec = effect y.spec y.core.masterReg := by
    simp [hy, Sys.next, hans, h.pend_eq hcmd]
  refine ⟨.ready (ready_of_free hs hleg hy (.inl h.state) hmiss h.phase h.burst h.rdCnt
    (fun hnull => absurd hnull hans) ?_), fun hnull => absurd hnull hans⟩
  rw [hspec]
  by_cases hwr : y.core.masterReg.cmd = .wr
  · subst hy
    exact h.coherent.store hs (h.look hcmd) h.fill hwr hhit (by simp [h.state]) hleg.keep
      (resp_ne_err hleg)
  · rw [effect, if_neg hwr]
    exact h.coherent_of_noStore hleg hy hmiss hwr

variable (hcmd : y.core.masterReg.cmd ≠ .idle) (hmiss : miss size burstLength y.core c.core = true)
  (hfit : missIndex burstLength y.core.masterReg.addr < 2 ^ missIndexBits burstLength)
  (hj : lineIndex size burstLength y.core.masterReg.addr = j)
include hcmd hmiss hfit hj

/-- A command that misses has its line claimed. -/
theorem Ready.missed : y'.Missed size burstLength y.core.masterReg j := by
  have hans := h.answer_of_miss hmiss
  have hnoCmd : c.core.master.cmd = .idle := hleg.busy (by simp [h.pend_eq hcmd]) hans
  have hlt : j < tagCount size burstLength := hj ▸ lineIndex_lt hs _
  subst hy
  constructor
  · exact hj
  · simp [Sys.next, hnoCmd, hans, h.pend_eq hcmd]
  · exact hcmd
  · exact hnoCmd
  · simp [Sys.next, DirectMappedCacheWriteBack.next, keepsAddr, hmiss]
  · simp [Sys.next, DirectMappedCacheWriteBack.next, hmiss]
  · intro hwr
    simp [Sys.next, DirectMappedCacheWriteBack.next, hmiss, hwr]
  · simp only [Sys.next, DirectMappedCacheWriteBack.next, hmiss, if_true]
    exact Nat.mod_eq_of_lt hfit
  · simp [Sys.next, DirectMappedCacheWriteBack.next, nextTagVMem, hmiss, h.state, hleg.keep,
      vecWrite_of_lt hlt, hj]
  · simp [Sys.next, DirectMappedCacheWriteBack.next, MemBlock.write_of_lt hlt, hmiss, hj]
  · simp [Sys.next, DirectMappedCacheWriteBack.next, nextDirtyMem, hmiss, vecWrite_of_lt hlt, hj]

/-- A miss on a line that is not dirty requests the new line at once. -/
theorem Ready.step_of_clean (hdirty : y.core.dirty = false) : Step size burstLength y y' c := by
  refine step_of_request (q := y.core.masterReg) (j := j) hs hy h.phase ?_ ?_ ?_ ?_
    (by simp only [remaining, h.state]; omega)
  · simp [toSlave, h.state, hmiss, hdirty]
  · simp only [toSlave, h.state]
    rw [← hj]
    exact line_addr hs _
  · simp [next_state hy, nextState, h.state, hmiss, hdirty, fromSlave, Slave.out, h.phase]
  · intro hmem
    have hspec : y'.spec = y.spec := by simp [hy, Sys.next, h.answer_of_miss hmiss]
    refine ⟨h.missed hs hleg hy hcmd hmiss hfit hj, ?_, ?_, ?_, ?_⟩
    · simp [next_fill hy, beat, h.state]
    · simp [next_burst hy, sent, beat, h.state, h.burst]
    · simp [next_rdCnt hy, nextRdAddrCnt, sent, evict, h.state, hdirty, h.rdCnt]
    · rw [hmem, hspec]
      refine (h.coherent.miss hs (h.look hcmd) h.fill hj hmiss (by simp [h.state]) hleg.keep
        (congrArg core hy)).mono ?_
      rintro a ⟨htrue, -⟩
      rw [hdirty] at htrue
      cases htrue

/-- A miss on a dirty line starts with its write-back. -/
theorem Ready.step_of_dirty (hdirty : y.core.dirty = true) : Step size burstLength y y' c := by
  have hlook := h.look hcmd
  have hwords := DirectMappedCache.lineWords_eq hs.line hs.burst
  have hnoCmd : (toSlave size burstLength y.core c.core).cmd = .idle := by
    simp [toSlave, h.state, hdirty]
  have hslave : y'.slave = y.slave :=
    (congrArg slave hy).trans (Slave.next_of_noCmd h.phase hnoCmd)
  have hspec : y'.spec = y.spec := by simp [hy, Sys.next, h.answer_of_miss hmiss]
  have hstate' : y'.core.stateReg = .write := by
    simp [next_state hy, nextState, h.state, hmiss, hdirty]
  have hvalid : y.core.tagVMem j = true := by
    rw [← hj]
    exact h.coherent.dirty _ (hlook.dirty.symm.trans hdirty)
  refine ⟨.writing y.core.masterReg j (y.core.tagMem j) 0 ⟨h.missed hs hleg hy hcmd hmiss hfit hj,
    hstate', by simp [next_fill hy, beat, h.state], burst_pos hs, ?_, ?_, ?_, ?_, ?_, ?_, ?_⟩, ?_⟩
  · simp [next_burst hy, sent, beat, h.state, h.burst]
  · simp [next_rdCnt hy, nextRdAddrCnt, evict, h.state, hmiss, hdirty, h.rdCnt, hwords]
  · simp [hy, Sys.next, DirectMappedCacheWriteBack.next, rdAddr, selWrBack, evict, hmiss, hdirty,
      h.rdCnt, hwords, hj]
  · rw [hy]
    change (if miss _ _ _ _ then _ else _) = _
    rw [if_pos hmiss, hlook.tag hs hj, hj, DirectMappedCache.lineBytes_eq hs.line hs.burst,
      lineBase,
      sets, Nat.mul_assoc, Nat.mul_comm burstLength]
  · rw [hslave, h.phase]
    rfl
  · intro p hp
    rw [mem_of_noStore hy (storeHit_of_miss hmiss) h.fill, hspec, ← settled_of_noFill h.fill]
    exact h.coherent.line _ p (hj ▸ lineIndex_lt hs _) hvalid (by simp) hp
  · rw [hslave, hspec]
    refine (h.coherent.miss hs hlook h.fill hj hmiss (by simp [h.state]) hleg.keep
      (congrArg core hy)).mono ?_
    rintro a ⟨-, p, hp, heq⟩
    exact ⟨p, Nat.zero_le p, hp, heq⟩
  · intro _ _
    have hwill := Bool.toNat_le (willing c)
    simp only [remaining, h.state, hstate']
    omega

end Lookup

/-! ### Every stage -/

theorem Stage.step (h : y.Stage size burstLength) (hserved : Served size burstLength y c) :
    Step size burstLength y y' c := by
  cases h with
  | ready h =>
    by_cases hcmd : y.core.masterReg.cmd = .idle
    · exact h.step_of_noCmd hs hleg hy hcmd
    · cases hhit : tagValid size burstLength y.core c.core with
      | true => exact h.step_of_hit hs hleg hy hcmd hhit
      | false =>
        have hmiss : miss size burstLength y.core c.core = true := by simp [miss, hhit, hcmd]
        have hfit := hserved.position hmiss
        cases hdirty : y.core.dirty with
        | true => exact h.step_of_dirty hs hleg hy hcmd hmiss hfit rfl hdirty
        | false => exact h.step_of_clean hs hleg hy hcmd hmiss hfit rfl hdirty
  | writing q j v k h => exact h.step hs hleg hy hserved
  | waiting q j h hstate hphase => exact h.step_of_waiting hleg hy hstate hphase
  | holding q j h hstate hphase => exact h.step_of_holding hs hleg hy hstate hphase
  | filling q j k h hstate hlt hphase => exact h.step hs hleg hy hstate hlt hphase
  | responding q j h hstate hphase => exact h.step_of_responding hs hleg hy hstate hphase

omit hleg hy

theorem Ready.observed (h : y.Ready size burstLength) : Observed size burstLength y c := by
  constructor
  · intro q hpend hrd hans
    have hcmd : y.core.masterReg.cmd ≠ .idle := by
      intro hnone
      rw [h.pend, if_pos hnone] at hpend
      cases hpend
    rw [h.pend_eq hcmd] at hpend
    obtain rfl := Option.some.inj hpend
    rw [h.answer] at hans ⊢
    have hhit : tagValid size burstLength y.core c.core = true := by
      by_contra hno
      simp [hit, hno] at hans
    have hdva : hit size burstLength y.core c.core = true := by simp [hit, hhit, hcmd]
    rw [if_pos hdva, (h.look hcmd).rdData hs h.fill h.coherent hhit]
  · intro hpend
    have hcmd : y.core.masterReg.cmd = .idle := by
      by_contra hno
      rw [h.pend_eq hno] at hpend
      cases hpend
    simp [h.answer, hit_of_noCmd hcmd]
  · intro _
    funext a
    exact h.coherent.overlay hs h.fill a

omit hs in
/-- Nothing is observed while a miss is handled. -/
theorem Missed.observed (h : y.Missed size burstLength q j)
    (hstate : y.core.stateReg ≠ .idle ∧ y.core.stateReg ≠ .respond) :
    Observed size burstLength y c := by
  constructor
  · intro _ _ _ hans
    exact absurd (h.answer hstate) hans
  · intro _
    exact h.answer hstate
  · rintro (hnone | hidle)
    · exact absurd hnone h.pend_ne
    · exact absurd hidle hstate.1

theorem Stage.observed (h : y.Stage size burstLength) : Observed size burstLength y c := by
  cases h with
  | ready h => exact h.observed hs
  | writing q j v k h => exact h.missed.observed (by simp [h.state])
  | waiting q j h hstate _ | holding q j h hstate _ | filling q j k h hstate _ _ =>
    exact h.missed.observed (by simp [hstate])
  | responding q j h hstate _ =>
    constructor
    · intro q' hpend _ _
      rw [h.missed.pend] at hpend
      obtain rfl := Option.some.inj hpend
      exact h.answer hs hstate
    · intro hnone
      exact absurd hnone h.missed.pend_ne
    · rintro (hnone | hidle)
      · exact absurd hnone h.missed.pend_ne
      · rw [hstate] at hidle
        cases hidle

end Cycle

/-! ### Runs -/

/-- The cache over the memory `mem`, before the first command. -/
def init (core : State) (mem : Memory) : Sys := ⟨core, ⟨.idle, mem⟩, mem, none⟩

section Runs

variable {size burstLength b n : Nat} {y : Sys}

theorem stage_init {core : State} (hcore : IsReset core) (mem : Memory) :
    (init core mem).Stage size burstLength := by
  refine .ready ⟨hcore.stateReg, hcore.fillReg, hcore.burstCntReg, hcore.rdAddrCntReg, rfl,
    (if_pos hcore.cmd).symm, fun hcmd => absurd hcore.cmd hcmd, ?_⟩
  constructor
  · intro j p _ hvalid
    exact absurd hvalid (by simp [init, hcore.tagVMem])
  · intro a _ _
    rfl
  · intro j hdirty
    exact absurd hdirty (by simp [init, hcore.dirtyMem])

/-- The command that is outstanding after any part `p` of the run is answered before the memory
    has been willing in `2 * burstLength + 4` cycles. -/
def Answered (size burstLength : Nat) (y : Sys) (cs : List Cycle) : Prop :=
  ∀ p q, cs = p ++ q → (run (next size burstLength) y p).pend ≠ none →
    Along (next size burstLength) (fun y c => (y.answer size burstLength c).resp = .null)
      (run (next size burstLength) y p) q →
    q.countP willing ≤ 2 * burstLength + 3

theorem remaining_le : y.remaining burstLength ≤ 2 * burstLength + 3 := by
  unfold remaining
  split <;> omega

theorem pend_of_wait {c : Cycle} (hleg : Legal size burstLength y c) (hpend : y.pend ≠ none)
    (hnull : (y.answer size burstLength c).resp = .null) :
    (y.next size burstLength c).pend ≠ none := by
  simpa [next, hleg.busy hpend hnull, hnull] using hpend

/-- **The write-back cache implements a memory**, in every run in which write-backs are accepted
    in their first cycle and `missIndexReg` can hold the positions of the misses: loads return
    what was stored last, every command is answered, and when nothing is outstanding the memory
    with the dirty lines over it has all stores. -/
theorem implements_of_served (hs : Sized size burstLength b n) {core : State}
    (hcore : IsReset core) (mem : Memory) {cs : List Cycle}
    (hrun : Along (next size burstLength)
      (fun y c => Legal size burstLength y c ∧ Served size burstLength y c) (init core mem) cs) :
    Along (next size burstLength) (Observed size burstLength) (init core mem) cs ∧
      Answered size burstLength (init core mem) cs := by
  have hkeep : ∀ y c, Stage size burstLength y →
      Legal size burstLength y c ∧ Served size burstLength y c →
      Stage size burstLength (y.next size burstLength c) :=
    fun _ _ h hl => (h.step hs hl.1 rfl hl.2).stage
  constructor
  · refine (hrun.with_inv hkeep (stage_init hcore mem)).mono ?_
    rintro y c ⟨hstage, -⟩
    exact hstage.observed hs
  · rintro p q rfl hpend hnull
    refine countP_le_of_waits (W := fun y => y.pend ≠ none) (remaining burstLength) willing
      (fun _ _ => remaining_le) hkeep ?_ (stage_init hcore mem) hrun hpend hnull
    intro y c h hpend hl hnull
    exact ⟨pend_of_wait hl.1 hpend hnull, (h.step hs hl.1 rfl hl.2).progress hnull hpend⟩

end Runs

/-! ### Three runs -/

instance (size burstLength : Nat) (y : Sys) (c : Cycle) : Decidable (Legal size burstLength y c) :=
  decidable_of_iff (_ ∧ _ ∧ _) ⟨fun ⟨a, b, c⟩ => ⟨a, b, c⟩, fun ⟨a, b, c⟩ => ⟨a, b, c⟩⟩

instance (size burstLength : Nat) (y : Sys) (c : Cycle) : Decidable (Served size burstLength y c) :=
  decidable_of_iff (_ ∧ _) ⟨fun ⟨a, b⟩ => ⟨a, b⟩, fun ⟨a, b⟩ => ⟨a, b⟩⟩

/-- The registers after reset, with zeros where nothing is reset. -/
def powerUp : State where
  doingRead := false
  coreWrDataReg := fun _ => 0
  coreByteEnReg := noBytes
  masterReg := ⟨.idle, 0, fun _ => 0, noBytes⟩
  stateReg := .idle
  burstCntReg := 0
  missIndexReg := 0
  tagMem := fun _ => 0
  tagRdAddrReg := 0
  tagVMem := fun _ => false
  tagV := false
  dirtyMem := fun _ => false
  dirty := false
  mem := fun _ _ => 0
  rdAddrReg := 0
  rdAddrCntReg := 0
  fillReg := false
  wrAddrReg := 0
  wrDataReg := fun _ => 0
  slaveReg := ⟨.null, fun _ => 0⟩
  memWrAddrReg := 0

theorem isReset_powerUp : IsReset powerUp :=
  ⟨rfl, rfl, rfl, fun _ => rfl, fun _ => rfl, rfl, rfl⟩

/-- A cycle in which the memory responds. -/
def cycle (accept : Bool) (cmd : OcpCmd) (addr : Nat) (d : BitVec 8) : Cycle :=
  ⟨⟨⟨cmd, addr, fun _ => d, allBytes⟩, false, 0, fun _ => 0⟩, ⟨accept, true, false, fun _ => 0⟩⟩

def idleCycle (accept : Bool) : Cycle := cycle accept .idle 0 0

/-- A word is stored, its line is evicted by a load, and the word is loaded again.  The
    write-back is accepted in its first cycle or one cycle later. -/
def evictRun (early : Bool) : List Cycle :=
  [cycle true .wr 0 9] ++ List.replicate 4 (idleCycle true) ++ [cycle true .rd 16 0] ++
    [idleCycle true, idleCycle early] ++ List.replicate 7 (idleCycle true) ++
    [cycle true .rd 0 0] ++ List.replicate 4 (idleCycle true)

theorem evictRun_implements :
    (run (next 16 2) (init powerUp numbered) (evictRun true).dropLast).answer 16 2
        (idleCycle true) = ⟨.dva, fun _ => 9⟩ ∧
      Along (next 16 2) (Observed 16 2) (init powerUp numbered) (evictRun true) ∧
      Answered 16 2 (init powerUp numbered) (evictRun true) :=
  ⟨by decide +kernel, implements_of_served (b := 1) (n := 1) ⟨le_rfl, rfl, rfl⟩ isReset_powerUp
    numbered (by decide +kernel)⟩

/-- A load of word 5 with eight words in a line. -/
def wideRun : List Cycle := [cycle true .rd 20 0] ++ List.replicate 10 (idleCycle true)

/-- Two runs in which a load returns the wrong word.  When the write-back is accepted one cycle
    late, word 1 of the line is written in the place of word 0, and the store is lost.  With
    eight words in a line `missIndexReg` has two bits, so the load of word 5 returns word 1. -/
theorem late_accept_and_wide_line_wrong :
    (Along (next 16 2) (Legal 16 2) (init powerUp numbered) (evictRun false) ∧
      ¬ Along (next 16 2) (Observed 16 2) (init powerUp numbered) (evictRun false)) ∧
    Along (next 64 8) (Legal 64 8) (init powerUp numbered) wideRun ∧
      ¬ Along (next 64 8) (Observed 64 8) (init powerUp numbered) wideRun := by
  refine ⟨⟨by decide +kernel, ?_⟩, by decide +kernel, ?_⟩
  · intro h
    rw [show evictRun false = (evictRun false).dropLast ++ [idleCycle true] from rfl,
      along_concat] at h
    have hload := h.2.load ⟨.rd, 0, fun _ => 0, allBytes⟩ (by decide +kernel) rfl
      (by decide +kernel)
    exact absurd hload (by decide +kernel)
  · intro h
    rw [show wideRun = wideRun.dropLast ++ [idleCycle true] from rfl, along_concat] at h
    have hload := h.2.load ⟨.rd, 20, fun _ => 0, allBytes⟩ (by decide +kernel) rfl
      (by decide +kernel)
    exact absurd hload (by decide +kernel)

end Sys

end Patmos.DirectMappedCacheWriteBack
