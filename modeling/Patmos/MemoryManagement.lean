import Patmos.Clocked
import Patmos.MemBlock

/-!
# The memory management unit

`MemoryManagement` sits between the caches and the external memory.  A request on `virt` is
registered, and one cycle later its address is translated: the three upper bits choose a
segment, whose base is added to the other bits.  Translated requests go through a queue of
`BURST_LENGTH` entries to `phys`, idle cycles too.  In user mode a request that violates the
permissions or the length of its segment loses its command on the way to the queue, and a
small state machine answers it with errors.

The queue is a FIFO, which takes an entry while it is not full and shows its oldest entry;
while it is empty it shows an idle request.  Addresses are byte addresses.

The second part is about the path from `virt` to `phys` in supervisor mode.  `virt` is told
that a request is accepted by the state of the queue in the cycle of the request, but the
request enters the queue one cycle later.
-/

namespace Patmos.MemoryManagement

open Ocp Clocked

inductive Fsm where
  | idle
  | respRd
  | waitWr
  | respWr
deriving DecidableEq, Repr

structure Segment where
  perm : Nat
  length : Nat
  base : Nat

/-- `OcpCoreMasterSignals` of the configuration port, less the byte enables. -/
structure CtrlMaster where
  cmd : OcpCmd
  addr : Nat
  data : Nat

structure State where
  masterReg : CtrlMaster
  segInfoVec : Nat → Nat
  segBaseVec : Nat → Nat
  virtReg : BurstMaster
  execReg : Bool
  buffer : List BurstMaster
  stateReg : Fsm
  burstReg : Nat

structure Inputs where
  ctrl : CtrlMaster
  superMode : Bool
  exec : Bool
  virt : BurstMaster
  phys : BurstSlave

def idleRequest : BurstMaster := ⟨.idle, 0, fun _ => 0, false, noBytes⟩

/-- A request carries a command or a word of a write burst. -/
def isRequest (m : BurstMaster) : Bool := m.cmd != .idle || m.dataValid

section Circuit

variable (burstLength extAddrWidth : Nat)

/-- `ALIGN_BITS`. -/
def alignBits : Nat := MemBlock.log2Up burstLength + 2

/-- The bits of an address below the segment number. -/
def offset (addr : Nat) : Nat := addr % 2 ^ 29

def segment (s : State) : Segment :=
  let n := s.virtReg.addr / 2 ^ 29 % 8
  let info := s.segInfoVec n
  { perm := info / 2 ^ (29 - alignBits burstLength) % 8
    length := info % 2 ^ (29 - alignBits burstLength)
    base := s.segBaseVec n }

def permViol (s : State) : Bool :=
  let perm := (segment burstLength s).perm
  (s.virtReg.cmd == .rd && !s.execReg && !perm.testBit 2) ||
    (s.virtReg.cmd == .rd && s.execReg && !perm.testBit 0) ||
    (s.virtReg.cmd == .wr && !perm.testBit 1)

def lengthViol (s : State) : Bool :=
  let length := (segment burstLength s).length
  length != 0 && decide (length ≤ offset s.virtReg.addr / 2 ^ alignBits burstLength)

def violation (s : State) (i : Inputs) : Bool :=
  !i.superMode && (permViol burstLength s || lengthViol burstLength s)

/-- Base plus offset, cut to the address width of the memory. -/
def translatedAddr (s : State) : Nat :=
  ((segment burstLength s).base * 2 ^ alignBits burstLength + offset s.virtReg.addr) % 2 ^ 32 %
    2 ^ extAddrWidth

def translated (s : State) (i : Inputs) : BurstMaster :=
  { s.virtReg with
    cmd := if violation burstLength s i then .idle else s.virtReg.cmd
    addr := translatedAddr burstLength extAddrWidth s }

/-! ### The queue -/

/-- `buffer.io.enq.ready`. -/
def enqReady (s : State) : Bool := decide (s.buffer.length < burstLength)

/-- `io.phys.M`. -/
def toPhys (s : State) : BurstMaster := s.buffer.headD idleRequest

/-- The oldest entry leaves the queue. -/
def deqFire (s : State) (i : Inputs) : Bool :=
  !s.buffer.isEmpty && (i.phys.cmdAccept || i.phys.dataAccept)

def bufferNext (s : State) (i : Inputs) : List BurstMaster :=
  (if deqFire s i then s.buffer.tail else s.buffer) ++
    if enqReady burstLength s then [translated burstLength extAddrWidth s i] else []

/-! ### Ports and registers -/

/-- `io.virt.S`. -/
def toVirt (s : State) (i : Inputs) : BurstSlave :=
  { resp := if s.stateReg = .respRd ∨ s.stateReg = .respWr then .err else i.phys.resp
    data := i.phys.data
    cmdAccept := enqReady burstLength s
    dataAccept := enqReady burstLength s }

/-- A write of a table; `upper` is bit 2 of the address. -/
def tableNext (s : State) (i : Inputs) (upper : Bool) (table : Nat → Nat) : Nat → Nat :=
  if s.masterReg.cmd = .wr ∧ i.superMode = true ∧ s.masterReg.addr.testBit 2 = upper then
    Function.update table (s.masterReg.addr / 8 % 8)
      (s.masterReg.data % 2 ^ 32 / 2 ^ alignBits burstLength)
  else table

def burstDec (n : Nat) : Nat :=
  (n + 2 ^ MemBlock.log2Up burstLength - 1) % 2 ^ MemBlock.log2Up burstLength

/-- The block that triggers the handling of a violation. -/
def trigger (s : State) (i : Inputs) : Fsm × Nat :=
  if violation burstLength s i = true ∧ s.stateReg = .idle then
    match s.virtReg.cmd with
    | .rd => (.respRd, burstLength - 1)
    | .wr => (.waitWr, burstLength - 2)
    | .idle => (s.stateReg, s.burstReg)
  else (s.stateReg, s.burstReg)

/-- The state machine that answers it. -/
def fsmNext (s : State) (i : Inputs) : Fsm × Nat :=
  match s.stateReg with
  | .idle => trigger burstLength s i
  | .respRd => (if s.burstReg = 0 then .idle else .respRd, burstDec burstLength s.burstReg)
  | .waitWr => (if s.burstReg = 0 then .respWr else .waitWr, burstDec burstLength s.burstReg)
  | .respWr => (.idle, s.burstReg)

def next (s : State) (i : Inputs) : State :=
  { masterReg := i.ctrl
    segInfoVec := tableNext burstLength s i true s.segInfoVec
    segBaseVec := tableNext burstLength s i false s.segBaseVec
    virtReg := i.virt
    execReg := i.exec
    buffer := bufferNext burstLength extAddrWidth s i
    stateReg := (fsmNext burstLength s i).1
    burstReg := (fsmNext burstLength s i).2 }

end Circuit

/-- The registers with a reset value have it, and no request came in during reset. -/
structure IsReset (s : State) : Prop where
  buffer : s.buffer = []
  stateReg : s.stateReg = .idle
  virtReg : isRequest s.virtReg = false

/-! ### The tables -/

section Tables

variable {burstLength extAddrWidth : Nat} {s : State} {i : Inputs}

end Tables

/-! ### From one port to the other -/

/-- The unit, and whether the request in `virtReg` was accepted when it came in. -/
structure Path where
  mmu : State
  accepted : Bool

namespace Path

section

variable (burstLength extAddrWidth : Nat)

def next (y : Path) (i : Inputs) : Path :=
  { mmu := MemoryManagement.next burstLength extAddrWidth y.mmu i
    accepted := (toVirt burstLength y.mmu i).cmdAccept }

/-- The request that was accepted at `virt` in the cycle before, with the address that the
    tables now give it. -/
def atVirt (y : Path) (_ : Inputs) : List BurstMaster :=
  if y.accepted && isRequest y.mmu.virtReg then
    [{ y.mmu.virtReg with addr := translatedAddr burstLength extAddrWidth y.mmu }]
  else []

/-- The request that is accepted at `phys` in this cycle: a command by `CmdAccept`, a word of
    a write burst by `DataAccept`. -/
def atPhys (y : Path) (i : Inputs) : List BurstMaster :=
  let m := toPhys y.mmu
  if m.cmd = .idle then if m.dataValid && i.phys.dataAccept then [m] else []
  else if i.phys.cmdAccept then [m] else []

/-- The requests on their way. -/
def inFlight (y : Path) : List BurstMaster := y.mmu.buffer.filter isRequest

/-- Supervisor mode and a conforming slave: a command is accepted with its first word, in any
    cycle, the other words of a write burst are accepted at once, and without a request the
    accept signals have any value. -/
structure Env (y : Path) (i : Inputs) : Prop where
  superMode : i.superMode = true
  cmd : (toPhys y.mmu).cmd ≠ .idle → i.phys.dataAccept = i.phys.cmdAccept
  words : (toPhys y.mmu).cmd = .idle → (toPhys y.mmu).dataValid = true → i.phys.dataAccept = true

/-- In a cycle with a request at `virt` the queue neither becomes full nor stops being full. -/
def Steady (y : Path) (i : Inputs) : Prop :=
  isRequest i.virt = true →
    (y.mmu.buffer.length = burstLength → deqFire y.mmu i = false) ∧
      (y.mmu.buffer.length + 1 = burstLength → deqFire y.mmu i = true)

end

/-! ### One cycle -/

section Cycle

variable {burstLength extAddrWidth : Nat} {y : Path} {i : Inputs}

/-- In supervisor mode nothing but the address changes. -/
theorem translated_of_super (h : i.superMode = true) :
    translated burstLength extAddrWidth y.mmu i =
      { y.mmu.virtReg with addr := translatedAddr burstLength extAddrWidth y.mmu } := by
  simp [translated, violation, h]

/-- What leaves the queue is what the slave accepts. -/
theorem atPhys_append (henv : Env y i) :
    y.atPhys i ++ (if deqFire y.mmu i then y.mmu.buffer.tail else y.mmu.buffer).filter isRequest =
      y.inFlight := by
  unfold atPhys inFlight
  have hcmd := henv.cmd
  have hwords := henv.words
  unfold toPhys at hcmd hwords ⊢
  cases hb : y.mmu.buffer with
  | nil => simp [deqFire, hb, idleRequest]
  | cons m rest =>
    rw [hb] at hcmd hwords
    simp only [List.headD_cons] at hcmd hwords ⊢
    by_cases hm : m.cmd = .idle
    · by_cases hv : m.dataValid = true
      · simp [deqFire, hb, hm, hv, hwords hm hv, isRequest]
      · have hreq : isRequest m = false := by simp [isRequest, hm, hv]
        cases hd : deqFire y.mmu i <;> simp [hm, hv, hreq]
    · have hreq : isRequest m = true := by simp [isRequest, hm]
      have hacc := hcmd hm
      cases ha : i.phys.cmdAccept with
      | true => simp [deqFire, hb, hm, ha, hreq]
      | false => simp [deqFire, hb, hm, ha, hacc, hreq]

theorem length_bufferNext (s : State) :
    (bufferNext burstLength extAddrWidth s i).length + (if deqFire s i then 1 else 0) =
      s.buffer.length + if enqReady burstLength s then 1 else 0 := by
  unfold bufferNext
  rw [List.length_append]
  have hdeq : (if deqFire s i then s.buffer.tail else s.buffer).length +
      (if deqFire s i then 1 else 0) = s.buffer.length := by
    cases hd : deqFire s i with
    | false => rfl
    | true =>
      have hne : s.buffer ≠ [] := by
        intro hnil
        simp [deqFire, hnil] at hd
      have := List.length_pos_iff.mpr hne
      simp only [if_true, List.length_tail]
      omega
  have henq : (if enqReady burstLength s then [translated burstLength extAddrWidth s i]
      else []).length = if enqReady burstLength s then 1 else 0 := by
    cases enqReady burstLength s <;> rfl
  omega

/-- What `virt` is told in a steady cycle is still true in the next. -/
theorem enqReady_of_steady (hst : Steady burstLength y i) (hreq : isRequest i.virt = true) :
    enqReady burstLength (next burstLength extAddrWidth y i).mmu = enqReady burstLength y.mmu := by
  obtain ⟨hfull, hlast⟩ := hst hreq
  have hlen : (bufferNext burstLength extAddrWidth y.mmu i).length +
      (if deqFire y.mmu i then 1 else 0) =
        y.mmu.buffer.length + if enqReady burstLength y.mmu then 1 else 0 :=
    length_bufferNext y.mmu
  change decide ((bufferNext burstLength extAddrWidth y.mmu i).length < burstLength) =
    decide (y.mmu.buffer.length < burstLength)
  apply decide_eq_decide.mpr
  cases hd : deqFire y.mmu i with
  | true =>
    rw [hd] at hlen hfull
    by_cases hlt : y.mmu.buffer.length < burstLength
    · simp only [enqReady, hlt, decide_true, if_true] at hlen
      omega
    · have : y.mmu.buffer.length ≠ burstLength := fun h => Bool.noConfusion (hfull h)
      simp only [enqReady, hlt, decide_false, if_true] at hlen
      simp only [Bool.false_eq_true, if_false] at hlen
      omega
  | false =>
    rw [hd] at hlen hlast
    by_cases hlt : y.mmu.buffer.length < burstLength
    · have : y.mmu.buffer.length + 1 ≠ burstLength := fun h => Bool.noConfusion (hlast h)
      simp only [enqReady, hlt, decide_true, if_true] at hlen
      simp only [Bool.false_eq_true, if_false] at hlen
      omega
    · simp only [enqReady, hlt, decide_false] at hlen
      simp only [Bool.false_eq_true, if_false] at hlen
      omega

/-- What enters the queue is what was accepted at `virt`. -/
theorem inFlight_next (henv : Env y i)
    (hacc : isRequest y.mmu.virtReg = true → y.accepted = enqReady burstLength y.mmu) :
    y.inFlight ++ y.atVirt burstLength extAddrWidth i =
      y.atPhys i ++ (next burstLength extAddrWidth y i).inFlight := by
  have hflight : (next burstLength extAddrWidth y i).inFlight =
      (if deqFire y.mmu i then y.mmu.buffer.tail else y.mmu.buffer).filter isRequest ++
        y.atVirt burstLength extAddrWidth i := by
    change (bufferNext burstLength extAddrWidth y.mmu i).filter isRequest = _
    unfold bufferNext atVirt
    rw [List.filter_append, translated_of_super henv.superMode]
    congr 1
    generalize hm : ({ y.mmu.virtReg with
      addr := translatedAddr burstLength extAddrWidth y.mmu } : BurstMaster) = m
    have hsame : isRequest m = isRequest y.mmu.virtReg := by rw [← hm]; rfl
    rw [← hsame]
    cases hreq : isRequest m with
    | true =>
      rw [hacc (hsame.symm.trans hreq)]
      cases enqReady burstLength y.mmu <;> simp [hreq]
    | false => cases enqReady burstLength y.mmu <;> simp [hreq]
  rw [hflight, ← List.append_assoc, atPhys_append henv]

end Cycle

/-! ### Every steady run -/

/-- In every run in which the queue is steady whenever there is a request, the requests
    accepted at `virt` are, with translated addresses and in order, those accepted at `phys`
    followed by those still in the queue. -/
theorem forwarded_of_steady {burstLength extAddrWidth : Nat} {y : Path} {is : List Inputs}
    (hreset : IsReset y.mmu)
    (hrun : Along (next burstLength extAddrWidth)
      (fun y i => Env y i ∧ Steady burstLength y i) y is) :
    emitted (next burstLength extAddrWidth) (atVirt burstLength extAddrWidth) y is =
      emitted (next burstLength extAddrWidth) atPhys y is ++
        (run (next burstLength extAddrWidth) y is).inFlight := by
  let I : List Inputs → Path → Prop := fun p z =>
    (isRequest z.mmu.virtReg = true → z.accepted = enqReady burstLength z.mmu) ∧
      emitted (next burstLength extAddrWidth) (atVirt burstLength extAddrWidth) y p =
        emitted (next burstLength extAddrWidth) atPhys y p ++ z.inFlight
  have hI : I is (run (next burstLength extAddrWidth) y is) := by
    refine inv_history (I := I) ⟨?_, ?_⟩ ?_ hrun
    · intro hreq
      rw [hreset.virtReg] at hreq
      cases hreq
    · simp [inFlight, hreset.buffer]
    · rintro p i ⟨hacc, hlog⟩ ⟨henv, hsteady⟩
      constructor
      · intro hreq
        exact (enqReady_of_steady hsteady hreq).symm
      · rw [emitted_concat, emitted_concat, hlog, List.append_assoc, List.append_assoc,
          inFlight_next henv hacc]
  exact hI.2

/-! ### Two runs -/

instance (y : Path) (i : Inputs) : Decidable (Env y i) :=
  decidable_of_iff (_ ∧ _ ∧ _) ⟨fun ⟨a, b, c⟩ => ⟨a, b, c⟩, fun ⟨a, b, c⟩ => ⟨a, b, c⟩⟩

instance (burstLength : Nat) (y : Path) (i : Inputs) : Decidable (Steady burstLength y i) :=
  inferInstanceAs (Decidable (_ → _ ∧ _))

/-- After reset, with segment 0 at address 0x1000 and everything else zero. -/
def powerUp : Path :=
  { mmu := ⟨⟨.idle, 0, 0⟩, fun _ => 0, fun n => if n = 0 then 0x100 else 0, idleRequest, false, [],
      .idle, 0⟩
    accepted := false }

/-- A cycle in supervisor mode with a request at `virt` and the accept signals of the slave. -/
def superCycle (virt : BurstMaster) (accept : Bool) : Inputs :=
  ⟨⟨.idle, 0, 0⟩, true, false, virt, ⟨.null, fun _ => 0, accept, accept⟩⟩

def readOf (addr : Nat) : BurstMaster := ⟨.rd, addr, fun _ => 0, false, allBytes⟩

/-- A burst of two words to address 32, and a slave that accepts the command in its third
    cycle. -/
def slowWrite : List Inputs :=
  [superCycle idleRequest true, superCycle ⟨.wr, 32, fun _ => 1, true, allBytes⟩ true,
    superCycle ⟨.idle, 32, fun _ => 2, true, allBytes⟩ true, superCycle idleRequest false,
    superCycle idleRequest false, superCycle idleRequest true, superCycle idleRequest true]

theorem slowWrite_forwarded :
    IsReset powerUp.mmu ∧
      (emitted (next 4 21) atPhys powerUp slowWrite).map (fun m => (m.cmd, m.addr, m.data 0)) =
        [(.wr, 0x1020, 1), (.idle, 0x1020, 2)] ∧
      emitted (next 4 21) (atVirt 4 21) powerUp slowWrite =
        emitted (next 4 21) atPhys powerUp slowWrite ++
          (run (next 4 21) powerUp slowWrite).inFlight :=
  ⟨⟨rfl, rfl, rfl⟩, by decide +kernel, forwarded_of_steady ⟨rfl, rfl, rfl⟩ (by decide +kernel)⟩

/-- The slave does not accept while it has no command, so idle requests fill the queue; a read
    comes when there is one entry left. -/
def fillingUp : List Inputs :=
  [superCycle idleRequest false, superCycle (readOf 32) false, superCycle idleRequest true,
    superCycle idleRequest true, superCycle idleRequest true, superCycle idleRequest true]

/-- The read is accepted, and in the next cycle the queue is full: it gets lost. -/
theorem fillingUp_lost :
    IsReset powerUp.mmu ∧ Along (next 2 21) Env powerUp fillingUp ∧
      (emitted (next 2 21) (atVirt 2 21) powerUp fillingUp).map (fun m => (m.cmd, m.addr)) =
        [(.rd, 0x820)] ∧
      ¬ emitted (next 2 21) (atVirt 2 21) powerUp fillingUp =
        emitted (next 2 21) atPhys powerUp fillingUp ++
          (run (next 2 21) powerUp fillingUp).inFlight := by
  refine ⟨⟨rfl, rfl, rfl⟩, by decide +kernel, by decide +kernel, ?_⟩
  intro h
  have hlen := congrArg List.length h
  exact absurd hlen (by decide +kernel)

end Path

end Patmos.MemoryManagement
