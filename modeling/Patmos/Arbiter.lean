import Patmos.Clocked
import Patmos.MemBlock
import Patmos.RoundRobin

/-!
# The round robin arbiter for burst slaves

Every master is behind an `OcpBurstBuffer`, a shift register as long as a burst.  It moves
while there is no command in its first place, so that a write command gets there together
with all its words, and then waits for the slave to accept.  The arbiter shows the slave the
first place of the buffer whose turn it is, and that buffer the answers of the slave; a turn
ends when nothing is there to be served or with the last answer.

The arbiter is put between masters that have one transaction outstanding each and a slave
that answers with DVA.  Ledgers beside the circuit keep what the slave has to answer, to which
master, and what each master waits for.
-/

namespace Patmos.Arbiter

open Ocp Clocked

/-! ### The buffer of a master -/

/-- `OcpBurstBuffer`; `mBuffer` has `burstLength` entries. -/
structure Buffer where
  mBuffer : Nat → BurstMaster
  sBuffer : BurstSlave

namespace Buffer

def free (b : Buffer) : Bool := (b.mBuffer 0).cmd == .idle

/-- `master.S`. -/
def toMaster (b : Buffer) : BurstSlave :=
  { b.sBuffer with cmdAccept := b.free, dataAccept := b.free }

def next (burstLength : Nat) (b : Buffer) (m : BurstMaster) (s : BurstSlave) : Buffer :=
  { mBuffer := if b.free || s.cmdAccept then
        fun j => if j + 1 < burstLength then b.mBuffer (j + 1) else m
      else b.mBuffer
    sBuffer := s }

end Buffer

/-! ### The arbiter -/

inductive Fsm where
  | idle
  | read
  | write
deriving DecidableEq, Repr

structure State (cnt : Nat) where
  turnReg : Fin cnt
  burstCntReg : Nat
  stateReg : Fsm
  masterBuffer : Fin cnt → Buffer

/-- What comes in at the ports in a cycle. -/
structure Cycle (cnt : Nat) where
  master : Fin cnt → BurstMaster
  slave : BurstSlave

variable {cnt : Nat}

/-- `io.slave.M`. -/
def toSlave (s : State cnt) : BurstMaster := (s.masterBuffer s.turnReg).mBuffer 0

/-- `masterBuffer(i).S`. -/
def portS (s : State cnt) (slave : BurstSlave) (i : Fin cnt) : BurstSlave :=
  if i = s.turnReg then slave else ⟨.null, slave.data, false, false⟩

/-- The next `turnReg`, `burstCntReg` and `stateReg`. -/
def ctrlNext (burstLen : Nat) (s : State cnt) (slave : BurstSlave) : Fin cnt × Nat × Fsm :=
  match s.stateReg with
  | .idle =>
    match (toSlave s).cmd with
    | .idle => (RoundRobin.succ s.turnReg, s.burstCntReg, .idle)
    | .rd => (s.turnReg, s.burstCntReg, .read)
    | .wr => (s.turnReg, 0, .write)
  | .write =>
    if slave.resp = .dva then (RoundRobin.succ s.turnReg, s.burstCntReg, .idle)
    else (s.turnReg, s.burstCntReg, .write)
  | .read =>
    if slave.resp = .dva then
      if s.burstCntReg = burstLen - 1 then
        (RoundRobin.succ s.turnReg, (s.burstCntReg + 1) % 2 ^ MemBlock.log2Up burstLen, .idle)
      else (s.turnReg, (s.burstCntReg + 1) % 2 ^ MemBlock.log2Up burstLen, .read)
    else (s.turnReg, s.burstCntReg, .read)

def next (burstLen : Nat) (s : State cnt) (c : Cycle cnt) : State cnt :=
  let ctrl := ctrlNext burstLen s c.slave
  { turnReg := ctrl.1
    burstCntReg := ctrl.2.1
    stateReg := ctrl.2.2
    masterBuffer := fun i =>
      (s.masterBuffer i).next burstLen (c.master i) (portS s c.slave i) }

/-! ### Masters and slave -/

/-- The arbiter with its ledgers: the slave has to give `due` answers to the command it took
    last, which came from `owner`, after `words` more words; master `i` waits for `left i`
    answers. -/
structure Bus (cnt : Nat) where
  arb : State cnt
  owner : Fin cnt
  due : Nat
  words : Nat
  left : Fin cnt → Nat

namespace Bus

/-- The slave accepts the command it is shown. -/
def taken (y : Bus cnt) (c : Cycle cnt) : Prop :=
  (toSlave y.arb).cmd ≠ .idle ∧ c.slave.cmdAccept = true

instance (y : Bus cnt) (c : Cycle cnt) : Decidable (y.taken c) := instDecidableAnd

/-- `io.master(i).S`. -/
def toMaster (y : Bus cnt) (i : Fin cnt) : BurstSlave := (y.arb.masterBuffer i).toMaster

/-- A command of master `i` is accepted. -/
def accepted (y : Bus cnt) (c : Cycle cnt) (i : Fin cnt) : Prop :=
  (c.master i).cmd ≠ .idle ∧ (y.toMaster i).cmdAccept = true

instance (y : Bus cnt) (c : Cycle cnt) (i : Fin cnt) : Decidable (y.accepted c i) :=
  instDecidableAnd

section

variable (burstLen : Nat)

def next (y : Bus cnt) (c : Cycle cnt) : Bus cnt :=
  { arb := Arbiter.next burstLen y.arb c
    owner := if y.taken c then y.arb.turnReg else y.owner
    due := if y.taken c then answers burstLen (toSlave y.arb).cmd
      else if c.slave.resp = .null then y.due else y.due - 1
    words := if y.taken c then if (toSlave y.arb).cmd = .wr then burstLen - 1 else 0
      else y.words - 1
    left := fun i => if y.accepted c i then answers burstLen (c.master i).cmd
      else if (y.toMaster i).resp = .null then y.left i else y.left i - 1 }

end

/-- A master issues a command when all answers to the one before have come, at the earliest in
    the cycle of the last one.  The slave gives no answers but DVA and none that is not due,
    to a write at the earliest with its last word; it accepts a write with its first word
    and then a word in every cycle. -/
structure Legal (y : Bus cnt) (c : Cycle cnt) : Prop where
  master : ∀ i, (c.master i).cmd ≠ .idle →
    y.left i = 0 ∨ y.left i = 1 ∧ (y.toMaster i).resp ≠ .null
  resp : c.slave.resp ≠ .null → c.slave.resp = .dva ∧ 0 < y.due ∧ y.words ≤ 1
  first : (toSlave y.arb).cmd = .wr → c.slave.cmdAccept = true → c.slave.dataAccept = true
  more : 0 < y.words → c.slave.dataAccept = true

/-- The registers with a reset value have it, and no command came in during reset. -/
structure IsReset (y : Bus cnt) : Prop where
  turnReg : y.arb.turnReg.val = 0
  burstCntReg : y.arb.burstCntReg = 0
  stateReg : y.arb.stateReg = .idle
  mBuffer : ∀ i j, ((y.arb.masterBuffer i).mBuffer j).cmd = .idle
  sBuffer : ∀ i, (y.arb.masterBuffer i).sBuffer.resp = .null
  due : y.due = 0
  words : y.words = 0
  left : ∀ i, y.left i = 0

end Bus

/-! ### A buffer of a master -/

/-- An answer on its way to the master. -/
def beat (r : OcpResp) : Nat := if r = .null then 0 else 1

@[simp] theorem beat_null : beat .null = 0 := rfl

theorem beat_eq_zero {r : OcpResp} : beat r = 0 ↔ r = .null := by
  rw [beat, ite_eq_left_iff]
  exact ⟨fun h => by_contra fun hne => one_ne_zero (h hne), fun h hne => absurd h hne⟩

namespace Buffer

/-- The command in the first place is taken. -/
def Taken (b : Buffer) (s : BurstSlave) : Prop :=
  (b.mBuffer 0).cmd ≠ .idle ∧ s.cmdAccept = true

/-- The buffer of a master holds one command, at `p`, or none; the master waits for `left`
    answers, of which the slave has to give `served`. -/
inductive Place (burstLen : Nat) (b : Buffer) (left served : Nat) : Prop where
  | waiting (p : Nat) (hp : p < burstLen) (hcmd : (b.mBuffer p).cmd ≠ .idle)
      (hothers : ∀ j, j < burstLen → j ≠ p → (b.mBuffer j).cmd = .idle)
      (hleft : left = answers burstLen (b.mBuffer p).cmd) (hsBuffer : b.sBuffer.resp = .null)
      (hserved : served = 0)
  | clear (hclear : ∀ j, j < burstLen → (b.mBuffer j).cmd = .idle)
      (hleft : left = served + beat b.sBuffer.resp)

variable {burstLen : Nat} {b : Buffer} {m : BurstMaster} {s : BurstSlave}
  {left served left' served' : Nat}

theorem next_of_shift (h : b.free = true ∨ s.cmdAccept = true) (j : Nat) :
    (b.next burstLen m s).mBuffer j = if j + 1 < burstLen then b.mBuffer (j + 1) else m := by
  rw [next, if_pos (Bool.or_eq_true _ _ ▸ h)]

/-- A command waits in the first place until it is taken. -/
theorem next_of_wait (hcmd : (b.mBuffer 0).cmd ≠ .idle) (htaken : ¬ b.Taken s) :
    (b.next burstLen m s).mBuffer = b.mBuffer := by
  have hfree : b.free = false := beq_eq_false_iff_ne.mpr hcmd
  have haccept : s.cmdAccept = false := Bool.eq_false_iff.mpr fun h => htaken ⟨hcmd, h⟩
  simp [next, hfree, haccept]

section

variable (hlen : 2 ≤ burstLen) (h : Place burstLen b left served)
  (hm : m.cmd ≠ .idle → left = 0 ∨ left = 1 ∧ b.sBuffer.resp ≠ .null)
include hlen h hm

/-- With a command there is no other one, and none comes in. -/
theorem Place.alone {p : Nat} (hp : p < burstLen) (hcmd : (b.mBuffer p).cmd ≠ .idle) :
    (∀ j, j < burstLen → j ≠ p → (b.mBuffer j).cmd = .idle) ∧ m.cmd = .idle := by
  cases h with
  | clear hclear _ => exact absurd (hclear p hp) hcmd
  | waiting q hq hcmd' hothers hleft hsBuffer _ =>
    have hsame : p = q := by
      by_contra hne
      exact hcmd (hothers p hp hne)
    subst hsame
    refine ⟨hothers, by_contra fun hissue => ?_⟩
    rcases hm hissue with hzero | ⟨-, hne⟩
    · exact hcmd (answers_eq_zero hlen (hleft.symm.trans hzero))
    · exact hne hsBuffer

/-- One cycle of a buffer.  A new command is one whose master has had all its answers; what is
    there moves up, or waits, or is taken. -/
theorem Place.next (hnew : m.cmd ≠ .idle → b.free = true → left' = answers burstLen m.cmd)
    (hold : m.cmd = .idle → left' = left - beat b.sBuffer.resp)
    (htake : b.Taken s → s.resp = .null ∧ served' = answers burstLen (b.mBuffer 0).cmd)
    (hkeep : ¬ b.Taken s → served' + beat s.resp = served) :
    Place burstLen (b.next burstLen m s) left' served' := by
  have hpos : 0 < burstLen := Nat.lt_of_lt_of_le Nat.two_pos hlen
  have halone := fun p => h.alone hlen hm (p := p)
  cases h with
  | clear hclear hleft =>
    have hfree : b.free = true := beq_iff_eq.mpr (hclear 0 hpos)
    have hserved := hkeep fun h => h.1 (hclear 0 hpos)
    by_cases hcmd : m.cmd = .idle
    · refine .clear (fun j hj => ?_) ?_
      · rw [next_of_shift (.inl hfree)]
        split
        · exact hclear (j + 1) ‹_›
        · exact hcmd
      · rw [hold hcmd, hleft, Nat.add_sub_cancel]
        exact hserved.symm
    · have hzero : served = 0 := by
        rcases hm hcmd with hzero | ⟨hone, hne⟩
        · exact Nat.eq_zero_of_add_eq_zero_right (hleft.symm.trans hzero)
        · rw [beat, if_neg hne, hone] at hleft
          exact (Nat.succ_injective hleft).symm
      obtain ⟨hserved', hbeat⟩ := Nat.add_eq_zero_iff.mp (hserved.trans hzero)
      have htail : (b.next burstLen m s).mBuffer (burstLen - 1) = m := by
        rw [next_of_shift (.inl hfree), if_neg (by omega)]
      refine .waiting (burstLen - 1) (Nat.sub_one_lt_of_lt hpos) ?_ (fun j hj hne => ?_) ?_
        (beat_eq_zero.mp hbeat) hserved'
      · rw [htail]
        exact hcmd
      · rw [next_of_shift (.inl hfree), if_pos (by omega)]
        exact hclear (j + 1) (by omega)
      · rw [htail, hnew hcmd hfree]
  | waiting p hp hcmd hothers hleft hsBuffer hserved =>
    have hidle := (halone p hp hcmd).2
    have hleft' := hold hidle
    rw [hsBuffer, beat_null, Nat.sub_zero, hleft] at hleft'
    by_cases htaken : b.Taken s
    · have hfirst : p = 0 := by
        by_contra hne
        exact htaken.1 (hothers 0 hpos (Ne.symm hne))
      subst hfirst
      obtain ⟨hresp, hserved'⟩ := htake htaken
      refine .clear (fun j hj => ?_) ?_
      · rw [next_of_shift (.inr htaken.2)]
        split
        · exact hothers (j + 1) ‹_› (Nat.succ_ne_zero j)
        · exact hidle
      · rw [hleft', hserved', Buffer.next, hresp, beat_null, Nat.add_zero]
    · obtain ⟨hserved', hbeat⟩ := Nat.add_eq_zero_iff.mp ((hkeep htaken).trans hserved)
      have hresp := beat_eq_zero.mp hbeat
      rcases Nat.eq_zero_or_pos p with rfl | hmove
      · have hwait : (b.next burstLen m s).mBuffer = b.mBuffer := next_of_wait hcmd htaken
        exact .waiting 0 hpos (hwait ▸ hcmd) (hwait ▸ hothers) (hwait ▸ hleft') hresp hserved'
      · have hshift : ∀ j, (b.next burstLen m s).mBuffer j = _ :=
          next_of_shift (.inl (beq_iff_eq.mpr (hothers 0 hpos (Nat.ne_of_lt hmove))))
        have hup : (b.next burstLen m s).mBuffer (p - 1) = b.mBuffer p := by
          rw [hshift, Nat.sub_add_cancel hmove, if_pos hp]
        refine .waiting (p - 1) (Nat.lt_of_le_of_lt (Nat.sub_le p 1) hp) (hup ▸ hcmd)
          (fun j hj hne => ?_) (hup ▸ hleft') hresp hserved'
        rw [hshift]
        split
        · exact hothers (j + 1) ‹_› (by omega)
        · exact hidle

end

end Buffer

/-! ### The control registers -/

/-- The state for a command. -/
def asked (k : OcpCmd) : Fsm := if k = .rd then .read else .write

namespace State

/-- The registers besides the buffers. -/
def ctrl (s : State cnt) : Fin cnt × Nat × Fsm := (s.turnReg, s.burstCntReg, s.stateReg)

variable {burstLen : Nat} {s : State cnt} {slave : BurstSlave} {i : Fin cnt} {n : Nat}

theorem ctrlNext_of_idle (h : s.ctrl.2 = (n, .idle)) (hcmd : (toSlave s).cmd = .idle) :
    ctrlNext burstLen s slave = (RoundRobin.succ s.turnReg, n, .idle) := by
  obtain ⟨hcnt, hstate⟩ := Prod.mk.inj h
  simp [ctrlNext, hstate, hcmd, hcnt]

theorem ctrlNext_of_cmd (hcmd : (toSlave s).cmd ≠ .idle) (hresp : slave.resp = .null)
    (h : s.ctrl.2 = (0, .idle) ∨ s.ctrl.2 = (0, asked (toSlave s).cmd)) :
    ctrlNext burstLen s slave = (s.turnReg, 0, asked (toSlave s).cmd) := by
  cases hk : (toSlave s).cmd with
  | idle => exact absurd hk hcmd
  | rd | wr =>
    rw [hk] at h
    rcases h with h | h <;> obtain ⟨hcnt, hstate⟩ := Prod.mk.inj h <;>
      simp [ctrlNext, hstate, hk, hresp, hcnt, asked]

theorem ctrlNext_of_null {f : Fsm} (h : s.ctrl = (i, n, f)) (hf : f ≠ .idle)
    (hresp : slave.resp = .null) : ctrlNext burstLen s slave = (i, n, f) := by
  simp only [ctrl, Prod.mk.injEq] at h
  cases f with
  | idle => exact absurd rfl hf
  | read | write => simp [ctrlNext, h, hresp]

theorem ctrlNext_of_write (h : s.ctrl = (i, n, .write)) (hresp : slave.resp = .dva) :
    ctrlNext burstLen s slave = (RoundRobin.succ i, n, .idle) := by
  simp only [ctrl, Prod.mk.injEq] at h
  simp [ctrlNext, h, hresp]

/-- The counter has as many values as a burst has words. -/
theorem ctrlNext_of_read {k : Nat} (hk : 1 ≤ k) (hpow : burstLen = 2 ^ k)
    (h : s.ctrl = (i, n, .read)) (hn : n < burstLen) (hresp : slave.resp = .dva) :
    ctrlNext burstLen s slave =
      if n + 1 = burstLen then (RoundRobin.succ i, 0, .idle) else (i, n + 1, .read) := by
  have hwrap : 2 ^ MemBlock.log2Up burstLen = burstLen := MemBlock.pow_log2Up hk hpow
  simp only [ctrl, Prod.mk.injEq] at h
  simp only [ctrlNext, h, hresp, if_true, hwrap]
  by_cases hlast : n + 1 = burstLen
  · rw [if_pos (by omega), if_pos hlast, hlast, Nat.mod_self]
  · rw [if_neg (by omega), if_neg hlast, Nat.mod_eq_of_lt (by omega)]

end State

namespace Bus

/-! ### The invariant -/

/-- What the slave has to answer to master `i`. -/
def served (y : Bus cnt) (i : Fin cnt) : Nat := if y.owner = i then y.due else 0

section

variable (burstLen : Nat)

/-- What `stateReg` stands for. -/
inductive Phase (y : Bus cnt) : Prop where
  | idle (hctrl : y.arb.ctrl.2 = (0, .idle)) (hdue : y.due = 0) (hwords : y.words = 0)
  | ask (hctrl : y.arb.ctrl.2 = (0, asked (toSlave y.arb).cmd))
      (hcmd : (toSlave y.arb).cmd ≠ .idle) (hdue : y.due = 0) (hwords : y.words = 0)
  | read (n : Nat) (hctrl : y.arb.ctrl = (y.owner, n, .read)) (hdue : 0 < y.due)
      (hcnt : y.due + n = burstLen) (hwords : y.words = 0)
  | write (hctrl : y.arb.ctrl = (y.owner, 0, .write)) (hdue : y.due = 1)

structure Inv (y : Bus cnt) : Prop where
  place : ∀ i, Buffer.Place burstLen (y.arb.masterBuffer i) (y.left i) (y.served i)
  phase : Phase burstLen y

end

section Cycle

variable {burstLen : Nat} {y y' : Bus cnt} {c : Cycle cnt} {i : Fin cnt}

variable (hlen : 0 < burstLen) (hinv : Inv burstLen y) (hleg : Legal y c)
  (hy : y' = next burstLen y c)

/-- Answers are due to the master whose turn it is. -/
theorem Phase.owner_of_due (h : Phase burstLen y) (hdue : 0 < y.due) :
    y.owner = y.arb.turnReg := by
  cases h with
  | idle _ hzero _ | ask _ _ hzero _ => exact absurd hzero (ne_of_gt hdue)
  | read _ hctrl _ _ _ | write hctrl _ => exact (congrArg (·.1) hctrl).symm

include hlen in
/-- Nothing is shown to the slave while answers are due. -/
theorem Inv.cmd_of_due (h : Inv burstLen y) (hdue : 0 < y.due) : (toSlave y.arb).cmd = .idle := by
  have howner := h.phase.owner_of_due hdue
  cases h.place y.arb.turnReg with
  | waiting _ _ _ _ _ _ hserved =>
    rw [served, if_pos howner] at hserved
    exact absurd hserved (ne_of_gt hdue)
  | clear hclear _ => exact hclear 0 hlen

include hlen in
theorem Inv.due_of_cmd (h : Inv burstLen y) (hcmd : (toSlave y.arb).cmd ≠ .idle) : y.due = 0 := by
  by_contra hdue
  exact hcmd (h.cmd_of_due hlen (Nat.pos_of_ne_zero hdue))

theorem Legal.resp_of_due (h : Legal y c) (hdue : y.due = 0) : c.slave.resp = .null := by
  by_contra hresp
  have hpos := (h.resp hresp).2.1
  rw [hdue] at hpos
  exact lt_irrefl 0 hpos

theorem not_taken_of_cmd (hcmd : (toSlave y.arb).cmd = .idle) : ¬ y.taken c :=
  fun h => h.1 hcmd

/-- What the slave takes is taken from the buffer whose turn it is. -/
theorem taken_iff : (y.arb.masterBuffer i).Taken (portS y.arb c.slave i) ↔
    y.taken c ∧ y.arb.turnReg = i := by
  by_cases hturn : y.arb.turnReg = i
  · subst hturn
    rw [portS, if_pos rfl, and_iff_left rfl]
    rfl
  · simp [Buffer.Taken, portS, hturn, Ne.symm hturn]

/-! #### The arbiter -/

include hy in
theorem next_ctrl : y'.arb.ctrl = ctrlNext burstLen y.arb c.slave := hy ▸ rfl

section

include hy

theorem next_due (htaken : ¬ y.taken c) : y'.due = y.due - beat c.slave.resp := by
  simp only [hy, next, if_neg htaken, beat]
  split <;> rfl

theorem next_words (htaken : ¬ y.taken c) : y'.words = y.words - 1 := by
  simp only [hy, next, if_neg htaken]

theorem next_owner (htaken : ¬ y.taken c) : y'.owner = y.owner := by
  simp only [hy, next, if_neg htaken]

theorem next_of_taken (htaken : y.taken c) : y'.owner = y.arb.turnReg ∧
    y'.due = answers burstLen (toSlave y.arb).cmd ∧
    y'.words = if (toSlave y.arb).cmd = .wr then burstLen - 1 else 0 := by
  simp only [hy, next, if_pos htaken, and_self]

theorem toSlave_next (hcmd : (toSlave y.arb).cmd ≠ .idle) (htaken : ¬ y.taken c)
    (hturn : y'.arb.turnReg = y.arb.turnReg) : toSlave y'.arb = toSlave y.arb := by
  rw [toSlave, hturn, hy]
  exact congrFun (Buffer.next_of_wait hcmd fun h => htaken (taken_iff.mp h).1) 0

include hlen in
theorem Phase.show (hcmd : (toSlave y.arb).cmd ≠ .idle) (hresp : c.slave.resp = .null)
    (hctrl : y.arb.ctrl.2 = (0, .idle) ∨ y.arb.ctrl.2 = (0, asked (toSlave y.arb).cmd))
    (hdue : y.due = 0) (hwords : y.words = 0) : Phase burstLen y' := by
  have hctrl' := (next_ctrl hy).trans (State.ctrlNext_of_cmd hcmd hresp hctrl)
  by_cases htaken : y.taken c
  · obtain ⟨howner, hdue', hwords'⟩ := next_of_taken hy htaken
    rw [← howner] at hctrl'
    cases hk : (toSlave y.arb).cmd with
    | idle => exact absurd hk hcmd
    | rd =>
      rw [hk] at hctrl' hdue' hwords'
      exact .read 0 hctrl' (hdue' ▸ hlen) hdue' hwords'
    | wr =>
      rw [hk] at hctrl' hdue'
      exact .write hctrl' hdue'
  · have hsame := toSlave_next hy hcmd htaken (congrArg (·.1) hctrl')
    refine .ask ?_ (hsame ▸ hcmd) ?_ ?_
    · rw [hctrl', hsame]
    · rw [next_due hy htaken, hdue, Nat.zero_sub]
    · rw [next_words hy htaken, hwords]

include hlen hinv hleg in
/-- The turn stays with a command that is shown. -/
theorem Inv.turn_of_cmd (hcmd : (toSlave y.arb).cmd ≠ .idle) :
    y'.arb.turnReg = y.arb.turnReg := by
  have hdue := hinv.due_of_cmd hlen hcmd
  have hturn : y.arb.ctrl.2 = (0, .idle) ∨ y.arb.ctrl.2 = (0, asked (toSlave y.arb).cmd) := by
    cases hinv.phase with
    | idle hctrl _ _ => exact .inl hctrl
    | ask hctrl _ _ _ => exact .inr hctrl
    | read _ _ hpos _ _ => exact absurd hdue (ne_of_gt hpos)
    | write _ hone => exact absurd (hdue.symm.trans hone) zero_ne_one
  exact congrArg (·.1) ((next_ctrl hy).trans
    (State.ctrlNext_of_cmd hcmd (hleg.resp_of_due hdue) hturn))

include hinv hleg in
theorem Phase.next {k : Nat} (hk : 1 ≤ k) (hpow : burstLen = 2 ^ k) : Phase burstLen y' := by
  have hlen : 0 < burstLen := hpow ▸ Nat.two_pow_pos k
  have hctrl' := next_ctrl hy
  cases hinv.phase with
  | idle hctrl hdue hwords =>
    by_cases hcmd : (toSlave y.arb).cmd = .idle
    · have htaken : ¬ y.taken c := not_taken_of_cmd hcmd
      rw [State.ctrlNext_of_idle hctrl hcmd] at hctrl'
      refine .idle (congrArg (·.2) hctrl') ?_ ?_
      · rw [next_due hy htaken, hdue, Nat.zero_sub]
      · rw [next_words hy htaken, hwords]
    · exact Phase.show hlen hy hcmd (hleg.resp_of_due hdue) (.inl hctrl) hdue hwords
  | ask hctrl hcmd hdue hwords =>
    exact Phase.show hlen hy hcmd (hleg.resp_of_due hdue) (.inr hctrl) hdue hwords
  | read n hctrl hdue hcnt hwords =>
    have htaken : ¬ y.taken c := not_taken_of_cmd (hinv.cmd_of_due hlen hdue)
    have hdue' := next_due hy htaken
    have hwords' : y'.words = 0 := by rw [next_words hy htaken, hwords]
    rw [← next_owner hy htaken] at hctrl
    by_cases hresp : c.slave.resp = .null
    · rw [State.ctrlNext_of_null hctrl Fsm.noConfusion hresp] at hctrl'
      rw [hresp, beat_null, Nat.sub_zero] at hdue'
      exact .read n hctrl' (hdue' ▸ hdue) (hdue' ▸ hcnt) hwords'
    · rw [State.ctrlNext_of_read hk hpow hctrl (by omega) (hleg.resp hresp).1] at hctrl'
      rw [beat, if_neg hresp] at hdue'
      split at hctrl'
      · exact .idle (congrArg (·.2) hctrl') (by omega) hwords'
      · exact .read (n + 1) hctrl' (by omega) (by omega) hwords'
  | write hctrl hdue =>
    have htaken : ¬ y.taken c := not_taken_of_cmd (hinv.cmd_of_due hlen (hdue ▸ Nat.one_pos))
    have hdue' := next_due hy htaken
    rw [hdue] at hdue'
    rw [← next_owner hy htaken] at hctrl
    by_cases hresp : c.slave.resp = .null
    · rw [State.ctrlNext_of_null hctrl Fsm.noConfusion hresp] at hctrl'
      rw [hresp] at hdue'
      exact .write hctrl' hdue'
    · obtain ⟨hdva, -, hlast⟩ := hleg.resp hresp
      rw [State.ctrlNext_of_write hctrl hdva] at hctrl'
      rw [beat, if_neg hresp] at hdue'
      refine .idle (congrArg (·.2) hctrl') hdue' ?_
      rw [next_words hy htaken]
      exact Nat.sub_eq_zero_of_le hlast

end

/-! #### The masters -/

include hinv hleg in
theorem Inv.portS_resp (i : Fin cnt) :
    (portS y.arb c.slave i).resp = if y.owner = i then c.slave.resp else .null := by
  by_cases hresp : c.slave.resp = .null
  · simp [portS, hresp, apply_ite BurstSlave.resp]
  · have howner := hinv.phase.owner_of_due (hleg.resp hresp).2.1
    rw [portS, howner, apply_ite BurstSlave.resp]
    simp only [eq_comm]

include hlen hinv hleg hy in
/-- The slave's account of master `i` when it takes nothing from it. -/
theorem Inv.served_next (htaken : ¬ (y.taken c ∧ y.arb.turnReg = i)) :
    y'.served i + beat (portS y.arb c.slave i).resp = y.served i := by
  rw [hinv.portS_resp hleg, apply_ite beat, beat_null, served, served]
  by_cases h : y.taken c
  · have hdue := hinv.due_of_cmd hlen h.1
    rw [(next_of_taken hy h).1, if_neg fun hi => htaken ⟨h, hi⟩, hleg.resp_of_due hdue, hdue,
      beat_null, ite_self]
  · rw [next_owner hy h, next_due hy h]
    by_cases hi : y.owner = i
    · rw [if_pos hi, if_pos hi, if_pos hi]
      refine Nat.sub_add_cancel ?_
      rw [beat]
      split
      · exact Nat.zero_le _
      · exact (hleg.resp ‹_›).2.1
    · rw [if_neg hi, if_neg hi, if_neg hi]

include hinv hleg hy in
theorem Inv.next {k : Nat} (hk : 1 ≤ k) (hpow : burstLen = 2 ^ k) : Inv burstLen y' := by
  have hlen : 2 ≤ burstLen := hpow ▸ Nat.le_self_pow (Nat.ne_of_gt hk) 2
  have hpos : 0 < burstLen := Nat.lt_of_lt_of_le Nat.two_pos hlen
  refine ⟨fun i => ?_, Phase.next hinv hleg hy hk hpow⟩
  have hbuf : y'.arb.masterBuffer i = (y.arb.masterBuffer i).next burstLen (c.master i)
      (portS y.arb c.slave i) := hy ▸ rfl
  rw [hbuf]
  refine (hinv.place i).next hlen (hleg.master i) ?_ ?_ ?_ ?_
  · intro hcmd hfree
    rw [hy]
    exact if_pos ⟨hcmd, hfree⟩
  · intro hcmd
    rw [hy, beat]
    refine (if_neg fun h => h.1 hcmd).trans ?_
    by_cases hresp : (y.arb.masterBuffer i).sBuffer.resp = .null
    · rw [if_pos hresp]
      exact if_pos hresp
    · rw [if_neg hresp]
      exact if_neg hresp
  · intro htaken
    obtain ⟨h, hturn⟩ := taken_iff.mp htaken
    obtain ⟨howner, hdue, -⟩ := next_of_taken hy h
    subst hturn
    refine ⟨?_, ?_⟩
    · rw [portS, if_pos rfl, hleg.resp_of_due (hinv.due_of_cmd hpos h.1)]
    · rw [served, if_pos howner, hdue]
      rfl
  · intro htaken
    exact hinv.served_next hpos hleg hy fun h => htaken (taken_iff.mpr h)

end Cycle

theorem IsReset.inv {burstLen : Nat} {y : Bus cnt} (h : IsReset y) : Inv burstLen y := by
  constructor
  · intro i
    refine .clear (fun j _ => h.mBuffer i j) ?_
    rw [h.left, served, h.due, h.sBuffer, ite_self, beat_null]
  · exact .idle (Prod.ext h.burstCntReg h.stateReg) h.due h.words

end Bus

end Patmos.Arbiter
