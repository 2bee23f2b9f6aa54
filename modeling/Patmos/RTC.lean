import Mathlib.Data.Int.Basic
import Patmos.Clocked
import Patmos.Ocp

/-!
# The real-time clock of the PTP unit

The clock counts half nanoseconds in `nsTickReg` and seconds in `secTickReg`.  Every cycle adds 12.5
nanoseconds and a correction step that brings `nsOffsetReg` to zero.  The fields are replaced by
writes to the OCP port: the command is registered, in the next cycle its data go to `timeReg`, and
in the cycle after that to the field.  At other times `timeReg` is the time stamp.

The carry into the seconds is decided on the tick register before the increment, so the register
gets to `2 * 10^9` and stays there for a cycle.
-/

namespace Patmos.RTC

open Ocp Clocked

/-! ### The circuit -/

/-- 12.5 nanoseconds. -/
def TIME_STEP : Nat := 25

/-- A second in half nanoseconds. -/
def SEC_IN_NANO : Nat := 2000000000

def MILLI_IN_NANO : Int := 1000000

def MICRO_IN_NANO : Int := 1000

def HUNDRED_NANO : Int := 100

def FIFTY_NANO : Int := 50

/-- The command of the OCP port. -/
structure Master where
  cmd : OcpCmd
  addr : Nat
  data : BitVec 32
deriving DecidableEq

structure State where
  masterReg : Master
  nsOffsetReg : Int
  /-- The upper and the lower half of `timeReg`. -/
  timeReg : Nat × Nat
  secTickReg : Nat
  nsTickReg : Nat
  updateSecReg : Bool
  updateNsReg : Bool
  ppsReg : Bool
  ppsHoldCountReg : Nat
  respReg : OcpResp
  dataReg : Nat

/-- `correctionStepReg`, a wire. -/
def correctionStep (nsOffset : Int) : Int :=
  if nsOffset < -MICRO_IN_NANO ∧ nsOffset ≥ -MILLI_IN_NANO then 25
  else if nsOffset < -HUNDRED_NANO ∧ nsOffset ≥ -MICRO_IN_NANO then 12
  else if nsOffset < -FIFTY_NANO ∧ nsOffset ≥ -HUNDRED_NANO then 6
  else if nsOffset < 0 ∧ nsOffset ≥ -FIFTY_NANO then 1
  else if nsOffset > 0 ∧ nsOffset ≤ FIFTY_NANO then -1
  else if nsOffset > FIFTY_NANO ∧ nsOffset ≤ HUNDRED_NANO then -6
  else if nsOffset > HUNDRED_NANO ∧ nsOffset ≤ MICRO_IN_NANO then -12
  else if nsOffset > MICRO_IN_NANO ∧ nsOffset ≤ MILLI_IN_NANO then -25
  else 0

/-- `(TIME_STEP.S + correctionStepReg).asUInt()`, of 33 bits. -/
def nsIncrement (nsOffset : Int) : Nat := ((TIME_STEP + correctionStep nsOffset) % 2 ^ 33).toNat

/-- The command writes the register at an address. -/
def Master.writes (m : Master) (addr : Nat) : Bool := m.cmd == .wr && m.addr % 64 == addr

def Master.reads (m : Master) (addr : Nat) : Bool := m.cmd == .rd && m.addr % 64 == addr

/-- `ppsDuration` in half nanoseconds, at least ten microseconds. -/
def ppsDuration (duration : Nat) : Nat := 2 * max duration 10 * 1000

def next (duration : Nat) (s : State) (m : Master) : State where
  masterReg := m
  nsOffsetReg :=
    if s.masterReg.writes 0x20 then s.masterReg.data.toInt
    else if s.updateNsReg then s.nsOffsetReg
    else Int.bmod (s.nsOffsetReg + correctionStep s.nsOffsetReg) (2 ^ 33)
  timeReg :=
    if s.masterReg.writes 0x00 then (0, s.masterReg.data.toNat)
    else if s.masterReg.writes 0x04 then (s.masterReg.data.toNat, 0)
    else if s.masterReg.cmd ≠ .wr then (s.secTickReg, s.nsTickReg / 2)
    else s.timeReg
  -- the carry is connected after the replacement
  secTickReg :=
    if s.updateNsReg = false ∧ s.nsTickReg ≥ SEC_IN_NANO then (s.secTickReg + 1) % 2 ^ 32
    else if s.updateSecReg then s.timeReg.1
    else s.secTickReg
  nsTickReg :=
    let nextNano := (s.nsTickReg + nsIncrement s.nsOffsetReg) % 2 ^ 33
    if s.updateNsReg then 2 * s.timeReg.2
    else if s.nsTickReg ≥ SEC_IN_NANO then (nextNano + 2 ^ 33 - SEC_IN_NANO) % 2 ^ 33
    else nextNano
  updateSecReg := s.masterReg.writes 0x04
  updateNsReg := s.masterReg.writes 0x00
  ppsReg :=
    if s.ppsReg = false then s.nsTickReg ≥ SEC_IN_NANO - nsIncrement s.nsOffsetReg
    else s.ppsHoldCountReg > TIME_STEP
  ppsHoldCountReg :=
    if s.ppsReg = false then s.ppsHoldCountReg
    else if s.ppsHoldCountReg > TIME_STEP then s.ppsHoldCountReg - TIME_STEP
    else ppsDuration duration
  respReg := if s.masterReg.cmd = .wr ∨ s.masterReg.cmd = .rd then .dva else .null
  dataReg :=
    if s.masterReg.reads 0x00 then s.timeReg.2
    else if s.masterReg.reads 0x04 then s.timeReg.1
    else if s.masterReg.reads 0x20 then (s.nsOffsetReg % 2 ^ 33).toNat / 2
    else s.dataReg

/-- The port is idle during the reset. -/
def reset (duration initialTime : Nat) : State where
  masterReg := ⟨.idle, 0, 0⟩
  nsOffsetReg := 0
  timeReg := (0, 0)
  secTickReg := initialTime % 2 ^ 32
  nsTickReg := 0
  updateSecReg := false
  updateNsReg := false
  ppsReg := false
  ppsHoldCountReg := ppsDuration duration
  respReg := .null
  dataReg := 0

/-! ### What the clock is promised to do -/

/-- The clock and the command two cycles before, whose data are in `timeReg`. -/
structure Sys where
  rtc : State
  before : Master

def Sys.next (duration : Nat) (s : Sys) (m : Master) : Sys :=
  ⟨RTC.next duration s.rtc m, s.rtc.masterReg⟩

def Sys.reset (duration initialTime : Nat) : Sys := ⟨RTC.reset duration initialTime, ⟨.idle, 0, 0⟩⟩

/-- The time in half nanoseconds. -/
def total (s : State) : Int := s.secTickReg * SEC_IN_NANO + s.nsTickReg

/-- The clock with no field about to be replaced. -/
def State.free (s : State) : State := { s with updateSecReg := false, updateNsReg := false }

/-- A cycle counts exactly, replaces exactly the field that was written, and gives a time stamp that
    is normalised. -/
structure Correct (duration : Nat) (s : Sys) (m : Master) : Prop where
  count : s.before.writes 0x00 = false → s.before.writes 0x04 = false →
    total (next duration s.rtc m) = total s.rtc + (TIME_STEP + correctionStep s.rtc.nsOffsetReg)
  seconds : s.before.writes 0x04 = true →
    (next duration s.rtc m).secTickReg = s.before.data.toNat ∧
      (next duration s.rtc m).nsTickReg = (next duration s.rtc.free m).nsTickReg
  nanoseconds : s.before.writes 0x00 = true → s.before.data.toNat < 10 ^ 9 →
    (next duration s.rtc m).nsTickReg = 2 * s.before.data.toNat ∧
      (next duration s.rtc m).secTickReg = (next duration s.rtc.free m).secTickReg
  stamp : (next duration s.rtc m).timeReg.2 < 10 ^ 9

/-- The nanoseconds that are written are below a second, and the clock does not stand at the end of
    a second; when it does, the port is just writing, no nanoseconds are replaced, and the seconds
    either are replaced by what the carry makes of them or can be counted up. -/
structure Inside (s : Sys) : Prop where
  data : s.rtc.masterReg.writes 0x00 = true → s.rtc.masterReg.data.toNat < 10 ^ 9
  boundary : SEC_IN_NANO ≤ s.rtc.nsTickReg →
    s.rtc.masterReg.cmd = .wr ∧ s.before.writes 0x00 = false ∧
      (s.before.writes 0x04 = true → s.before.data.toNat = (s.rtc.secTickReg + 1) % 2 ^ 32) ∧
      (s.before.writes 0x04 = false → s.rtc.secTickReg + 1 < 2 ^ 32)

section Proofs

variable {duration : Nat} {r z : State} {b m : Master}

theorem correctionStep_bounds (nsOffset : Int) :
    -25 ≤ correctionStep nsOffset ∧ correctionStep nsOffset ≤ 25 := by
  unfold correctionStep
  split_ifs <;> decide

/-- The increment is not negative. -/
theorem nsIncrement_eq (nsOffset : Int) :
    (nsIncrement nsOffset : Int) = TIME_STEP + correctionStep nsOffset := by
  obtain ⟨hlow, hhigh⟩ := correctionStep_bounds nsOffset
  unfold nsIncrement TIME_STEP
  omega

theorem nsIncrement_le (nsOffset : Int) : nsIncrement nsOffset ≤ 50 := by
  have heq := nsIncrement_eq nsOffset
  obtain ⟨hlow, hhigh⟩ := correctionStep_bounds nsOffset
  unfold TIME_STEP at heq
  omega

/-- The registers hold the command of two cycles before. -/
structure Inv (s : Sys) : Prop where
  updateSec : s.rtc.updateSecReg = s.before.writes 0x04
  updateNs : s.rtc.updateNsReg = s.before.writes 0x00
  seconds : s.before.writes 0x04 = true → s.rtc.timeReg.1 = s.before.data.toNat
  nanoseconds : s.before.writes 0x00 = true → s.rtc.timeReg.2 = s.before.data.toNat
  time_lt : s.rtc.timeReg.1 < 2 ^ 32 ∧ s.rtc.timeReg.2 < 2 ^ 32
  sec_lt : s.rtc.secTickReg < 2 ^ 32
  ns_lt : s.rtc.nsTickReg < 2 ^ 33

theorem inv_reset (duration initialTime : Nat) : Inv (Sys.reset duration initialTime) where
  updateSec := rfl
  updateNs := rfl
  seconds h := Bool.noConfusion h
  nanoseconds h := Bool.noConfusion h
  time_lt := ⟨Nat.two_pow_pos 32, Nat.two_pow_pos 32⟩
  sec_lt := Nat.mod_lt _ (Nat.two_pow_pos 32)
  ns_lt := Nat.two_pow_pos 33

theorem writes_ne {a a' : Nat} (h : m.writes a = true) (hne : a ≠ a') : m.writes a' = false := by
  unfold Master.writes at *
  obtain ⟨-, haddr⟩ := Bool.and_eq_true_iff.mp h
  rw [beq_iff_eq.mp haddr, beq_false_of_ne hne]
  exact Bool.and_false _

theorem cmd_of_writes {addr : Nat} (h : m.writes addr = true) : m.cmd = .wr :=
  beq_iff_eq.mp (Bool.and_eq_true_iff.mp h).1

section Next

variable (hz : z = next duration r m)
include hz

theorem timeReg_next : z.timeReg =
    if r.masterReg.writes 0x00 then (0, r.masterReg.data.toNat)
    else if r.masterReg.writes 0x04 then (r.masterReg.data.toNat, 0)
    else if r.masterReg.cmd ≠ .wr then (r.secTickReg, r.nsTickReg / 2)
    else r.timeReg := hz ▸ rfl

theorem stamp_iff (hstamp : r.timeReg.2 < 10 ^ 9) : z.timeReg.2 < 10 ^ 9 ↔
      (r.masterReg.writes 0x00 = true → r.masterReg.data.toNat < 10 ^ 9) ∧
        (SEC_IN_NANO ≤ r.nsTickReg → r.masterReg.cmd = .wr) := by
  rw [timeReg_next hz]
  by_cases h0 : r.masterReg.writes 0x00 = true
  · have hcmd := cmd_of_writes h0
    rw [if_pos h0]
    exact ⟨fun hlt => ⟨fun _ => hlt, fun _ => hcmd⟩, fun hlt => hlt.1 h0⟩
  · rw [if_neg h0]
    by_cases h4 : r.masterReg.writes 0x04 = true
    · have hcmd := cmd_of_writes h4
      rw [if_pos h4]
      exact ⟨fun _ => ⟨fun h0' => absurd h0' h0, fun _ => hcmd⟩, fun _ => Nat.pow_pos (by decide)⟩
    · rw [if_neg h4]
      by_cases hcmd : r.masterReg.cmd = .wr
      · rw [if_neg (not_not.mpr hcmd)]
        exact ⟨fun _ => ⟨fun h0' => absurd h0' h0, fun _ => hcmd⟩, fun _ => hstamp⟩
      · rw [if_pos hcmd]
        change r.nsTickReg / 2 < 10 ^ 9 ↔ _
        unfold SEC_IN_NANO
        constructor
        · intro hlt
          exact ⟨fun h0' => absurd h0' h0, fun hge => by omega⟩
        · intro hboth
          by_contra hge
          exact hcmd (hboth.2 (by omega))

theorem secTickReg_next : z.secTickReg =
    if r.updateNsReg = false ∧ SEC_IN_NANO ≤ r.nsTickReg then (r.secTickReg + 1) % 2 ^ 32
    else if r.updateSecReg then r.timeReg.1 else r.secTickReg := hz ▸ rfl

theorem nsTickReg_next : z.nsTickReg =
    if r.updateNsReg then 2 * r.timeReg.2
    else if SEC_IN_NANO ≤ r.nsTickReg
      then ((r.nsTickReg + nsIncrement r.nsOffsetReg) % 2 ^ 33 + 2 ^ 33 - SEC_IN_NANO) % 2 ^ 33
    else (r.nsTickReg + nsIncrement r.nsOffsetReg) % 2 ^ 33 := hz ▸ rfl

theorem nsTickReg_of_free (hns : r.updateNsReg = false) (hlt : r.nsTickReg < 2 ^ 33) :
    z.nsTickReg =
      if SEC_IN_NANO ≤ r.nsTickReg then r.nsTickReg + nsIncrement r.nsOffsetReg - SEC_IN_NANO
      else r.nsTickReg + nsIncrement r.nsOffsetReg := by
  have hinc := nsIncrement_le r.nsOffsetReg
  rw [nsTickReg_next hz, hns, if_neg Bool.false_ne_true]
  unfold SEC_IN_NANO
  split <;> omega

/-- The count of a cycle that replaces nothing. -/
theorem Inv.count_iff (h : Inv ⟨r, b⟩) (h0 : b.writes 0x00 = false) (h4 : b.writes 0x04 = false) :
    total z = total r + (TIME_STEP + correctionStep r.nsOffsetReg) ↔
      (SEC_IN_NANO ≤ r.nsTickReg → r.secTickReg + 1 < 2 ^ 32) := by
  have hns : r.updateNsReg = false := h.updateNs.trans h0
  have hsec : r.updateSecReg = false := h.updateSec.trans h4
  have hlt := h.sec_lt
  rw [total, total, nsTickReg_of_free hz hns h.ns_lt, secTickReg_next hz, hns, hsec,
    ← nsIncrement_eq]
  by_cases hge : SEC_IN_NANO ≤ r.nsTickReg
  · rw [if_pos hge, if_pos ⟨rfl, hge⟩]
    unfold SEC_IN_NANO at *
    constructor <;> intro h' <;> omega
  · rw [if_neg hge, if_neg fun h' => hge h'.2, if_neg Bool.false_ne_true]
    unfold SEC_IN_NANO at *
    constructor <;> intro h' <;> omega

theorem Inv.seconds_iff (h : Inv ⟨r, b⟩) (h4 : b.writes 0x04 = true) :
    (z.secTickReg = b.data.toNat ∧ z.nsTickReg = (next duration r.free m).nsTickReg) ↔
      (SEC_IN_NANO ≤ r.nsTickReg → b.data.toNat = (r.secTickReg + 1) % 2 ^ 32) := by
  have hns : r.updateNsReg = false := h.updateNs.trans (writes_ne h4 (by decide))
  have hsec : r.updateSecReg = true := h.updateSec.trans h4
  have hfree : z.nsTickReg = (next duration r.free m).nsTickReg := by
    rw [nsTickReg_next hz, nsTickReg_next rfl, hns]
    rfl
  rw [and_iff_left hfree, secTickReg_next hz, hns, hsec]
  by_cases hge : SEC_IN_NANO ≤ r.nsTickReg
  · rw [if_pos ⟨rfl, hge⟩]
    exact ⟨fun heq _ => heq.symm, fun heq => (heq hge).symm⟩
  · rw [if_neg fun h' => hge h'.2, if_pos rfl]
    exact ⟨fun _ hge' => absurd hge' hge, fun _ => h.seconds h4⟩

theorem Inv.nanoseconds_iff (h : Inv ⟨r, b⟩) (h0 : b.writes 0x00 = true) :
    (z.nsTickReg = 2 * b.data.toNat ∧ z.secTickReg = (next duration r.free m).secTickReg) ↔
      ¬ SEC_IN_NANO ≤ r.nsTickReg := by
  have hns : r.updateNsReg = true := h.updateNs.trans h0
  have hsec : r.updateSecReg = false := by
    by_contra h4
    have h4' : b.writes 0x04 = true := h.updateSec ▸ Bool.eq_true_of_not_eq_false h4
    exact Bool.false_ne_true ((writes_ne h4' (by decide)).symm.trans h0)
  have hlt := h.sec_lt
  have hvalue : z.nsTickReg = 2 * b.data.toNat := by
    rw [nsTickReg_next hz, hns, if_pos rfl, h.nanoseconds h0]
  have hkept : z.secTickReg = r.secTickReg := by
    rw [secTickReg_next hz, hns, hsec, if_neg fun h' => Bool.false_ne_true h'.1.symm,
      if_neg Bool.false_ne_true]
  have hfree : (next duration r.free m).secTickReg =
      if SEC_IN_NANO ≤ r.nsTickReg then (r.secTickReg + 1) % 2 ^ 32 else r.secTickReg := by
    rw [secTickReg_next rfl]
    simp [State.free]
  rw [and_iff_right hvalue, hkept, hfree]
  by_cases hge : SEC_IN_NANO ≤ r.nsTickReg
  · rw [if_pos hge]
    exact ⟨fun heq => by omega, fun hnot => absurd hge hnot⟩
  · rw [if_neg hge]
    exact ⟨fun _ => hge, fun _ => rfl⟩

omit hz in
/-- A cycle is correct if and only if the clock does not stand at the end of a second. -/
theorem Inv.correct_cycle_iff (h : Inv ⟨r, b⟩) (hstamp : r.timeReg.2 < 10 ^ 9) :
    Correct duration ⟨r, b⟩ m ↔ Inside ⟨r, b⟩ := by
  constructor
  · intro hcorrect
    obtain ⟨hdata, hwr⟩ := (stamp_iff rfl hstamp).mp hcorrect.stamp
    refine ⟨hdata, fun hge => ⟨hwr hge, ?_, fun h4 => ?_, fun h4 => ?_⟩⟩
    · by_contra h0
      have h0' := Bool.eq_true_of_not_eq_false h0
      have hlt : b.data.toNat < 10 ^ 9 := h.nanoseconds h0' ▸ hstamp
      exact (h.nanoseconds_iff rfl h0').mp (hcorrect.nanoseconds h0' hlt) hge
    · exact (h.seconds_iff rfl h4).mp (hcorrect.seconds h4) hge
    · by_cases h0 : b.writes 0x00 = true
      · have hlt : b.data.toNat < 10 ^ 9 := h.nanoseconds h0 ▸ hstamp
        exact absurd hge ((h.nanoseconds_iff rfl h0).mp (hcorrect.nanoseconds h0 hlt))
      · have h0' := Bool.eq_false_iff.mpr h0
        exact (h.count_iff rfl h0' h4).mp (hcorrect.count h0' h4) hge
  · intro hinside
    refine ⟨fun h0 h4 => ?_, fun h4 => ?_, fun h0 _ => ?_, ?_⟩
    · exact (h.count_iff rfl h0 h4).mpr fun hge => (hinside.boundary hge).2.2.2 h4
    · exact (h.seconds_iff rfl h4).mpr fun hge => (hinside.boundary hge).2.2.1 h4
    · refine (h.nanoseconds_iff rfl h0).mpr fun hge => ?_
      exact Bool.false_ne_true ((hinside.boundary hge).2.1.symm.trans h0)
    · exact (stamp_iff rfl hstamp).mpr ⟨hinside.data, fun hge => (hinside.boundary hge).1⟩

theorem Inv.step (h : Inv ⟨r, b⟩) : Inv ⟨z, r.masterReg⟩ where
  updateSec := hz ▸ rfl
  updateNs := hz ▸ rfl
  seconds h4 := by
    rw [timeReg_next hz, writes_ne h4 (by decide), if_neg Bool.false_ne_true, if_pos h4]
  nanoseconds h0 := by
    rw [timeReg_next hz, if_pos h0]
  time_lt := by
    have hdata := r.masterReg.data.isLt
    have hns : r.nsTickReg / 2 < 2 ^ 32 := Nat.div_lt_of_lt_mul h.ns_lt
    have hzero := Nat.two_pow_pos 32
    rw [timeReg_next hz]
    split_ifs
    · exact ⟨hzero, hdata⟩
    · exact ⟨hdata, hzero⟩
    · exact ⟨h.sec_lt, hns⟩
    · exact h.time_lt
  sec_lt := by
    have hsec := h.sec_lt
    have htime := h.time_lt.1
    rw [secTickReg_next hz]
    split_ifs <;> first | exact Nat.mod_lt _ (Nat.two_pow_pos 32) | assumption
  ns_lt := by
    have htime : r.timeReg.2 < 2 ^ 32 := h.time_lt.2
    rw [nsTickReg_next hz]
    split_ifs <;> first | exact Nat.mod_lt _ (Nat.two_pow_pos 33) | omega

end Next

/-- **The clock is correct in every cycle of a run if and only if it never stands at the end of a
    second but for the coincidences of `Inside`.** -/
theorem correct_run_iff (duration initialTime : Nat) (ms : List Master) :
    Along (Sys.next duration) (Correct duration) (Sys.reset duration initialTime) ms ↔
      Along (Sys.next duration) (fun s _ => Inside s) (Sys.reset duration initialTime) ms := by
  have key : ∀ s : Sys, Inv s → s.rtc.timeReg.2 < 10 ^ 9 →
      (Along (Sys.next duration) (Correct duration) s ms ↔
        Along (Sys.next duration) (fun s _ => Inside s) s ms) := by
    induction ms with
    | nil => exact fun _ _ _ => Iff.rfl
    | cons m ms ih =>
      intro s hs hstamp
      have hcycle : Correct duration s m ↔ Inside s := hs.correct_cycle_iff hstamp
      rw [along_cons, along_cons, ← hcycle]
      exact and_congr_right fun hcorrect => ih _ (hs.step rfl) hcorrect.stamp
  exact key _ (inv_reset duration initialTime) (Nat.pow_pos (by decide))

end Proofs

/-! ### The end of a second -/

def noCommand : Master := ⟨.idle, 0, 0⟩

/-- The nanoseconds are set close to the end of a second, and a write to the register at `addr`
    comes to its field when the clock stands there. -/
def atBoundary (addr : Nat) : List Master :=
  [⟨.wr, 0x00, 999999990⟩, noCommand, ⟨.wr, addr, 7⟩, noCommand, noCommand]

/-- The time stamp has a full second in its nanoseconds, a write of the seconds is lost, and a write
    of the nanoseconds loses the carry. -/
theorem boundary_not_correct :
    (run (Sys.next 10) (Sys.reset 10 0) (atBoundary 0x04)).rtc.timeReg.2 = 1000000002 ∧
      (run (Sys.next 10) (Sys.reset 10 0) (atBoundary 0x04)).rtc.secTickReg = 1 ∧
      (run (Sys.next 10) (Sys.reset 10 0) (atBoundary 0x00)).rtc.secTickReg = 0 ∧
      ¬ Along (Sys.next 10) (Correct 10) (Sys.reset 10 0) (atBoundary 0x04) ∧
      ¬ Along (Sys.next 10) (Correct 10) (Sys.reset 10 0) (atBoundary 0x00) := by
  refine ⟨by decide +kernel, by decide +kernel, by decide +kernel, fun h => ?_, fun h => ?_⟩
  · obtain ⟨-, -, -, -, hlast, -⟩ := h
    exact absurd (hlast.seconds (by decide +kernel)).1 (by decide +kernel)
  · obtain ⟨-, -, -, -, hlast, -⟩ := h
    exact absurd (hlast.nanoseconds (by decide +kernel) (by decide +kernel)).2 (by decide +kernel)

/-! ### The smooth correction -/

/-- The range of the clock in half nanoseconds. -/
def range : Int := 2 ^ 32 * SEC_IN_NANO

/-- An offset comes closer to zero, and does not change its sign. -/
structure Closer (o o' : Int) : Prop where
  lt : o'.natAbs < o.natAbs
  pos : 0 < o → 0 ≤ o'
  neg : o < 0 → o' ≤ 0

/-- Nothing is being written, and the offset is corrected. -/
structure Quiet (s : Sys) : Prop where
  inv : Inv s
  reg : s.rtc.masterReg.cmd ≠ .wr
  seconds : s.before.writes 0x04 = false
  nanoseconds : s.before.writes 0x00 = false
  small : s.rtc.nsOffsetReg.natAbs ≤ MILLI_IN_NANO.natAbs

section Offset

variable {duration : Nat} {s : Sys} {m : Master}

theorem closer_correctionStep {o : Int} (h : o.natAbs ≤ MILLI_IN_NANO.natAbs) (ho : o ≠ 0) :
    Closer o (o + correctionStep o) := by
  unfold correctionStep MICRO_IN_NANO HUNDRED_NANO FIFTY_NANO MILLI_IN_NANO at *
  split_ifs <;> constructor <;> omega

theorem writes_of_cmd (h : m.cmd ≠ .wr) (addr : Nat) : m.writes addr = false := by
  by_contra hw
  exact h (cmd_of_writes (Bool.eq_true_of_not_eq_false hw))

section

variable {z : State} (hz : z = next duration s.rtc m)
include hz

theorem Quiet.offset (h : Quiet s) :
    z.nsOffsetReg = s.rtc.nsOffsetReg + correctionStep s.rtc.nsOffsetReg := by
  have hns : s.rtc.updateNsReg = false := h.inv.updateNs.trans h.nanoseconds
  have hbounds := correctionStep_bounds s.rtc.nsOffsetReg
  have hsmall := h.small
  rw [hz, next, writes_of_cmd h.reg, hns, if_neg Bool.false_ne_true, if_neg Bool.false_ne_true]
  unfold MILLI_IN_NANO at hsmall
  apply Int.bmod_eq_of_le <;> omega

/-- The clock advances by 12.5 nanoseconds and by what is taken off the offset. -/
theorem Quiet.total (h : Quiet s) : RTC.total z % range =
    (RTC.total s.rtc + (TIME_STEP + correctionStep s.rtc.nsOffsetReg)) % range := by
  have hns : s.rtc.updateNsReg = false := h.inv.updateNs.trans h.nanoseconds
  have hsec : s.rtc.updateSecReg = false := h.inv.updateSec.trans h.seconds
  have hlt := h.inv.sec_lt
  rw [RTC.total, RTC.total, nsTickReg_of_free hz hns h.inv.ns_lt, secTickReg_next hz, hns, hsec,
    ← nsIncrement_eq]
  unfold range SEC_IN_NANO
  by_cases hge : 2000000000 ≤ s.rtc.nsTickReg
  · rw [if_pos hge, if_pos ⟨rfl, hge⟩]
    omega
  · rw [if_neg hge, if_neg fun h' => hge h'.2, if_neg Bool.false_ne_true]
    omega

end

theorem Quiet.step (h : Quiet s) (hm : m.cmd ≠ .wr) : Quiet (s.next duration m) where
  inv := h.inv.step rfl
  reg := hm
  seconds := writes_of_cmd h.reg _
  nanoseconds := writes_of_cmd h.reg _
  small := by
    rw [Sys.next, h.offset rfl]
    by_cases ho : s.rtc.nsOffsetReg = 0
    · rw [ho]
      exact Nat.zero_le _
    · exact (closer_correctionStep h.small ho).lt.le.trans h.small

/-- What a run takes off the offset, the clock has advanced less. -/
theorem Quiet.run {ms : List Master} {t : Sys} (h : Quiet s) (hms : ∀ m ∈ ms, m.cmd ≠ .wr)
    (ht : t = run (Sys.next duration) s ms) :
    Quiet t ∧ t.rtc.nsOffsetReg.natAbs ≤ s.rtc.nsOffsetReg.natAbs - ms.length ∧
      RTC.total t.rtc % range =
        (RTC.total s.rtc + TIME_STEP * ms.length + (t.rtc.nsOffsetReg - s.rtc.nsOffsetReg)) %
          range := by
  induction ms generalizing s with
  | nil =>
    subst ht
    exact ⟨h, le_rfl, by simp⟩
  | cons m ms ih =>
    have hm := hms m List.mem_cons_self
    obtain ⟨hquiet, hoffset, htotal⟩ :=
      ih (h.step hm) (fun m' hm' => hms m' (List.mem_cons_of_mem m hm')) ht
    have hnext : (s.next duration m).rtc.nsOffsetReg = _ := h.offset rfl
    have hone : RTC.total (s.next duration m).rtc % range = _ := h.total rfl
    rw [hnext] at hoffset htotal
    rw [List.length_cons]
    refine ⟨hquiet, ?_, ?_⟩
    · by_cases ho : s.rtc.nsOffsetReg = 0
      · have hzero : (0 + correctionStep 0).natAbs = 0 := by decide
        rw [ho, hzero] at hoffset
        omega
      · have hlt := (closer_correctionStep h.small ho).lt
        omega
    · unfold TIME_STEP range SEC_IN_NANO at *
      omega

end Offset

/-- **An offset is corrected in half nanoseconds.**  After a write of the offset register, while
    nothing else is written, the offset comes closer to zero in every cycle without a change of its
    sign, is zero after as many cycles at most, and the clock has then advanced by 12.5 nanoseconds
    a cycle less the offset in half nanoseconds. -/
theorem offset_removed (duration initialTime : Nat) (before : List Master) (w m : Master)
    (ms : List Master) (hw : w.writes 0x20 = true)
    (hsmall : w.data.toInt.natAbs ≤ MILLI_IN_NANO.natAbs)
    (hms : ∀ m' ∈ m :: ms, m'.cmd ≠ .wr) :
    let written := run (Sys.next duration) (Sys.reset duration initialTime) (before ++ [w, m])
    let s := run (Sys.next duration) written ms
    (s.rtc.nsOffsetReg ≠ 0 → ∀ m', Closer s.rtc.nsOffsetReg (next duration s.rtc m').nsOffsetReg) ∧
      (w.data.toInt.natAbs ≤ ms.length → s.rtc.nsOffsetReg = 0) ∧
      (s.rtc.nsOffsetReg = 0 → total s.rtc % range =
        (total written.rtc + TIME_STEP * ms.length - w.data.toInt) % range) := by
  intro written s
  have hinv : Inv (run (Sys.next duration) (Sys.reset duration initialTime) before) :=
    inv_run (P := fun _ _ => True) (fun _ _ h _ => h.step rfl) (inv_reset _ _)
      (along_of_forall fun _ _ => trivial)
  have hwritten : written = ((run (Sys.next duration) (Sys.reset duration initialTime) before).next
      duration w).next duration m := run_append _ _ _
  have hoffset : written.rtc.nsOffsetReg = w.data.toInt := by
    rw [hwritten]
    exact if_pos hw
  have hquiet : Quiet written := by
    rw [hwritten]
    refine ⟨(hinv.step rfl).step rfl, hms m List.mem_cons_self, ?_, ?_, ?_⟩
    · exact writes_ne hw (by decide)
    · exact writes_ne hw (by decide)
    · rw [← hwritten, hoffset]
      exact hsmall
  obtain ⟨hrun, hreach, htotal⟩ :=
    hquiet.run (fun m' hm' => hms m' (List.mem_cons_of_mem m hm')) (rfl : s = _)
  rw [hoffset] at hreach htotal
  refine ⟨fun ho m' => ?_, fun hlen => ?_, fun ho => ?_⟩
  · rw [hrun.offset rfl]
    exact closer_correctionStep hrun.small ho
  · omega
  · rw [htotal, ho, Int.zero_sub]
    rfl

/-- An offset of 2 is written, and nothing for `n` cycles. -/
def corrected (n : Nat) : Sys :=
  run (Sys.next 10) (Sys.reset 10 0) (⟨.wr, 0x20, 2⟩ :: List.replicate n noCommand)

theorem corrected_removed : (corrected 3).rtc.nsOffsetReg = 0 ∧
    total (corrected 3).rtc % range = (total (corrected 1).rtc + TIME_STEP * 2 - 2) % range :=
  have h := offset_removed 10 0 [] ⟨.wr, 0x20, 2⟩ noCommand [noCommand, noCommand] (by decide)
    (by decide)
    (by decide)
  ⟨h.2.1 (by decide), h.2.2 (h.2.1 (by decide))⟩

/-- An offset of two nanoseconds: the clock has advanced by one nanosecond too much. -/
theorem offset_halved : (corrected 3).rtc.nsOffsetReg = 0 ∧
    total (corrected 3).rtc = total (corrected 1).rtc + TIME_STEP * 2 - 2 * 2 + 2 := by
  decide +kernel

end Patmos.RTC
