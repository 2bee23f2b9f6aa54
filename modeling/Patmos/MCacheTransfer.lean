import Patmos.BurstRead
import Patmos.MCache

/-!
# Transfers into the method cache

The method cache with a burst memory behind it that answers without errors.  `Link` relates the
controller to the memory in every state: which burst is under way, and which word of the method
the next beat is.  What is to be known about the contents of the cache goes along as two
propositions, one for the states in which the method is there and one for those in which it is
being fetched; `Link.next` says what a cycle must do to them.

The controller ends a transfer on the count of beats alone, without looking whether the last beat
has come, when that beat is behind the method; `Drained` says that it has.
-/

namespace Patmos.MCache

open Ocp MemBlock BurstRead

/-- The cache, the memory, and three ledgers: which words were delivered since tag `i` was
    written, which lookups have hit since the last tag write, with their positions, and which
    method was looked up last. -/
structure Sys where
  cache : State
  slave : Slave
  got : Nat → Nat → Bool
  hits : List (Nat × Nat)
  called : Option Nat

structure Cycle where
  core : Inputs
  mem : Choice

namespace Sys

section

variable (sizeWidth burstWidth methodCount : Nat)

/-- `io.ocp_port.M`. -/
def toOcp (y : Sys) : BurstMaster := y.cache.ctrl.toOcp burstWidth y.cache.repl.hitReg

/-- `io.ocp_port.S`. -/
def fromOcp (y : Sys) (c : Cycle) : BurstSlave := y.slave.out (y.toOcp burstWidth) c.mem

/-- The tag that is written in this cycle. -/
def tag (y : Sys) : Option TagWrite := tagWrite sizeWidth burstWidth y.cache.ctrl

/-- `repl.io.invalidate`. -/
def invalidate (y : Sys) (c : Cycle) : Bool := c.core.invalidate || y.cache.ctrl.illMem burstWidth

/-- The lookup of this cycle, if it hits. -/
def found (y : Sys) (c : Cycle) : List (Nat × Nat) :=
  if Repl.lookup c.core && y.cache.repl.hit methodCount (y.tag sizeWidth burstWidth)
      (y.invalidate burstWidth c) c.core.callRetBase then
    [(c.core.callRetBase, y.cache.repl.pos methodCount (y.tag sizeWidth burstWidth)
      (y.invalidate burstWidth c) c.core.callRetBase)]
  else []

def next (y : Sys) (c : Cycle) : Sys :=
  { cache := MCache.next sizeWidth burstWidth methodCount y.cache c.core (y.fromOcp burstWidth c)
    slave := y.slave.next (2 ^ burstWidth) (y.toOcp burstWidth) c.mem
    got := fun i a => if delivered y.slave c.mem = some a then true
      else if y.cache.ctrl.gotSize burstWidth && decide (i = y.cache.repl.nextIndexReg) then false
      else y.got i a
    hits := y.found sizeWidth burstWidth methodCount c ++
      if y.cache.ctrl.gotSize burstWidth then [] else y.hits
    called := if Repl.lookup c.core then some c.core.callRetBase else y.called }

/-- The size that the memory gives for the method at `base`. -/
def sizeOf (mem : Memory) (base : Nat) : Nat :=
  wordVal (mem ((base + 2 ^ 32 - 1) % 2 ^ 32 % 2 ^ 30)) / 4 % 2 ^ (sizeWidth + 1)

/-- The number of the last word of the method. -/
def lastWord (mem : Memory) (base : Nat) : Nat :=
  (sizeOf sizeWidth mem base + 2 ^ sizeWidth - 1) % 2 ^ sizeWidth

/-- Calls and returns come when the cache lets the pipeline go on. -/
structure Legal (y : Sys) (c : Cycle) : Prop where
  call : c.core.doCallRet = true → enaOut burstWidth y.cache = true
  base : c.core.callRetBase < 2 ^ 32

/-- All words of the method are there, and the rest of the burst is waited for. -/
def draining (y : Sys) : Bool :=
  y.cache.ctrl.stateReg == .transfer && !y.cache.ctrl.more && y.cache.ctrl.lastBeat burstWidth

/-- When the controller takes the last beat for granted, it is there. -/
def Drained (y : Sys) : Prop :=
  y.draining burstWidth = true → y.cache.ctrl.ocpSlaveReg.resp ≠ .null

/-! ### The invariant -/

/-- Of the burst from `base`, `n` beats have been looked at; its command may still wait. -/
inductive Line (mem : Memory) (y : Sys) (base n : Nat) : Prop where
  | asked (hcmd : y.cache.ctrl.ocpCmdReg = .rd) (haddr : y.cache.ctrl.ocpAddrReg % 2 ^ 30 = base)
      (hn : n = 0) (hphase : y.slave.phase = .idle)
      (hresp : y.cache.ctrl.ocpSlaveReg.resp = .null)
  | running (hcmd : y.cache.ctrl.ocpCmdReg = .idle)
      (hbeats : Beats (2 ^ burstWidth) mem (fun _ => True) y.slave y.cache.ctrl.ocpSlaveReg base n)

/-- The controller and the memory. -/
inductive Link (all fetch : Prop) (mem : Memory) (y : Sys) : Prop where
  | rest (hstate : y.cache.ctrl.stateReg = .idle)
      (hcmd : y.cache.ctrl.ocpCmdReg = .idle) (hphase : y.slave.phase = .idle)
      (hresp : y.cache.ctrl.ocpSlaveReg.resp = .null) (hall : all)
  | sizing (hstate : y.cache.ctrl.stateReg = .size)
      (hcnt : y.cache.ctrl.burstCntReg ≤ y.cache.ctrl.msizeAddr % 2 ^ burstWidth)
      (hline : Line burstWidth mem y (y.cache.ctrl.msizeAddr / 2 ^ burstWidth * 2 ^ burstWidth %
        2 ^ 30) y.cache.ctrl.burstCntReg) (hall : all)
  | fetching (base : Nat) (hstate : y.cache.ctrl.stateReg = .transfer)
      (htotal : y.cache.ctrl.transferSizeReg = lastWord sizeWidth mem y.cache.ctrl.callRetBaseReg)
      (hmore : y.cache.ctrl.fetchCntReg ≤ y.cache.ctrl.transferSizeReg)
      (hcnt : y.cache.ctrl.burstCntReg < 2 ^ burstWidth) (halign : base % 2 ^ burstWidth = 0)
      (hbase : base + y.cache.ctrl.burstCntReg =
        (y.cache.ctrl.callRetBaseReg + y.cache.ctrl.fetchCntReg) % 2 ^ 30)
      (hline : Line burstWidth mem y base y.cache.ctrl.burstCntReg) (hfetch : fetch)
  | draining (base : Nat) (hstate : y.cache.ctrl.stateReg = .transfer)
      (hdone : y.cache.ctrl.transferSizeReg < y.cache.ctrl.fetchCntReg ∨
        y.cache.ctrl.transferSizeReg + 1 = 2 ^ sizeWidth)
      (hcnt : y.cache.ctrl.burstCntReg < 2 ^ burstWidth)
      (hline : Line burstWidth mem y base y.cache.ctrl.burstCntReg) (hall : all)

end

/-! ### Bursts -/

section Burst

variable {sizeWidth burstWidth methodCount : Nat} {mem : Memory} {y : Sys} {c : Cycle}

theorem ask_of_size {s : Ctrl} {hit : Bool} (hstate : s.stateReg = .size) : s.ask burstWidth hit =
    if s.gotSize burstWidth && s.lastBeat burstWidth then some s.callRetBaseReg else none := by
  simp [Ctrl.ask, hstate, Ctrl.nextBurst, Ctrl.gotWord]

theorem ask_of_transfer {s : Ctrl} {hit : Bool} (hstate : s.stateReg = .transfer) :
    s.ask burstWidth hit =
    if s.nextBurst burstWidth then some ((s.callRetBaseReg + s.fetchCntReg + 1) % 2 ^ 32)
      else none := by
  simp [Ctrl.ask, hstate, Ctrl.gotSize]

/-- Where a beat is waited for, the count starts again with a new command. -/
theorem burstCntNext_of_busy {s : Ctrl} {hit : Bool}
    (hstate : s.stateReg = .size ∨ s.stateReg = .transfer)
    (hresp : s.ocpSlaveReg.resp ≠ .err) : s.burstCntNext burstWidth hit =
      if (s.ask burstWidth hit).isSome then 0
      else if s.dva then (s.burstCntReg + 1) % 2 ^ burstWidth else s.burstCntReg := by
  rcases hstate with h | h <;> simp [Ctrl.burstCntNext, hresp, Ctrl.counts, h]

theorem cmd_toOcp (hcmd : y.cache.ctrl.ocpCmdReg = .idle ∨ y.cache.ctrl.ocpCmdReg = .rd) :
    (y.toOcp burstWidth).cmd = .idle ∨ (y.toOcp burstWidth).cmd = .rd := by
  rw [toOcp, Ctrl.toOcp]
  dsimp only
  split
  · exact .inl rfl
  · split
    · exact .inr rfl
    · exact hcmd

/-- A word address as the memory sees it. -/
theorem ocp_addr (a : Nat) : a * 4 % 2 ^ 32 / 4 = a % 2 ^ 30 := by
  omega

variable {y' : Sys} (hy : y' = Sys.next sizeWidth burstWidth methodCount y c)
include hy

theorem next_state :
    y'.cache.ctrl.stateReg =
      y.cache.ctrl.stateNext burstWidth y.cache.repl.hitReg := by rw [hy]; rfl

theorem next_cnt :
    y'.cache.ctrl.burstCntReg =
      y.cache.ctrl.burstCntNext burstWidth y.cache.repl.hitReg := by rw [hy]; rfl

theorem next_cmd : y'.cache.ctrl.ocpCmdReg = if y.cache.ctrl.ocpSlaveReg.resp = .err then .idle
    else if (y.fromOcp burstWidth c).cmdAccept then .idle
    else if (y.cache.ctrl.ask burstWidth y.cache.repl.hitReg).isSome then .rd
    else y.cache.ctrl.ocpCmdReg := by rw [hy]; rfl

theorem next_addr : y'.cache.ctrl.ocpAddrReg =
    (y.cache.ctrl.ask burstWidth y.cache.repl.hitReg).getD
      y.cache.ctrl.ocpAddrReg := by rw [hy]; rfl

omit hy in
theorem toOcp_cmd : (y.toOcp burstWidth).cmd = if y.cache.ctrl.ocpSlaveReg.resp = .err then .idle
    else if (y.cache.ctrl.ask burstWidth y.cache.repl.hitReg).isSome then .rd
    else y.cache.ctrl.ocpCmdReg := rfl

theorem Line.of_cmd (hphase : y.slave.phase = .idle) (hmem : ReadOnly mem y.slave)
    (hcmd : (y.toOcp burstWidth).cmd = .rd)
    (hwait : y'.cache.ctrl.ocpCmdReg =
      if (y.fromOcp burstWidth c).cmdAccept then .idle else .rd) :
    Line burstWidth mem y' (y'.cache.ctrl.ocpAddrReg % 2 ^ 30) 0 := by
  subst hy
  have haddr : (y.toOcp burstWidth).addr = (Sys.next sizeWidth burstWidth methodCount y
      c).cache.ctrl.ocpAddrReg * 4 % 2 ^ 32 := rfl
  cases haccept : (y.fromOcp burstWidth c).cmdAccept with
  | true =>
    obtain ⟨hnull, hat⟩ := accept hmem (Nat.two_pow_pos burstWidth) hcmd haccept
    rw [haddr, ocp_addr] at hat
    rw [haccept] at hwait
    exact .running hwait (.silent hnull hat)
  | false =>
    rw [haccept] at hwait
    have hchoice : c.mem.accept = false := by
      simpa [fromOcp, Slave.out, hphase] using haccept
    refine .asked hwait rfl rfl ?_ ?_
    · change (y.slave.next (2 ^ burstWidth) (y.toOcp burstWidth) c.mem).phase = _
      rw [Slave.next_of_wait hphase hchoice, hphase]
    · change (y.slave.out (y.toOcp burstWidth) c.mem).resp = _
      simp [Slave.out, hphase]

theorem Line.of_ask {a : Nat} (hphase : y.slave.phase = .idle) (hmem : ReadOnly mem y.slave)
    (hresp : y.cache.ctrl.ocpSlaveReg.resp ≠ .err)
    (hask : y.cache.ctrl.ask burstWidth y.cache.repl.hitReg = some a) :
    Line burstWidth mem y' (a % 2 ^ 30) 0 := by
  have haddr : y'.cache.ctrl.ocpAddrReg = a := by simp [next_addr hy, hask]
  rw [← haddr]
  refine Line.of_cmd hy hphase hmem ?_ ?_
  · rw [toOcp_cmd, if_neg hresp, hask]
    rfl
  · simp [next_cmd hy, hresp, hask]

variable {base n : Nat} (h : Line burstWidth mem y base n) (hmem : ReadOnly mem y.slave)
  (hask : y.cache.ctrl.ask burstWidth y.cache.repl.hitReg = none)
include h hmem hask

theorem Line.next (hresp : y.cache.ctrl.ocpSlaveReg.resp ≠ .err) :
    Line burstWidth mem y' base
      (if y.cache.ctrl.ocpSlaveReg.resp = .null then n else n + 1) := by
  have haddr : y'.cache.ctrl.ocpAddrReg = y.cache.ctrl.ocpAddrReg := by simp [next_addr hy, hask]
  have hcmd : (y.toOcp burstWidth).cmd = y.cache.ctrl.ocpCmdReg := by
    rw [toOcp_cmd, if_neg hresp, hask]
    rfl
  have hwait : y'.cache.ctrl.ocpCmdReg =
      if (y.fromOcp burstWidth c).cmdAccept then .idle else y.cache.ctrl.ocpCmdReg := by
    simp [next_cmd hy, hresp, hask]
  cases h with
  | asked hrd hbase hn hphase hnull =>
    rw [if_pos hnull, hn, ← hbase, ← haddr]
    exact Line.of_cmd hy hphase hmem (hcmd.trans hrd) (by rw [hwait, hrd])
  | running hidle hbeats =>
    refine .running ?_ ?_
    · rw [hwait, hidle, ite_self]
    · subst hy
      exact hbeats.at.next hmem.memory (hcmd.trans hidle) fun _ => trivial

theorem Line.wait (hresp : y.cache.ctrl.ocpSlaveReg.resp = .null) :
    Line burstWidth mem y' base n := by
  have hnext := h.next hy hmem hask (by simp [hresp])
  rwa [if_pos hresp] at hnext

theorem Line.word (hresp : y.cache.ctrl.ocpSlaveReg.resp = .dva) :
    Line burstWidth mem y' base (n + 1) := by
  have hnext := h.next hy hmem hask (by simp [hresp])
  rwa [if_neg (by simp [hresp])] at hnext

omit hy hmem hask in
/-- What is in the register. -/
theorem Line.beat (hresp : y.cache.ctrl.ocpSlaveReg.resp ≠ .err) :
    y.cache.ctrl.ocpSlaveReg.resp = .null ∨
      y.cache.ctrl.ocpSlaveReg.resp = .dva ∧ y.cache.ctrl.ocpCmdReg = .idle ∧
        y.cache.ctrl.ocpSlaveReg.data = mem (base + n) ∧
        At (2 ^ burstWidth) y.slave base (n + 1) := by
  cases h with
  | asked _ _ _ _ hnull => exact .inl hnull
  | running hcmd hbeats =>
    cases hbeats with
    | silent hnull _ => exact .inl hnull
    | word hdva hdata _ hat => exact .inr ⟨hdva, hcmd, hdata, hat⟩
    | fault herr _ => exact absurd herr hresp

end Burst

/-! ### Addresses -/

section Address

variable {burstWidth : Nat} (hwidth : burstWidth ≤ 30)
include hwidth

theorem burst_dvd : 2 ^ burstWidth ∣ 2 ^ 30 := Nat.pow_dvd_pow 2 hwidth

/-- The start of the burst that holds word `a`. -/
theorem burst_start (a : Nat) :
    a / 2 ^ burstWidth * 2 ^ burstWidth % 2 ^ 30 + a % 2 ^ burstWidth = a % 2 ^ 30 ∧
      a / 2 ^ burstWidth * 2 ^ burstWidth % 2 ^ 30 % 2 ^ burstWidth = 0 := by
  obtain ⟨k, hk⟩ := burst_dvd hwidth
  constructor
  · rw [hk, mul_comm (a / 2 ^ burstWidth), Nat.mul_mod_mul_left, Nat.mod_mul, add_comm]
  · rw [Nat.mod_mod_of_dvd _ (burst_dvd hwidth), Nat.mul_mod_left]

/-- The next word of the same burst. -/
theorem burst_succ {base n a : Nat} (halign : base % 2 ^ burstWidth = 0)
    (hn : n + 1 < 2 ^ burstWidth) (h : base + n = a % 2 ^ 30) :
    base + (n + 1) = (a + 1) % 2 ^ 30 := by
  have hlt : base + n < 2 ^ 30 := h ▸ Nat.mod_lt a (Nat.two_pow_pos 30)
  have hne : base + n + 1 ≠ 2 ^ 30 := by
    intro hend
    have hmod : (base + (n + 1)) % 2 ^ burstWidth = 0 := by
      rw [← add_assoc, hend]
      exact Nat.mod_eq_zero_of_dvd (burst_dvd hwidth)
    rw [Nat.add_mod, halign, zero_add, Nat.mod_mod, Nat.mod_eq_of_lt hn] at hmod
    exact Nat.succ_ne_zero n hmod
  rw [Nat.add_mod a 1, ← h, ← add_assoc]
  exact (Nat.mod_eq_of_lt (by omega)).symm

/-- The first word of the next burst. -/
theorem burst_after {base n a : Nat} (halign : base % 2 ^ burstWidth = 0)
    (hn : n + 1 = 2 ^ burstWidth) (h : base + n = a % 2 ^ 30) :
    (a + 1) % 2 ^ 30 % 2 ^ burstWidth = 0 := by
  rw [Nat.add_mod a 1, ← h, Nat.mod_mod_of_dvd _ (burst_dvd hwidth)]
  have hone : 1 % 2 ^ 30 = 1 := rfl
  rw [hone, add_assoc, hn, Nat.add_mod_right, halign]

end Address

/-! ### The controller -/

section Cycle

variable {sizeWidth burstWidth methodCount : Nat} {mem : Memory} {y : Sys} {c : Cycle}

/-- What a cycle must do to `all` and `fetch`, the facts about the tags. -/
structure Carries (sizeWidth burstWidth : Nat) (mem : Memory) (y : Sys)
    (all fetch all' fetch' : Prop) : Prop where
  keep : all → y.cache.ctrl.gotSize burstWidth = false →
    (y.cache.ctrl.gotWord = true → y.cache.ctrl.transferSizeReg + 1 = 2 ^ sizeWidth) → all'
  size : all → y.cache.ctrl.gotSize burstWidth = true →
    y.cache.ctrl.size sizeWidth = sizeOf sizeWidth mem y.cache.ctrl.callRetBaseReg → fetch'
  wait : fetch → y.cache.ctrl.stateReg = .transfer → enaOut burstWidth y.cache = false →
    y.cache.ctrl.gotWord = false → fetch'
  word : fetch → enaOut burstWidth y.cache = false → y.cache.ctrl.gotWord = true →
    y.cache.ctrl.transferSizeReg = lastWord sizeWidth mem y.cache.ctrl.callRetBaseReg →
    y.cache.ctrl.fetchCntReg < y.cache.ctrl.transferSizeReg →
    y.cache.ctrl.ocpSlaveReg.data =
      mem ((y.cache.ctrl.callRetBaseReg + y.cache.ctrl.fetchCntReg) % 2 ^ 30) → fetch'
  last : fetch → y.cache.ctrl.gotWord = true →
    y.cache.ctrl.transferSizeReg = lastWord sizeWidth mem y.cache.ctrl.callRetBaseReg →
    y.cache.ctrl.fetchCntReg = y.cache.ctrl.transferSizeReg →
    y.cache.ctrl.ocpSlaveReg.data =
      mem ((y.cache.ctrl.callRetBaseReg + y.cache.ctrl.fetchCntReg) % 2 ^ 30) → all'

/-- The widths with which the circuit can be built. -/
structure Sized (sizeWidth burstWidth : Nat) : Prop where
  size : 2 ≤ sizeWidth
  burst : 1 ≤ burstWidth
  addr : burstWidth ≤ 30

section After

variable {y' : Sys} (hy : y' = Sys.next sizeWidth burstWidth methodCount y c)
include hy

theorem base_of_stall (hleg : Legal burstWidth y c) (h : enaOut burstWidth y.cache = false) :
    y'.cache.ctrl.callRetBaseReg = y.cache.ctrl.callRetBaseReg := by
  subst hy
  refine if_neg ?_
  intro hcall
  rw [hleg.call hcall] at h
  cases h

/-- Without a command, the memory comes to rest after a burst. -/
theorem rest_of_idle (hphase : y.slave.phase = .idle) (hcmd : (y.toOcp burstWidth).cmd = .idle) :
    y'.slave.phase = .idle ∧ y'.cache.ctrl.ocpSlaveReg.resp = .null := by
  subst hy
  exact idle_next hphase hcmd

/-- The controller comes to rest when no command is out and none is issued. -/
theorem rest_of_noAsk (hask : y.cache.ctrl.ask burstWidth y.cache.repl.hitReg = none)
    (hcmd : y.cache.ctrl.ocpCmdReg = .idle) (hphase : y.slave.phase = .idle) :
    y'.cache.ctrl.ocpCmdReg = .idle ∧ y'.slave.phase = .idle ∧
      y'.cache.ctrl.ocpSlaveReg.resp = .null := by
  constructor
  · simp [next_cmd hy, hask, hcmd]
  · exact rest_of_idle hy hphase (by simp [toOcp_cmd, hask, hcmd])

theorem ctrl_of_size (hstate : y.cache.ctrl.stateReg = .size)
    (hresp : y.cache.ctrl.ocpSlaveReg.resp ≠ .err) :
    y.cache.ctrl.ask burstWidth y.cache.repl.hitReg =
        (if y.cache.ctrl.gotSize burstWidth && y.cache.ctrl.lastBeat burstWidth then
          some y.cache.ctrl.callRetBaseReg else none) ∧
      y'.cache.ctrl.stateReg =
        (if y.cache.ctrl.gotSize burstWidth then .transfer else .size) ∧
      y'.cache.ctrl.burstCntReg =
        (if y.cache.ctrl.gotSize burstWidth && y.cache.ctrl.lastBeat burstWidth then 0
        else if y.cache.ctrl.dva then (y.cache.ctrl.burstCntReg + 1) % 2 ^ burstWidth
        else y.cache.ctrl.burstCntReg) := by
  refine ⟨ask_of_size hstate, ?_, ?_⟩
  · simp [next_state hy, Ctrl.stateNext, hstate, hresp]
  · rw [next_cnt hy, burstCntNext_of_busy (.inl hstate) hresp, ask_of_size hstate]
    simp

theorem ctrl_of_transfer (hstate : y.cache.ctrl.stateReg = .transfer)
    (hresp : y.cache.ctrl.ocpSlaveReg.resp ≠ .err) :
    y.cache.ctrl.ask burstWidth y.cache.repl.hitReg =
        (if y.cache.ctrl.nextBurst burstWidth then
          some ((y.cache.ctrl.callRetBaseReg + y.cache.ctrl.fetchCntReg + 1) % 2 ^ 32) else none) ∧
      y'.cache.ctrl.stateReg =
        (if y.cache.ctrl.finish burstWidth then .idle else .transfer) ∧
      y'.cache.ctrl.burstCntReg =
        (if y.cache.ctrl.nextBurst burstWidth then 0
        else if y.cache.ctrl.dva then (y.cache.ctrl.burstCntReg + 1) % 2 ^ burstWidth
        else y.cache.ctrl.burstCntReg) ∧
      y'.cache.ctrl.transferSizeReg =
        y.cache.ctrl.transferSizeReg ∧
      y'.cache.ctrl.fetchCntReg =
        if y.cache.ctrl.gotWord then (y.cache.ctrl.fetchCntReg + 1) % 2 ^ sizeWidth
        else y.cache.ctrl.fetchCntReg := by
  have hsize : y.cache.ctrl.gotSize burstWidth = false := by simp [Ctrl.gotSize, hstate]
  refine ⟨ask_of_transfer hstate, ?_, ?_, ?_⟩
  · simp [next_state hy, Ctrl.stateNext, hstate, hresp]
  · rw [next_cnt hy, burstCntNext_of_busy (.inr hstate) hresp, ask_of_transfer hstate]
    simp
  · subst hy
    exact ⟨if_neg (by simp [hsize]), if_neg (by simp [hsize])⟩

/-! ### One cycle -/

section Step

variable {all fetch all' fetch' : Prop} (hmem : ReadOnly mem y.slave)
  (hleg : Legal burstWidth y c) (hcarry : Carries sizeWidth burstWidth mem y all fetch all' fetch')
include hmem hleg hcarry

theorem Link.of_rest (hidle : y.cache.ctrl.stateReg = .idle)
    (hcmd : y.cache.ctrl.ocpCmdReg = .idle) (hphase : y.slave.phase = .idle)
    (hresp : y.cache.ctrl.ocpSlaveReg.resp = .null) (hall : all) :
    Link sizeWidth burstWidth all' fetch' mem y' := by
  have hgot : y.cache.ctrl.gotSize burstWidth = false := by simp [Ctrl.gotSize, hidle]
  have hword : y.cache.ctrl.gotWord = false := by simp [Ctrl.gotWord, hidle]
  have hall' : all' := hcarry.keep hall hgot (by rw [hword]; exact fun h => Bool.noConfusion h)
  cases hhit : y.cache.repl.hitReg with
  | false =>
    have hask : y.cache.ctrl.ask burstWidth y.cache.repl.hitReg =
        some (y.cache.ctrl.msizeAddr / 2 ^ burstWidth * 2 ^ burstWidth) := by
      simp [Ctrl.ask, hidle, hhit]
    have hstall : enaOut burstWidth y.cache = false := by
      simp [enaOut, hhit, Ctrl.forceHit, Ctrl.illMem, hidle]
    have hmsize : y'.cache.ctrl.msizeAddr = y.cache.ctrl.msizeAddr := by
      rw [Ctrl.msizeAddr, base_of_stall hy hleg hstall]
      rfl
    have hcnt : y'.cache.ctrl.burstCntReg = 0 := by
      simp [next_cnt hy, Ctrl.burstCntNext, hask, hresp]
    have hline : Line burstWidth mem y' _ 0 :=
      Line.of_ask hy hphase hmem (by simp [hresp]) hask
    refine .sizing ?_ ?_ ?_ hall'
    · simp [next_state hy, Ctrl.stateNext, hidle, hhit, hresp]
    · rw [hcnt]
      exact Nat.zero_le _
    · rw [hmsize, hcnt]
      exact hline
  | true =>
    have hask : y.cache.ctrl.ask burstWidth y.cache.repl.hitReg = none := by
      simp [Ctrl.ask, hidle, hhit]
    obtain ⟨hcmd', hphase', hresp'⟩ := rest_of_noAsk hy hask hcmd hphase
    refine .rest ?_ hcmd' hphase' hresp' hall'
    simp [next_state hy, Ctrl.stateNext, hidle, hhit, hresp]

omit hleg hcarry in
/-- A word has arrived and the next one is word `a + 1`: the first of a new burst, or the next of
    this one. -/
theorem Link.of_next {base a x : Nat} (hsized : Sized sizeWidth burstWidth)
    (halign : base % 2 ^ burstWidth = 0) (hbase : base + y.cache.ctrl.burstCntReg = a % 2 ^ 30)
    (hline : Line burstWidth mem y base y.cache.ctrl.burstCntReg)
    (hdva : y.cache.ctrl.ocpSlaveReg.resp = .dva)
    (hat : At (2 ^ burstWidth) y.slave base (y.cache.ctrl.burstCntReg + 1))
    (hx : x % 2 ^ 30 = (a + 1) % 2 ^ 30)
    (hask : y.cache.ctrl.ask burstWidth y.cache.repl.hitReg =
      if y.cache.ctrl.lastBeat burstWidth then some x else none)
    (hcnt' : y'.cache.ctrl.burstCntReg = if y.cache.ctrl.lastBeat burstWidth then 0
      else (y.cache.ctrl.burstCntReg + 1) % 2 ^ burstWidth)
    (hstate' : y'.cache.ctrl.stateReg = .transfer)
    (htotal' : y'.cache.ctrl.transferSizeReg = lastWord sizeWidth mem y'.cache.ctrl.callRetBaseReg)
    (hmore' : y'.cache.ctrl.fetchCntReg ≤ y'.cache.ctrl.transferSizeReg)
    (hword' : (a + 1) % 2 ^ 30 =
      (y'.cache.ctrl.callRetBaseReg + y'.cache.ctrl.fetchCntReg) % 2 ^ 30) (hfetch' : fetch') :
    Link sizeWidth burstWidth all' fetch' mem y' := by
  rcases lt_or_eq_of_le hat.le with hlt | hlast
  · have hbeat : y.cache.ctrl.lastBeat burstWidth = false := decide_eq_false (by omega)
    rw [hbeat] at hask hcnt'
    replace hcnt' : y'.cache.ctrl.burstCntReg = y.cache.ctrl.burstCntReg + 1 :=
      hcnt'.trans (Nat.mod_eq_of_lt hlt)
    refine .fetching base hstate' htotal' hmore' ?_ halign ?_ ?_ hfetch' <;> rw [hcnt']
    · exact hlt
    · rw [← hword']
      exact burst_succ hsized.addr halign hlt hbase
    · exact hline.word hy hmem hask hdva
  · have hbeat : y.cache.ctrl.lastBeat burstWidth = true := by simp [Ctrl.lastBeat, ← hlast]
    rw [if_pos hbeat] at hask hcnt'
    have hline' := Line.of_ask hy (hat.phase_of_end hlast) hmem (by simp [hdva]) hask
    rw [hx] at hline'
    refine .fetching _ hstate' htotal' hmore' ?_ (burst_after hsized.addr halign hlast hbase) ?_
      (hcnt' ▸ hline') hfetch' <;> rw [hcnt']
    · exact Nat.two_pow_pos burstWidth
    · exact hword'

theorem Link.of_gotSize (hsized : Sized sizeWidth burstWidth)
    (hreg : y.cache.ctrl.callRetBaseReg < 2 ^ 32) (hstate : y.cache.ctrl.stateReg = .size)
    (hcnt : y.cache.ctrl.burstCntReg = y.cache.ctrl.msizeAddr % 2 ^ burstWidth)
    (hline : Line burstWidth mem y (y.cache.ctrl.msizeAddr / 2 ^ burstWidth * 2 ^ burstWidth %
      2 ^ 30) y.cache.ctrl.burstCntReg)
    (hdva : y.cache.ctrl.ocpSlaveReg.resp = .dva)
    (hdata : y.cache.ctrl.ocpSlaveReg.data = mem (y.cache.ctrl.msizeAddr / 2 ^ burstWidth *
      2 ^ burstWidth % 2 ^ 30 + y.cache.ctrl.burstCntReg))
    (hat : At (2 ^ burstWidth) y.slave (y.cache.ctrl.msizeAddr / 2 ^ burstWidth *
      2 ^ burstWidth % 2 ^ 30) (y.cache.ctrl.burstCntReg + 1)) (hall : all) :
    Link sizeWidth burstWidth all' fetch' mem y' := by
  have hresp : y.cache.ctrl.ocpSlaveReg.resp ≠ .err := by simp [hdva]
  have hdva' : y.cache.ctrl.dva = true := by simp [Ctrl.dva, hdva]
  have hgot : y.cache.ctrl.gotSize burstWidth = true := by
    simp [Ctrl.gotSize, hstate, hdva', hcnt]
  obtain ⟨hstart, halign⟩ := burst_start hsized.addr y.cache.ctrl.msizeAddr
  rw [← hcnt] at hstart
  have hsize : y.cache.ctrl.size sizeWidth = sizeOf sizeWidth mem y.cache.ctrl.callRetBaseReg := by
    rw [Ctrl.size, hdata, hstart]
    rfl
  have hfirst : (y.cache.ctrl.msizeAddr + 1) % 2 ^ 30 = y.cache.ctrl.callRetBaseReg % 2 ^ 30 := by
    rw [Ctrl.msizeAddr]
    omega
  have hreg' : y'.cache.ctrl.callRetBaseReg =
      y.cache.ctrl.callRetBaseReg :=
    base_of_stall hy hleg (by simp [enaOut, Ctrl.fetchEna, hstate])
  have htotal : y'.cache.ctrl.transferSizeReg = lastWord
      sizeWidth mem y'.cache.ctrl.callRetBaseReg := by
    rw [hreg', hy]
    change (if y.cache.ctrl.gotSize burstWidth then _ else _) = _
    rw [if_pos hgot, hsize]
    rfl
  have hzero : y'.cache.ctrl.fetchCntReg = 0 := by
    subst hy
    exact if_pos hgot
  obtain ⟨hask, hstate', hcnt'⟩ := ctrl_of_size hy hstate hresp
  simp only [hgot, hdva', Bool.true_and, if_true] at hask hcnt' hstate'
  refine Link.of_next hy hmem hsized halign hstart hline hdva hat hfirst.symm hask hcnt' hstate'
    htotal (hzero ▸ Nat.zero_le _) ?_ (hcarry.size hall hgot hsize)
  rw [hfirst, hreg', hzero, Nat.add_zero]

theorem Link.of_sizing (hsized : Sized sizeWidth burstWidth)
    (hreg : y.cache.ctrl.callRetBaseReg < 2 ^ 32) (hresp : y.cache.ctrl.ocpSlaveReg.resp ≠ .err)
    (hstate : y.cache.ctrl.stateReg = .size)
    (hcnt : y.cache.ctrl.burstCntReg ≤ y.cache.ctrl.msizeAddr % 2 ^ burstWidth)
    (hline : Line burstWidth mem y (y.cache.ctrl.msizeAddr / 2 ^ burstWidth * 2 ^ burstWidth %
      2 ^ 30) y.cache.ctrl.burstCntReg) (hall : all) :
    Link sizeWidth burstWidth all' fetch' mem y' := by
  have hlt : y.cache.ctrl.msizeAddr % 2 ^ burstWidth < 2 ^ burstWidth :=
    Nat.mod_lt _ (Nat.two_pow_pos burstWidth)
  have hmsize : y'.cache.ctrl.msizeAddr =
      y.cache.ctrl.msizeAddr := by
    rw [Ctrl.msizeAddr, base_of_stall hy hleg (by simp [enaOut, Ctrl.fetchEna, hstate])]
    rfl
  have hword : y.cache.ctrl.gotWord = true → y.cache.ctrl.transferSizeReg + 1 = 2 ^ sizeWidth := by
    simp [Ctrl.gotWord, hstate]
  rcases hline.beat hresp with hnull | ⟨hdva, -, hdata, hat⟩
  · have hdva : y.cache.ctrl.dva = false := by simp [Ctrl.dva, hnull]
    have hgot : y.cache.ctrl.gotSize burstWidth = false := by simp [Ctrl.gotSize, hdva]
    obtain ⟨hask, hstate', hcnt'⟩ := ctrl_of_size hy hstate hresp
    simp only [hgot, hdva, Bool.false_and, Bool.false_eq_true, if_false] at hask hstate' hcnt'
    refine .sizing hstate' ?_ ?_ (hcarry.keep hall hgot hword) <;> rw [hmsize, hcnt']
    · exact hcnt
    · exact hline.wait hy hmem hask hnull
  · rcases lt_or_eq_of_le hcnt with hbefore | hhere
    · have hdva' : y.cache.ctrl.dva = true := by simp [Ctrl.dva, hdva]
      have hgot : y.cache.ctrl.gotSize burstWidth = false := by
        simp [Ctrl.gotSize, ne_of_lt hbefore]
      obtain ⟨hask, hstate', hcnt'⟩ := ctrl_of_size hy hstate hresp
      simp only [hgot, hdva', Bool.false_and, Bool.false_eq_true, if_false, if_true,
        Nat.mod_eq_of_lt (lt_of_le_of_lt hbefore hlt)] at hask hstate' hcnt'
      refine .sizing hstate' ?_ ?_ (hcarry.keep hall hgot hword) <;> rw [hmsize, hcnt']
      · exact hbefore
      · exact hline.word hy hmem hask hdva
    · exact Link.of_gotSize hy hmem hleg hcarry hsized hreg hstate hhere hline hdva hdata hat hall

section Transfer

variable {base : Nat} (hstate : y.cache.ctrl.stateReg = .transfer)
  (hline : Line burstWidth mem y base y.cache.ctrl.burstCntReg)
  (hdva : y.cache.ctrl.ocpSlaveReg.resp = .dva)
include hstate hline hdva

theorem Link.of_word (hsized : Sized sizeWidth burstWidth)
    (htotal : y.cache.ctrl.transferSizeReg = lastWord sizeWidth mem y.cache.ctrl.callRetBaseReg)
    (hmore : y.cache.ctrl.fetchCntReg < y.cache.ctrl.transferSizeReg)
    (halign : base % 2 ^ burstWidth = 0)
    (hbase : base + y.cache.ctrl.burstCntReg =
      (y.cache.ctrl.callRetBaseReg + y.cache.ctrl.fetchCntReg) % 2 ^ 30)
    (hat : At (2 ^ burstWidth) y.slave base (y.cache.ctrl.burstCntReg + 1))
    (hdata : y.cache.ctrl.ocpSlaveReg.data =
      mem ((y.cache.ctrl.callRetBaseReg + y.cache.ctrl.fetchCntReg) % 2 ^ 30))
    (hfetch : fetch) : Link sizeWidth burstWidth all' fetch' mem y' := by
  have hresp : y.cache.ctrl.ocpSlaveReg.resp ≠ .err := by simp [hdva]
  have hdva' : y.cache.ctrl.dva = true := by simp [Ctrl.dva, hdva]
  have hword : y.cache.ctrl.gotWord = true := by
    simp [Ctrl.gotWord, hstate, Ctrl.more, le_of_lt hmore, hdva']
  have hfinish : y.cache.ctrl.finish burstWidth = false := by
    simp [Ctrl.finish, Ctrl.more, le_of_lt hmore, hmore]
  have hstall : enaOut burstWidth y.cache = false := by
    simp [enaOut, Ctrl.fetchEna, hstate, hfinish]
  have hfetch' : fetch' := hcarry.word hfetch hstall hword htotal hmore hdata
  have hreg' : y'.cache.ctrl.callRetBaseReg =
      y.cache.ctrl.callRetBaseReg := base_of_stall hy hleg hstall
  have hlt : y.cache.ctrl.fetchCntReg + 1 < 2 ^ sizeWidth := by
    refine lt_of_le_of_lt hmore ?_
    rw [htotal]
    exact Nat.mod_lt _ (Nat.two_pow_pos sizeWidth)
  obtain ⟨hask, hstate', hcnt', htotal', hcount⟩ :=
    ctrl_of_transfer hy hstate hresp
  have hburst : y.cache.ctrl.nextBurst burstWidth = y.cache.ctrl.lastBeat burstWidth := by
    simp [Ctrl.nextBurst, hword, hmore]
  rw [hfinish] at hstate'
  rw [if_pos hword, Nat.mod_eq_of_lt hlt] at hcount
  simp only [hburst, hdva', if_true] at hask hcnt'
  refine Link.of_next hy hmem hsized halign hbase hline hdva hat
    (Nat.mod_mod_of_dvd _ (by decide)) hask hcnt' hstate' (by rw [htotal', hreg', htotal]) ?_ ?_
    hfetch'
  · rw [hcount, htotal']
    exact hmore
  · rw [hcount, hreg', add_assoc]

omit hleg hcarry in
/-- After the last word, a beat in the middle of the burst. -/
theorem Link.of_beat
    (hdone' : y'.cache.ctrl.transferSizeReg < y'.cache.ctrl.fetchCntReg ∨
      y'.cache.ctrl.transferSizeReg + 1 = 2 ^ sizeWidth)
    (hlt : y.cache.ctrl.burstCntReg + 1 < 2 ^ burstWidth) (hall' : all') :
    Link sizeWidth burstWidth all' fetch' mem y' := by
  have hdva' : y.cache.ctrl.dva = true := by simp [Ctrl.dva, hdva]
  have hbeat : y.cache.ctrl.lastBeat burstWidth = false := decide_eq_false (by omega)
  have hburst : y.cache.ctrl.nextBurst burstWidth = false := by simp [Ctrl.nextBurst, hbeat]
  have hfinish : y.cache.ctrl.finish burstWidth = false := by simp [Ctrl.finish, hbeat]
  obtain ⟨hask, hstate', hcnt', -, -⟩ := ctrl_of_transfer hy hstate (by simp [hdva])
  simp only [hburst, hdva', hfinish, Bool.false_eq_true, if_false, if_true,
    Nat.mod_eq_of_lt hlt] at hask hstate' hcnt'
  refine .draining base hstate' hdone' ?_ ?_ hall' <;> rw [hcnt']
  · exact hlt
  · exact hline.word hy hmem hask hdva

omit hmem hleg hcarry hline in
/-- After the last word, the last beat of the burst. -/
theorem Link.of_done
    (hdone : y.cache.ctrl.gotWord = true → y.cache.ctrl.transferSizeReg ≤ y.cache.ctrl.fetchCntReg)
    (hcmd : y.cache.ctrl.ocpCmdReg = .idle)
    (hat : At (2 ^ burstWidth) y.slave base (y.cache.ctrl.burstCntReg + 1))
    (hlast : y.cache.ctrl.burstCntReg + 1 = 2 ^ burstWidth) (hall' : all') :
    Link sizeWidth burstWidth all' fetch' mem y' := by
  have hdva' : y.cache.ctrl.dva = true := by simp [Ctrl.dva, hdva]
  have hburst : y.cache.ctrl.nextBurst burstWidth = false := by
    rw [Ctrl.nextBurst, Bool.and_eq_false_iff, Bool.and_eq_false_iff, decide_eq_false_iff_not]
    cases hword : y.cache.ctrl.gotWord with
    | false => exact .inl (.inl rfl)
    | true => exact .inl (.inr (Nat.not_lt_of_le (hdone hword)))
  have hfinish : y.cache.ctrl.finish burstWidth = true := by
    have hgot : y.cache.ctrl.more = true → y.cache.ctrl.gotWord = true := by
      intro h
      simp [Ctrl.gotWord, hstate, h, hdva']
    cases hmore : y.cache.ctrl.more with
    | false => simp [Ctrl.finish, hstate, hmore, Ctrl.lastBeat, ← hlast]
    | true => simp [Ctrl.finish, hstate, hmore, hdva', Ctrl.lastBeat, ← hlast, hdone (hgot hmore)]
  obtain ⟨hask, hstate', -, -, -⟩ := ctrl_of_transfer hy hstate (by simp [hdva])
  rw [hburst] at hask
  rw [if_pos hfinish] at hstate'
  obtain ⟨hcmd', hphase', hresp'⟩ := rest_of_noAsk hy hask hcmd (hat.phase_of_end hlast)
  exact .rest (by simp [hstate']) hcmd' hphase' hresp' hall'

omit hdva in
theorem Link.of_fetching (hsized : Sized sizeWidth burstWidth)
    (hresp : y.cache.ctrl.ocpSlaveReg.resp ≠ .err)
    (htotal : y.cache.ctrl.transferSizeReg = lastWord sizeWidth mem y.cache.ctrl.callRetBaseReg)
    (hmore : y.cache.ctrl.fetchCntReg ≤ y.cache.ctrl.transferSizeReg)
    (hcnt : y.cache.ctrl.burstCntReg < 2 ^ burstWidth) (halign : base % 2 ^ burstWidth = 0)
    (hbase : base + y.cache.ctrl.burstCntReg =
      (y.cache.ctrl.callRetBaseReg + y.cache.ctrl.fetchCntReg) % 2 ^ 30) (hfetch : fetch) :
    Link sizeWidth burstWidth all' fetch' mem y' := by
  rcases hline.beat hresp with hnull | ⟨hdva, hcmd, hdata, hat⟩
  · have hdva : y.cache.ctrl.dva = false := by simp [Ctrl.dva, hnull]
    have hword : y.cache.ctrl.gotWord = false := by simp [Ctrl.gotWord, hdva]
    have hburst : y.cache.ctrl.nextBurst burstWidth = false := by simp [Ctrl.nextBurst, hword]
    have hfinish : y.cache.ctrl.finish burstWidth = false := by
      simp [Ctrl.finish, Ctrl.more, hmore, hdva]
    have hstall : enaOut burstWidth y.cache = false := by
      simp [enaOut, Ctrl.fetchEna, hstate, hfinish]
    have hreg' : y'.cache.ctrl.callRetBaseReg =
        y.cache.ctrl.callRetBaseReg := base_of_stall hy hleg hstall
    obtain ⟨hask, hstate', hcnt', htotal', hfetch'⟩ :=
      ctrl_of_transfer hy hstate hresp
    simp only [hburst, hdva, hfinish, Bool.false_eq_true, if_false] at hask hstate' hcnt'
    rw [if_neg (by simp [hword])] at hfetch'
    refine .fetching base hstate' ?_ ?_ (hcnt' ▸ hcnt) halign ?_
      (hcnt' ▸ hline.wait hy hmem hask hnull) (hcarry.wait hfetch hstate hstall hword)
    · rw [htotal', hreg', htotal]
    · rw [hfetch', htotal']
      exact hmore
    · rw [hcnt', hfetch', hreg', hbase]
  · have hword : y.cache.ctrl.gotWord = true := by
      simp [Ctrl.gotWord, hstate, Ctrl.more, hmore, Ctrl.dva, hdva]
    rw [hbase] at hdata
    rcases lt_or_eq_of_le hmore with hlt | hlast
    · exact Link.of_word hy hmem hleg hcarry hstate hline hdva hsized htotal hlt halign hbase
        hat hdata
        hfetch
    · have hall' := hcarry.last hfetch hword htotal hlast hdata
      rcases lt_or_eq_of_le hat.le with hmid | hend
      swap
      · exact Link.of_done hy hstate hdva (fun _ => le_of_eq hlast.symm) hcmd hat hend hall'
      refine Link.of_beat hy hmem hstate hline hdva ?_ hmid hall'
      obtain ⟨-, -, -, htotal', hfetch'⟩ := ctrl_of_transfer hy hstate (by simp [hdva])
      rw [if_pos hword, hlast] at hfetch'
      rw [htotal', hfetch']
      have hbound : y.cache.ctrl.transferSizeReg < 2 ^ sizeWidth := by
        rw [htotal]
        exact Nat.mod_lt _ (Nat.two_pow_pos sizeWidth)
      rcases lt_or_eq_of_le (Nat.succ_le_of_lt hbound) with hsmall | hfull
      · rw [Nat.mod_eq_of_lt hsmall]
        exact .inl (Nat.lt_succ_self _)
      · exact .inr hfull

omit hy hmem hleg hcarry hstate hline hdva in
/-- A transfer does not end while a beat is missing. -/
theorem finish_of_null (hdrained : Drained burstWidth y)
    (hnull : y.cache.ctrl.ocpSlaveReg.resp = .null) : y.cache.ctrl.finish burstWidth = false := by
  by_contra hfin
  rw [Bool.not_eq_false] at hfin
  have hdrain : y.draining burstWidth = true := by
    cases hmore : y.cache.ctrl.more with
    | true => simp [Ctrl.finish, hmore, Ctrl.dva, hnull] at hfin
    | false => simpa [Ctrl.finish, Sys.draining, hmore] using hfin
  exact hdrained hdrain hnull

omit hleg hdva in
theorem Link.of_draining (hdrained : Drained burstWidth y)
    (hresp : y.cache.ctrl.ocpSlaveReg.resp ≠ .err)
    (hdone : y.cache.ctrl.transferSizeReg < y.cache.ctrl.fetchCntReg ∨
      y.cache.ctrl.transferSizeReg + 1 = 2 ^ sizeWidth)
    (hcnt : y.cache.ctrl.burstCntReg < 2 ^ burstWidth) (hall : all) :
    Link sizeWidth burstWidth all' fetch' mem y' := by
  have hsize : y.cache.ctrl.gotSize burstWidth = false := by simp [Ctrl.gotSize, hstate]
  -- a word is taken again only when the count has wrapped
  have hfull : y.cache.ctrl.gotWord = true → y.cache.ctrl.transferSizeReg + 1 = 2 ^ sizeWidth := by
    intro hword
    refine hdone.resolve_left ?_
    simp only [Ctrl.gotWord, Ctrl.more, Bool.and_eq_true, decide_eq_true_eq] at hword
    exact Nat.not_lt_of_le hword.1.2
  have hall' : all' := hcarry.keep hall hsize hfull
  have hdone' : y'.cache.ctrl.transferSizeReg < y'.cache.ctrl.fetchCntReg ∨
      y'.cache.ctrl.transferSizeReg + 1 = 2 ^ sizeWidth := by
    obtain ⟨-, -, -, htotal', hfetch'⟩ :=
      ctrl_of_transfer hy hstate hresp
    rw [htotal', hfetch']
    cases hword : y.cache.ctrl.gotWord with
    | true => exact .inr (hfull hword)
    | false => exact hdone
  rcases hline.beat hresp with hnull | ⟨hdva, hcmd, -, hat⟩
  · have hdva : y.cache.ctrl.dva = false := by simp [Ctrl.dva, hnull]
    have hburst : y.cache.ctrl.nextBurst burstWidth = false := by
      simp [Ctrl.nextBurst, Ctrl.gotWord, hdva]
    have hfinish := finish_of_null hdrained hnull
    obtain ⟨hask, hstate', hcnt', -, -⟩ :=
      ctrl_of_transfer hy hstate hresp
    simp only [hburst, hdva, hfinish, Bool.false_eq_true, if_false] at hask hstate' hcnt'
    exact .draining base hstate' hdone' (hcnt' ▸ hcnt)
      (hcnt' ▸ hline.wait hy hmem hask hnull) hall'
  · rcases lt_or_eq_of_le hat.le with hmid | hend
    · exact Link.of_beat hy hmem hstate hline hdva hdone' hmid hall'
    · cases hburst : y.cache.ctrl.nextBurst burstWidth with
      | false =>
        refine Link.of_done hy hstate hdva ?_ hcmd hat hend hall'
        intro hword
        refine Nat.le_of_not_lt fun hlt => ?_
        simp [Ctrl.nextBurst, hword, hlt, Ctrl.lastBeat, ← hend] at hburst
      | true =>
        have hfinish : y.cache.ctrl.finish burstWidth = false := by
          simp only [Ctrl.nextBurst, Ctrl.gotWord, Bool.and_eq_true, decide_eq_true_eq] at hburst
          simp [Ctrl.finish, hburst.1.1.1.2, hburst.1.2]
        obtain ⟨hask, hstate', hcnt', -, -⟩ := ctrl_of_transfer hy hstate hresp
        rw [if_pos hburst] at hask hcnt'
        rw [hfinish] at hstate'
        exact .draining _ hstate' hdone' (hcnt' ▸ Nat.two_pow_pos burstWidth)
          (hcnt' ▸ Line.of_ask hy (hat.phase_of_end hend) hmem hresp hask) hall'

end Transfer

theorem Link.next (h : Link sizeWidth burstWidth all fetch mem y)
    (hsized : Sized sizeWidth burstWidth) (hreg : y.cache.ctrl.callRetBaseReg < 2 ^ 32)
    (hresp : y.cache.ctrl.ocpSlaveReg.resp ≠ .err) (hdrained : Drained burstWidth y) :
    Link sizeWidth burstWidth all' fetch' mem y' := by
  cases h with
  | rest hstate hcmd hphase hnull hall =>
    exact Link.of_rest hy hmem hleg hcarry hstate hcmd hphase hnull hall
  | sizing hstate hcnt hline hall =>
    exact Link.of_sizing hy hmem hleg hcarry hsized hreg hresp hstate hcnt hline hall
  | fetching base hstate htotal hmore hcnt halign hbase hline hfetch =>
    exact Link.of_fetching hy hmem hleg hcarry hstate hline hsized hresp htotal hmore hcnt halign
      hbase hfetch
  | draining base hstate hdone hcnt hline hall =>
    exact Link.of_draining hy hmem hcarry hstate hline hdrained hresp hdone hcnt hall

end Step

end After

/-! ### Runs -/

/-- The cache with its memory. -/
structure Inv (sizeWidth burstWidth : Nat) (all fetch : Prop) (mem : Memory) (y : Sys) : Prop where
  memory : ReadOnly mem y.slave
  base : y.cache.ctrl.callRetBaseReg < 2 ^ 32
  link : Link sizeWidth burstWidth all fetch mem y

theorem Link.cmd {all fetch : Prop} (h : Link sizeWidth burstWidth all fetch mem y) :
    y.cache.ctrl.ocpCmdReg = .idle ∨ y.cache.ctrl.ocpCmdReg = .rd := by
  have hline : ∀ {base n}, Line burstWidth mem y base n →
      y.cache.ctrl.ocpCmdReg = .idle ∨ y.cache.ctrl.ocpCmdReg = .rd := by
    intro base n h
    cases h with
    | asked hcmd _ _ _ _ => exact .inr hcmd
    | running hcmd _ => exact .inl hcmd
  cases h with
  | rest _ hcmd _ _ _ => exact .inl hcmd
  | sizing _ _ h _ | fetching _ _ _ _ _ _ _ h _ | draining _ _ _ _ h _ => exact hline h

theorem Inv.next {all fetch all' fetch' : Prop} (h : Inv sizeWidth burstWidth all fetch mem y)
    (hsized : Sized sizeWidth burstWidth) (hleg : Legal burstWidth y c)
    (hresp : y.cache.ctrl.ocpSlaveReg.resp ≠ .err) (hdrained : Drained burstWidth y)
    (hcarry : Carries sizeWidth burstWidth mem y all fetch all' fetch') :
    Inv sizeWidth burstWidth all' fetch' mem (next sizeWidth burstWidth methodCount y c) where
  memory := h.memory.next (cmd_toOcp h.link.cmd)
  base := by
    change (if c.core.doCallRet then c.core.callRetBase else y.cache.ctrl.callRetBaseReg) < _
    split
    · exact hleg.base
    · exact h.base
  link := h.link.next rfl h.memory hleg hcarry hsized h.base hresp hdrained

/-- The registers with a reset value have it, and the memory is quiet. -/
structure IsReset (sizeWidth : Nat) (mem : Memory) (y : Sys) : Prop where
  cache : MCache.IsReset sizeWidth y.cache
  ocpSlaveReg : y.cache.ctrl.ocpSlaveReg.resp = .null
  base : y.cache.ctrl.callRetBaseReg < 2 ^ 32
  phase : y.slave.phase = .idle
  memory : y.slave.mem = mem
  hits : y.hits = []
  called : y.called = none

theorem IsReset.inv {all fetch : Prop} (h : IsReset sizeWidth mem y) (hall : all) :
    Inv sizeWidth burstWidth all fetch mem y where
  memory := ⟨h.memory, .inl h.phase⟩
  base := h.base
  link := .rest h.cache.stateReg h.cache.ocpCmdReg h.phase h.ocpSlaveReg hall

end Cycle

instance (burstWidth : Nat) (y : Sys) (c : Cycle) : Decidable (Legal burstWidth y c) :=
  decidable_of_iff (_ ∧ _) ⟨fun ⟨a, b⟩ => ⟨a, b⟩, fun ⟨a, b⟩ => ⟨a, b⟩⟩

instance (burstWidth : Nat) (y : Sys) : Decidable (Drained burstWidth y) :=
  inferInstanceAs (Decidable (_ → _))

def powerUp (sizeWidth : Nat) (mem : Memory) : Sys :=
  { cache := MCache.powerUp sizeWidth
    slave := ⟨.idle, mem⟩
    got := fun _ _ => false
    hits := []
    called := none }

theorem powerUp_isReset (sizeWidth : Nat) (mem : Memory) :
    IsReset sizeWidth mem (powerUp sizeWidth mem) :=
  ⟨MCache.powerUp_isReset sizeWidth, rfl, Nat.two_pow_pos 32, rfl, rfl, rfl, rfl⟩

/-- A word with a small number in it. -/
def word (n : Nat) : Word := ![BitVec.ofNat 8 n, 0, 0, 0]

/-- A cycle with a call of the method at `base`, if there is one. -/
def call (base : Option Nat) (go err : Bool) : Cycle :=
  ⟨⟨base.isSome, base.getD 0, true, false⟩, ⟨true, go, err, fun _ => 0⟩⟩

end Sys

end Patmos.MCache
