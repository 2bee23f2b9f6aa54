import Patmos.SRamCtrl

/-!
# The SRAM controller and its SRAM are a memory

While a write burst goes out, the SRAM is the memory with the first halfwords of the burst
written; the strobe of a halfword lasts several cycles, and writing it again changes nothing.  A
read burst finds the SRAM at rest.
-/

namespace Patmos.SRamCtrl

open Ocp Clocked
open Function (update_idem update_of_ne update_self)

/-! ### Halfwords -/

@[simp] theorem join_part {α : Type} (w : Fin 4 → α) : join (part w) = w := by
  funext k
  have hk : (⟨2 * (k.val / 2) + k.val % 2, by omega⟩ : Fin 4) = k := Fin.ext (by simp; omega)
  exact congrArg w hk

theorem halves_add (mem : Memory) (a : Nat) (i : Fin 2) :
    halves mem (2 * a + i) = part (mem a) i := by
  have hdiv : (2 * a + i.val) / 2 = a := by omega
  have hmod : (⟨(2 * a + i.val) % 2, by omega⟩ : Fin 2) = i := by
    apply Fin.ext
    change (2 * a + i.val) % 2 = i.val
    omega
  rw [halves, hdiv, hmod]

/-- The enabled bytes of a halfword are written. -/
def writeHalf (x : Nat → Half) (a : Nat) (t : Trans) : Nat → Half :=
  Function.update x a fun l => if t.byteEna l then t.data l else x a l

@[simp] theorem writeHalf_self (x : Nat → Half) (a : Nat) (t : Trans) :
    writeHalf (writeHalf x a t) a t = writeHalf x a t := by
  unfold writeHalf
  rw [update_idem, update_self]
  congr 1
  funext l
  split <;> rfl

/-- Half `i` of a word with its byte enables. -/
def transOf (p : ByteEn × Word) (i : Fin 2) : Trans := ⟨part p.1 i, part p.2 i⟩

/-- A word is written as its two halves. -/
theorem halves_write (mem : Memory) (a : Nat) (be : ByteEn) (w : Word) :
    halves (mem.write a be w) =
      writeHalf (writeHalf (halves mem) (2 * a) (transOf (be, w) 0)) (2 * a + 1)
        (transOf (be, w) 1) := by
  funext h l
  by_cases ha : h / 2 = a
  · subst ha
    rcases Nat.mod_two_eq_zero_or_one h with h0 | h1
    · have hh : h = 2 * (h / 2) := by omega
      have hne : h ≠ 2 * (h / 2) + 1 := by omega
      rw [writeHalf, update_of_ne hne, writeHalf, ← hh, update_self]
      simp [halves, h0, transOf, part, merge]
    · have hh : h = 2 * (h / 2) + 1 := by omega
      have hne : h ≠ 2 * (h / 2) := by omega
      rw [writeHalf, ← hh, update_self, writeHalf, update_of_ne hne]
      simp [halves, h1, transOf, part, merge]
  · have hne0 : h ≠ 2 * a := by omega
    have hne1 : h ≠ 2 * a + 1 := by omega
    rw [writeHalf, update_of_ne hne1, writeHalf, update_of_ne hne0, halves,
      Memory.write_of_ne mem ha, halves]

theorem writeAll_concat (mem : Memory) (base : Nat) (ws : List (ByteEn × Word))
    (p : ByteEn × Word) :
    writeAll mem base (ws ++ [p]) = (writeAll mem base ws).write (base + ws.length) p.1 p.2 := by
  induction ws generalizing mem base with
  | nil => rfl
  | cons q ws ih =>
    rw [List.cons_append, writeAll, ih, writeAll, List.length_cons]
    congr 1
    omega

theorem half_lt (t : Nat) : t % 2 < 2 := Nat.mod_lt t Nat.two_pos

/-- Halfword `t` of a burst. -/
def trans (ws : List (ByteEn × Word)) (t : Nat) : Trans :=
  match ws[t / 2]? with
  | some p => transOf p ⟨t % 2, half_lt t⟩
  | none => ⟨fun _ => false, fun _ => 0⟩

/-- The first `t` halfwords of a burst to halfword address `a` are written. -/
def applied (x : Nat → Half) (a : Nat) (ws : List (ByteEn × Word)) : Nat → Nat → Half
  | 0 => x
  | t + 1 => writeHalf (applied x a ws t) (a + t) (trans ws t)

theorem trans_of_getElem? {ws : List (ByteEn × Word)} {k : Nat} {p : ByteEn × Word}
    (h : ws[k]? = some p) (i : Fin 2) : trans ws (2 * k + i) = transOf p i := by
  have hdiv : (2 * k + i.val) / 2 = k := by omega
  have hmod : (⟨(2 * k + i.val) % 2, by omega⟩ : Fin 2) = i := by
    apply Fin.ext
    change (2 * k + i.val) % 2 = i.val
    omega
  simp only [trans, hdiv, h, hmod]

theorem trans_append {ws : List (ByteEn × Word)} {t : Nat} (ht : t < 2 * ws.length)
    (p : ByteEn × Word) : trans (ws ++ [p]) t = trans ws t := by
  have hlt : t / 2 < ws.length := by omega
  rw [trans, trans, List.getElem?_append_left hlt]

theorem applied_two_mul {mem : Memory} {base k : Nat} {ws : List (ByteEn × Word)}
    (hk : k ≤ ws.length) :
    applied (halves mem) (2 * base) ws (2 * k) = halves (writeAll mem base (ws.take k)) := by
  induction k with
  | zero => simp [applied, writeAll]
  | succ k ih =>
    have hlt : k < ws.length := hk
    have hget : ws[k]? = some ws[k] := List.getElem?_eq_getElem hlt
    have hbase : base + (ws.take k).length = base + k := by
      rw [List.length_take, min_eq_left hlt.le]
    rw [List.take_succ_eq_append_getElem hlt, writeAll_concat, hbase, halves_write, ← ih hlt.le]
    have hfirst := trans_of_getElem? hget 0
    have hsecond := trans_of_getElem? hget 1
    have haddr : 2 * (base + k) = 2 * base + 2 * k := by omega
    simp only [Fin.val_zero, add_zero, Fin.val_one] at hfirst hsecond
    have hsucc : 2 * (k + 1) = 2 * k + 1 + 1 := by omega
    rw [hsucc, applied, applied, hfirst, hsecond, haddr, add_assoc (2 * base)]

/-- A byte of the SRAM during a burst is the old one, or it is enabled and the new one. -/
theorem applied_byte (x : Nat → Half) (base : Nat) (ws : List (ByteEn × Word)) (t h : Nat)
    (l : Fin 2) :
    applied x (2 * base) ws t h l = x h l ∨
      ∃ k be w, ws[k]? = some (be, w) ∧ h / 2 = base + k ∧
        part be ⟨h % 2, half_lt h⟩ l = true ∧
        applied x (2 * base) ws t h l = part w ⟨h % 2, half_lt h⟩ l := by
  induction t with
  | zero => exact Or.inl rfl
  | succ t ih =>
    rw [applied]
    by_cases hh : h = 2 * base + t
    · have hdiv : h / 2 = base + t / 2 := by omega
      have hmod : h % 2 = t % 2 := by omega
      by_cases hen : (trans ws t).byteEna l = true
      · right
        rcases hget : ws[t / 2]? with _ | ⟨be, w⟩
        · simp [trans, hget] at hen
        · simp only [trans, hget, transOf] at hen
          refine ⟨t / 2, be, w, hget, hdiv, ?_, ?_⟩
          · simpa only [hmod] using hen
          · rw [← hh, writeHalf, update_self]
            simp only [trans, hget, transOf, hen, if_true, hmod]
      · rw [← hh, writeHalf, update_self, if_neg hen]
        exact ih
    · rw [writeHalf, update_of_ne hh]
      exact ih

/-! ### The pins -/

/-- The write strobe of a halfword. -/
def strobe (a : Nat) (t : Trans) : Pins :=
  select ⟨a, true, t.data, false, true, false, true, true⟩ t

theorem sramNext_strobe (a : Nat) (t : Trans) (x : Nat → Half) (junk : Half) :
    (strobe a t).sramNext x junk = writeHalf x a t := by
  have hlane : ∀ l, (strobe a t).lane l = t.byteEna l := by
    refine Fin.forall_fin_two.mpr ⟨?_, ?_⟩
    · simp [strobe, select, Pins.lane]
    · simp [strobe, select, Pins.lane]
  simp only [Pins.sramNext, hlane, writeHalf]
  rfl

theorem sramNext_of_nwe {p : Pins} (h : p.nweReg = true) (x : Nat → Half) (junk : Half) :
    p.sramNext x junk = x := by
  simp [Pins.sramNext, h]

theorem sramNext_of_lanes {p : Pins} (hl : p.nlbReg = true) (hu : p.nubReg = true)
    (x : Nat → Half) (junk : Half) : p.sramNext x junk = x := by
  have hlane : ∀ l, p.lane l = false := by
    refine Fin.forall_fin_two.mpr ⟨?_, ?_⟩
    · simp [Pins.lane, hl]
    · simp [Pins.lane, hu]
  simp [Pins.sramNext, hlane]

theorem bus_of_read {p : Pins} (hen : p.doutEnaReg = false) (hce : p.nceReg = false)
    (hoe : p.noeReg = false) (hl : p.nlbReg = false) (hu : p.nubReg = false) (x : Nat → Half)
    (junk : Half) : p.bus x junk = x p.addrReg := by
  have hlane : ∀ l, p.lane l = true := by
    refine Fin.forall_fin_two.mpr ⟨?_, ?_⟩
    · simp [Pins.lane, hl]
    · simp [Pins.lane, hu]
  simp [Pins.bus, hen, hce, hoe, hlane]

/-! ### The buffers -/

theorem wrap_of_lt {n k : Nat} (h : k < n) : wrap n k = k :=
  Nat.mod_eq_of_lt (Nat.lt_of_lt_of_le h (Nat.le_pow_clog Nat.one_lt_two n))

theorem receive_concat {buf : Nat → Trans} {ws : List (ByteEn × Word)}
    (h : ∀ j < 2 * ws.length, buf j = trans ws j) (m : BurstMaster) :
    ∀ j < 2 * (ws ++ [(m.dataByteEn, m.data)]).length,
      receive buf ws.length m j = trans (ws ++ [(m.dataByteEn, m.data)]) j := by
  intro j hj
  rw [List.length_append, List.length_singleton] at hj
  by_cases hlast : j / 2 = ws.length
  · have hget : (ws ++ [(m.dataByteEn, m.data)])[j / 2]? = some (m.dataByteEn, m.data) := by
      rw [hlast, List.getElem?_concat_length]
    rw [receive, if_pos hlast, trans, hget]
    rfl
  · have hlt : j < 2 * ws.length := by omega
    rw [receive, if_neg hlast, h j hlt, trans_append hlt]

theorem receive_of_lt {buf : Nat → Trans} {j k : Nat} (h : j < 2 * k) (m : BurstMaster) :
    receive buf k m j = buf j := by
  have hne : j / 2 ≠ k := by omega
  rw [receive, if_neg hne]

namespace Sys

/-! ### What the controller is doing -/

section Stages

variable (cfg : Config)

/-- A read burst is at halfword `t`. -/
structure Reading (y : Sys) (base t : Nat) : Prop where
  pend : y.pend = some (.read base 0)
  inside : 2 * base + TRANSPERCMD cfg ≤ 2 ^ cfg.sramAddrWidth
  lt : t < TRANSPERCMD cfg
  mAddrReg : y.ctrl.mAddrReg = 2 * base + t
  transCountReg : y.ctrl.transCountReg = t
  wordCountReg : y.ctrl.wordCountReg = 0
  rdBufferReg : ∀ j < t,
    y.ctrl.rdBufferReg (TRANSPERCMD cfg - t + j) = halves y.spec (2 * base + j)
  sram : y.sram = halves y.spec
  nweReg : y.ctrl.pins.nweReg = true

/-- The SRAM drives halfword `a`. -/
structure Shows (p : Pins) (a : Nat) : Prop where
  addrReg : p.addrReg = a
  doutEnaReg : p.doutEnaReg = false
  nceReg : p.nceReg = false
  noeReg : p.noeReg = false
  nlbReg : p.nlbReg = false
  nubReg : p.nubReg = false

/-- A read burst is in the buffer, and `done` words are returned. -/
structure Returning (y : Sys) (base done : Nat) : Prop where
  pend : y.pend = some (.read base done)
  lt : done < cfg.ocpBurstLen
  transCountReg : y.ctrl.transCountReg = 0
  wordCountReg : y.ctrl.wordCountReg = done
  rdBufferReg : ∀ j < TRANSPERCMD cfg, y.ctrl.rdBufferReg j = halves y.spec (2 * base + j)
  sram : y.sram = halves y.spec
  nweReg : y.ctrl.pins.nweReg = true

/-- The received words of a write burst are in the buffer. -/
structure Buffered (y : Sys) (base : Nat) (ws : List (ByteEn × Word)) : Prop where
  pend : y.pend = some (.write base ws)
  inside : 2 * base + TRANSPERCMD cfg ≤ 2 ^ cfg.sramAddrWidth
  wrBufferReg : ∀ j < 2 * ws.length, y.ctrl.wrBufferReg j = trans ws j

/-- A write burst is received.  The first halfword may already be written. -/
structure Receiving (y : Sys) (base : Nat) (ws : List (ByteEn × Word)) : Prop
    extends Buffered cfg y base ws where
  pos : 0 < ws.length
  lt : ws.length < cfg.ocpBurstLen
  mAddrReg : y.ctrl.mAddrReg = 2 * base
  transCountReg : y.ctrl.transCountReg = 0
  wordCountReg : y.ctrl.wordCountReg = ws.length
  pins : y.ctrl.pins.nweReg = true ∨ y.ctrl.pins = strobe (2 * base) (trans ws 0)
  sram : y.sram = halves y.spec ∨ y.sram = writeHalf (halves y.spec) (2 * base) (trans ws 0)

/-- A write burst is at halfword `t`. -/
structure Sending (y : Sys) (base : Nat) (ws : List (ByteEn × Word)) (t : Nat) : Prop
    extends Buffered cfg y base ws where
  full : ws.length = cfg.ocpBurstLen
  lt : t < TRANSPERCMD cfg
  mAddrReg : y.ctrl.mAddrReg = 2 * base + t
  transCountReg : y.ctrl.transCountReg = t
  wordCountReg : y.ctrl.wordCountReg = 0

/-- The SRAM with the first `t` halfwords of a burst. -/
abbrev sent (y : Sys) (base : Nat) (ws : List (ByteEn × Word)) (t : Nat) : Nat → Half :=
  applied (halves y.spec) (2 * base) ws t

inductive Stage (y : Sys) : Prop
  | ready (hs : y.ctrl.stateReg = .sReady) (hpend : y.pend = none)
      (htrans : y.ctrl.transCountReg = 0) (hword : y.ctrl.wordCountReg = 0)
      (hnwe : y.ctrl.pins.nweReg = true) (hsram : y.sram = halves y.spec)
  | readExe (base t : Nat) (hs : y.ctrl.stateReg = .sReadExe) (h : Reading cfg y base t)
  | readExe2 (base t : Nat) (hs : y.ctrl.stateReg = .sReadExe2) (h : Reading cfg y base t)
      (hshows : Shows y.ctrl.pins (2 * base + t))
  | readRet (base done : Nat) (hs : y.ctrl.stateReg = .sReadRet) (h : Returning cfg y base done)
  | writeRec (base : Nat) (ws : List (ByteEn × Word)) (hs : y.ctrl.stateReg = .sWriteRec)
      (h : Receiving cfg y base ws)
  | writeExe (base : Nat) (ws : List (ByteEn × Word)) (t : Nat)
      (hs : y.ctrl.stateReg = .sWriteExe) (h : Sending cfg y base ws t)
      (hpins : y.ctrl.pins = strobe (2 * base + t) (trans ws t))
      (hsram : y.sram = y.sent base ws t ∨ y.sram = y.sent base ws (t + 1))
  | writeExe2 (base : Nat) (ws : List (ByteEn × Word)) (t : Nat)
      (hs : y.ctrl.stateReg = .sWriteExe2) (h : Sending cfg y base ws t)
      (hnlb : y.ctrl.pins.nlbReg = true) (hnub : y.ctrl.pins.nubReg = true)
      (hsram : y.sram = y.sent base ws (t + 1))
  | writeRet (base : Nat) (ws : List (ByteEn × Word)) (hs : y.ctrl.stateReg = .sWriteRet)
      (h : Buffered cfg y base ws) (hfull : ws.length = cfg.ocpBurstLen)
      (htrans : y.ctrl.transCountReg = 0) (hword : y.ctrl.wordCountReg = 0)
      (hnwe : y.ctrl.pins.nweReg = true) (hsram : y.sram = halves (writeAll y.spec base ws))

/-- How many cycles a transaction still takes, less those in which a word is awaited. -/
def remaining (y : Sys) : Nat :=
  let left := (TRANSPERCMD cfg - y.ctrl.transCountReg - 1) * (cfg.writeWaitCycles + 1)
  match y.ctrl.stateReg with
  | .sReady => 0
  | .sReadExe => 2 * (TRANSPERCMD cfg - y.ctrl.transCountReg) + cfg.ocpBurstLen
  | .sReadExe2 => 2 * (TRANSPERCMD cfg - y.ctrl.transCountReg) - 1 + cfg.ocpBurstLen
  | .sReadRet => cfg.ocpBurstLen - y.ctrl.wordCountReg
  | .sWriteRec =>
    cfg.ocpBurstLen - y.ctrl.wordCountReg + left + cfg.writeWaitCycles + 2
  | .sWriteExe => left + (cfg.writeWaitCycles - y.ctrl.waitCountReg) + 3
  | .sWriteExe2 => left + 2
  | .sWriteRet => 1

/-- What one cycle does. -/
structure Step (y : Sys) (c : Cycle) : Prop where
  stage : Stage cfg (y.next cfg c)
  progress : y.pend ≠ none → remaining cfg (y.next cfg c) + (working y c).length ≤ remaining cfg y

end Stages

/-! ### One cycle -/

section Steps

variable {cfg : Config} {y : Sys} {c : Cycle} {base t done : Nat} {ws : List (ByteEn × Word)}

theorem resp_null (h : y.ctrl.stateReg ≠ .sReadRet ∧ y.ctrl.stateReg ≠ .sWriteRet) :
    (slaveS y.ctrl).resp = .null := by
  simp [slaveS, h]

theorem specNext_of_null (h : (slaveS y.ctrl).resp = .null) : y.specNext = y.spec := by
  unfold specNext
  split
  · rw [if_neg (by simp [h])]
  · rfl

theorem pendNext_of_read (hpend : y.pend = some (.read base done))
    (h : (slaveS y.ctrl).resp = .null) : y.pendNext cfg c = some (.read base done) := by
  simp only [pendNext, hpend, h, reduceCtorEq, if_false]

theorem pendNext_of_write (hpend : y.pend = some (.write base ws))
    (h : (slaveS y.ctrl).resp = .null) :
    y.pendNext cfg c =
      if ws.length < cfg.ocpBurstLen ∧ c.m.dataValid then
        some (.write base (ws ++ [(c.m.dataByteEn, c.m.data)]))
      else some (.write base ws) := by
  simp only [pendNext, hpend, h, reduceCtorEq, if_false]

theorem working_of_stateReg (h : y.ctrl.stateReg ≠ .sWriteRec) : working y c = [()] := by
  simp [working, h]

/-- A halfword address of a burst inside the SRAM is not cut. -/
theorem sramAddr_of_inside {a : Nat} (h : 2 * base + TRANSPERCMD cfg ≤ 2 ^ cfg.sramAddrWidth)
    (ha : a < 2 * base + TRANSPERCMD cfg) : sramAddr cfg a = a :=
  Nat.mod_eq_of_lt (lt_of_lt_of_le ha h)

/-- A cycle without a response, from what it does to the controller, the SRAM and the ledger. -/
theorem next_of_null (hnull : (slaveS y.ctrl).resp = .null) {s : State} {x : Nat → Half}
    {p : Option Pend}
    (hctrl : SRamCtrl.next cfg y.ctrl c.m (y.ctrl.pins.bus y.sram c.junk) = s)
    (hsram : y.ctrl.pins.sramNext y.sram c.junk = x) (hpend : y.pendNext cfg c = p) :
    y.next cfg c = ⟨s, x, p, y.spec⟩ := by
  rw [next, hctrl, hsram, hpend, specNext_of_null hnull]

theorem Step.of_next {z : Sys} (hnext : y.next cfg c = z) (hstage : Stage cfg z)
    (hleft : remaining cfg z + (working y c).length ≤ remaining cfg y) : Step cfg y c := by
  subst hnext
  exact ⟨hstage, fun _ => hleft⟩

theorem Reading.step_of_exe (h : Reading cfg y base t) (hs : y.ctrl.stateReg = .sReadExe) :
    Step cfg y c := by
  have hnull : (slaveS y.ctrl).resp = .null := resp_null (by simp [hs])
  have hnext : y.next cfg c = ⟨sReadExe y.ctrl, y.sram, some (.read base 0), y.spec⟩ :=
    next_of_null hnull (by simp only [SRamCtrl.next, hs]) (sramNext_of_nwe h.nweReg _ _)
      (pendNext_of_read h.pend hnull)
  refine .of_next hnext (.readExe2 base t rfl
    { h with pend := rfl, nweReg := rfl }
    ⟨h.mAddrReg, rfl, rfl, rfl, rfl, rfl⟩) ?_
  have hlt := h.lt
  rw [working_of_stateReg (by simp [hs])]
  simp only [remaining, hs, sReadExe, defaults, h.transCountReg, List.length_singleton]
  omega

/-- The halfword that the SRAM drives goes to the end of the buffer. -/
theorem Reading.shift (h : Reading cfg y base t) (hshows : Shows y.ctrl.pins (2 * base + t)) :
    ∀ j < t + 1, (sReadExe2 cfg y.ctrl (y.ctrl.pins.bus y.sram c.junk)).rdBufferReg
      (TRANSPERCMD cfg - (t + 1) + j) = halves y.spec (2 * base + j) := by
  intro j hj
  have hlt := h.lt
  have hbus := bus_of_read hshows.doutEnaReg hshows.nceReg hshows.noeReg hshows.nlbReg
    hshows.nubReg y.sram c.junk
  simp only [sReadExe2]
  rcases lt_or_eq_of_le (Nat.le_of_lt_succ hj) with hold | rfl
  · rw [if_neg (by omega)]
    have hindex : TRANSPERCMD cfg - (t + 1) + j + 1 = TRANSPERCMD cfg - t + j := by omega
    rw [hindex]
    exact h.rdBufferReg j hold
  · rw [if_pos (by omega), hbus, hshows.addrReg, h.sram]

theorem Reading.step_of_exe2 (h : Reading cfg y base t) (hs : y.ctrl.stateReg = .sReadExe2)
    (hshows : Shows y.ctrl.pins (2 * base + t)) : Step cfg y c := by
  have hnull : (slaveS y.ctrl).resp = .null := resp_null (by simp [hs])
  have hnext : y.next cfg c = ⟨sReadExe2 cfg y.ctrl (y.ctrl.pins.bus y.sram c.junk), y.sram,
      some (.read base 0), y.spec⟩ :=
    next_of_null hnull (by simp only [SRamCtrl.next, hs]) (sramNext_of_nwe h.nweReg _ _)
      (pendNext_of_read h.pend hnull)
  have hshift := h.shift (c := c) hshows
  have hlt := h.lt
  have hlen : TRANSPERCMD cfg = 2 * cfg.ocpBurstLen := rfl
  have hwork := working_of_stateReg (c := c) (y := y) (by simp [hs])
  by_cases hlast : t = TRANSPERCMD cfg - 1
  · have hcount := h.transCountReg.trans hlast
    refine .of_next hnext (.readRet base 0 (if_pos hcount) ⟨rfl, by omega, if_pos hcount,
      h.wordCountReg, fun j hj => ?_, h.sram, rfl⟩) ?_
    · have hindex : TRANSPERCMD cfg - (t + 1) + j = j := by omega
      have hj' := hshift j (by omega)
      rwa [hindex] at hj'
    · simp only [remaining, hs, sReadExe2, h.transCountReg, if_pos hlast, defaults, hwork,
        h.wordCountReg, List.length_singleton]
      omega
  · have hcount : y.ctrl.transCountReg ≠ TRANSPERCMD cfg - 1 := by rw [h.transCountReg]; exact hlast
    have hwrap : wrap (TRANSPERCMD cfg) (t + 1) = t + 1 := wrap_of_lt (by omega)
    have haddr : sramAddr cfg (y.ctrl.mAddrReg + 1) = 2 * base + (t + 1) := by
      rw [h.mAddrReg]
      exact sramAddr_of_inside h.inside (by omega)
    refine .of_next hnext (.readExe base (t + 1) (if_neg hcount) ⟨rfl, h.inside, by omega, haddr,
      (if_neg hcount).trans (by rw [h.transCountReg, hwrap]), h.wordCountReg, hshift, h.sram,
      rfl⟩) ?_
    simp only [remaining, hs, sReadExe2, h.transCountReg, if_neg hlast, hwrap, hwork,
      List.length_singleton]
    omega

theorem Returning.step (h : Returning cfg y base done) (hs : y.ctrl.stateReg = .sReadRet) :
    Step cfg y c := by
  have hdva : (slaveS y.ctrl).resp = .dva := by simp [slaveS, hs]
  have hnext : y.next cfg c = ⟨sReadRet cfg y.ctrl, y.sram,
      if done + 1 = cfg.ocpBurstLen then none else some (.read base (done + 1)), y.spec⟩ := by
    simp only [next, SRamCtrl.next, hs, sramNext_of_nwe h.nweReg, pendNext, specNext, h.pend, hdva,
      if_true]
  have hlt := h.lt
  have hwork := working_of_stateReg (c := c) (y := y) (by simp [hs])
  by_cases hlast : done = cfg.ocpBurstLen - 1
  · have hcount := h.wordCountReg.trans hlast
    refine .of_next hnext (.ready (if_pos hcount) (if_pos (by omega)) h.transCountReg
      (if_pos hcount) rfl h.sram) ?_
    simp only [remaining, hs, sReadRet, h.wordCountReg, if_pos hlast, hwork, List.length_singleton]
    omega
  · have hcount : y.ctrl.wordCountReg ≠ cfg.ocpBurstLen - 1 := by rw [h.wordCountReg]; exact hlast
    have hwrap : wrap cfg.ocpBurstLen (done + 1) = done + 1 := wrap_of_lt (by omega)
    refine .of_next hnext (.readRet base (done + 1) (if_neg hcount) ⟨if_neg (by omega), by omega,
      h.transCountReg, (if_neg hcount).trans (by rw [h.wordCountReg, hwrap]), h.rdBufferReg,
      h.sram, rfl⟩) ?_
    simp only [remaining, hs, sReadRet, h.wordCountReg, if_neg hlast, hwrap, hwork,
      List.length_singleton]
    omega

/-- What all cycles have in common in which a word is received or awaited. -/
theorem sWriteRec_fields (cfg : Config) (s : State) (m : BurstMaster) :
    (sWriteRec cfg s m).wrBufferReg = receive s.wrBufferReg s.wordCountReg m ∧
      (sWriteRec cfg s m).mAddrReg = s.mAddrReg ∧
      (sWriteRec cfg s m).transCountReg = s.transCountReg ∧
      (s.wordCountReg ≠ cfg.ocpBurstLen - 1 → (sWriteRec cfg s m).pins.nweReg = true) ∧
      (s.wordCountReg = cfg.ocpBurstLen - 1 →
        (sWriteRec cfg s m).pins = strobe s.mAddrReg (s.wrBufferReg 0)) := by
  unfold sWriteRec
  by_cases hlast : s.wordCountReg = cfg.ocpBurstLen - 1
  · simp only [hlast, if_true]
    split <;> exact ⟨rfl, rfl, rfl, fun hne => absurd rfl hne, fun _ => rfl⟩
  · simp only [hlast, if_false]
    split <;> exact ⟨rfl, rfl, rfl, fun _ => rfl, fun heq => heq.elim⟩

section Receive

variable (h : Receiving cfg y base ws) (hs : y.ctrl.stateReg = .sWriteRec)
include h

/-- The first halfword is written or not, and writing it again changes nothing. -/
theorem Receiving.sram_next :
    y.ctrl.pins.sramNext y.sram c.junk = halves y.spec ∨
      y.ctrl.pins.sramNext y.sram c.junk = writeHalf (halves y.spec) (2 * base) (trans ws 0) := by
  rcases h.pins with hnwe | hstrobe
  · rw [sramNext_of_nwe hnwe]
    exact h.sram
  · right
    rw [hstrobe, sramNext_strobe]
    rcases h.sram with hold | hnew
    · rw [hold]
    · rw [hnew, writeHalf_self]

theorem Receiving.first : y.ctrl.wrBufferReg 0 = trans ws 0 :=
  h.wrBufferReg 0 (Nat.mul_pos Nat.two_pos h.pos)

include hs

theorem Receiving.next_eq :
    y.next cfg c = ⟨sWriteRec cfg y.ctrl c.m, y.ctrl.pins.sramNext y.sram c.junk,
      if c.m.dataValid then some (.write base (ws ++ [(c.m.dataByteEn, c.m.data)]))
      else some (.write base ws), y.spec⟩ := by
  have hnull : (slaveS y.ctrl).resp = .null := resp_null (by simp [hs])
  refine next_of_null hnull (by simp only [SRamCtrl.next, hs]) rfl ?_
  simp only [pendNext_of_write h.pend hnull, h.lt, true_and]

theorem Receiving.step_of_wait (hvalid : c.m.dataValid = false) : Step cfg y c := by
  have hnext := h.next_eq (c := c) hs
  have hstay : (sWriteRec cfg y.ctrl c.m).stateReg = .sWriteRec ∧
      (sWriteRec cfg y.ctrl c.m).wordCountReg = y.ctrl.wordCountReg := by
    simp only [sWriteRec, hvalid, Bool.false_eq_true, if_false]
    exact ⟨hs, rfl⟩
  obtain ⟨hbuf, haddr, htrans, hquiet, hstrobe⟩ := sWriteRec_fields cfg y.ctrl c.m
  refine .of_next hnext (.writeRec base ws hstay.1 ⟨⟨by simp [hvalid], h.inside, fun j hj => ?_⟩,
    h.pos, h.lt, haddr.trans h.mAddrReg, htrans.trans h.transCountReg,
    hstay.2.trans h.wordCountReg, ?_, h.sram_next⟩) ?_
  · rw [hbuf, h.wordCountReg, receive_of_lt hj]
    exact h.wrBufferReg j hj
  · by_cases hlast : y.ctrl.wordCountReg = cfg.ocpBurstLen - 1
    · right
      rw [hstrobe hlast, h.mAddrReg, h.first]
    · exact Or.inl (hquiet hlast)
  · have hidle : working y c = [] := by simp [working, hs, hvalid]
    simp [hidle, remaining, hstay, hs, htrans]

variable (hvalid : c.m.dataValid = true)
include hvalid

theorem Receiving.buffered_next :
    Buffered cfg (y.next cfg c) base (ws ++ [(c.m.dataByteEn, c.m.data)]) := by
  rw [h.next_eq hs]
  refine ⟨if_pos hvalid, h.inside, ?_⟩
  rw [(sWriteRec_fields cfg y.ctrl c.m).1, h.wordCountReg]
  exact receive_concat h.wrBufferReg c.m

theorem Receiving.step_of_word (hmore : ws.length ≠ cfg.ocpBurstLen - 1) : Step cfg y c := by
  have hnext := h.next_eq (c := c) hs
  have hbuffered := h.buffered_next (c := c) hs hvalid
  rw [hnext] at hbuffered
  have hlt := h.lt
  have hgo : (sWriteRec cfg y.ctrl c.m).stateReg = .sWriteRec ∧
      (sWriteRec cfg y.ctrl c.m).wordCountReg = ws.length + 1 := by
    simp only [sWriteRec, hvalid, if_true, h.wordCountReg, if_neg hmore]
    exact ⟨hs, wrap_of_lt (by omega)⟩
  obtain ⟨-, haddr, htrans, hquiet, -⟩ := sWriteRec_fields cfg y.ctrl c.m
  refine .of_next hnext (.writeRec base _ hgo.1 ⟨hbuffered, ?_, ?_, haddr.trans h.mAddrReg,
    htrans.trans h.transCountReg, ?_, Or.inl (hquiet (by rw [h.wordCountReg]; exact hmore)), ?_⟩) ?_
  · rw [List.length_append, List.length_singleton]
    omega
  · rw [List.length_append, List.length_singleton]
    omega
  · rw [List.length_append, List.length_singleton]
    exact hgo.2
  · rw [trans_append (Nat.mul_pos Nat.two_pos h.pos)]
    exact h.sram_next
  · have hone : working y c = [()] := by simp [working, hvalid]
    simp only [hone, remaining, hgo, hs, h.wordCountReg, htrans, List.length_singleton]
    omega

theorem Receiving.step_of_last (hlast : ws.length = cfg.ocpBurstLen - 1)
    (hwait : 1 ≤ cfg.writeWaitCycles) : Step cfg y c := by
  have hnext := h.next_eq (c := c) hs
  have hbuffered := h.buffered_next (c := c) hs hvalid
  rw [hnext] at hbuffered
  have hgo : (sWriteRec cfg y.ctrl c.m).stateReg = .sWriteExe ∧
      (sWriteRec cfg y.ctrl c.m).wordCountReg = 0 ∧
      (sWriteRec cfg y.ctrl c.m).waitCountReg = 1 := by
    simp [sWriteRec, hvalid, h.wordCountReg, hlast]
  obtain ⟨-, haddr, htrans, -, hstrobe⟩ := sWriteRec_fields cfg y.ctrl c.m
  have hfirst : trans (ws ++ [(c.m.dataByteEn, c.m.data)]) 0 = trans ws 0 :=
    trans_append (Nat.mul_pos Nat.two_pos h.pos) _
  have hlt := h.lt
  have hlen : TRANSPERCMD cfg = 2 * cfg.ocpBurstLen := rfl
  refine .of_next hnext (.writeExe base _ 0 hgo.1 ⟨hbuffered, ?_, by omega, haddr.trans h.mAddrReg,
    htrans.trans h.transCountReg, hgo.2.1⟩ ?_ ?_) ?_
  · rw [List.length_append, List.length_singleton]
    omega
  · rw [hstrobe (h.wordCountReg.trans hlast), h.mAddrReg, h.first, hfirst, Nat.add_zero]
  · rw [sent, sent, applied, applied, applied, hfirst]
    exact h.sram_next
  · have hone : working y c = [()] := by simp [working, hvalid]
    simp only [hone, remaining, hgo, hs, h.wordCountReg, htrans, List.length_singleton]
    omega

end Receive

/-- Writing a halfword again changes nothing. -/
theorem sram_of_strobe (hpins : y.ctrl.pins = strobe (2 * base + t) (trans ws t))
    (hsram : y.sram = y.sent base ws t ∨ y.sram = y.sent base ws (t + 1)) :
    y.ctrl.pins.sramNext y.sram c.junk = y.sent base ws (t + 1) := by
  rw [hpins, sramNext_strobe]
  rcases hsram with hold | hnew
  · rw [hold]
    rfl
  · rw [hnew]
    exact writeHalf_self _ _ _

theorem Sending.next_eq (h : Sending cfg y base ws t) {s : State}
    (hne : y.ctrl.stateReg ≠ .sReadRet ∧ y.ctrl.stateReg ≠ .sWriteRet)
    (hctrl : SRamCtrl.next cfg y.ctrl c.m (y.ctrl.pins.bus y.sram c.junk) = s)
    (hsram : y.ctrl.pins.sramNext y.sram c.junk = y.sent base ws (t + 1)) :
    y.next cfg c = ⟨s, y.sent base ws (t + 1), some (.write base ws), y.spec⟩ := by
  have hnull := resp_null hne
  exact next_of_null hnull hctrl hsram
    ((pendNext_of_write h.pend hnull).trans (if_neg (by simp [h.full])))

theorem Sending.entry (h : Sending cfg y base ws t) {k : Nat} (hk : k < TRANSPERCMD cfg) :
    y.ctrl.wrBufferReg k = trans ws k :=
  h.wrBufferReg k (by rw [h.full]; exact hk)

theorem Sending.step_of_exe (h : Sending cfg y base ws t) (hs : y.ctrl.stateReg = .sWriteExe)
    (hpins : y.ctrl.pins = strobe (2 * base + t) (trans ws t))
    (hsram : y.sram = y.sent base ws t ∨ y.sram = y.sent base ws (t + 1)) : Step cfg y c := by
  have hnext := h.next_eq (c := c) (s := sWriteExe cfg y.ctrl) (by simp [hs])
    (by simp only [SRamCtrl.next, hs]) (sram_of_strobe hpins hsram)
  have hwork := working_of_stateReg (c := c) (y := y) (by simp [hs])
  by_cases hlong : y.ctrl.waitCountReg < cfg.writeWaitCycles
  · have hexe : sWriteExe cfg y.ctrl =
        { defaults y.ctrl with
          waitCountReg := y.ctrl.waitCountReg + 1
          pins := strobe (2 * base + t) (trans ws t) } := by
      have hcount : wrap (cfg.writeWaitCycles + 1) (y.ctrl.waitCountReg + 1) =
          y.ctrl.waitCountReg + 1 := wrap_of_lt (by omega)
      simp only [sWriteExe, if_pos hlong, hcount, h.transCountReg, h.entry h.lt, defaultPins,
        h.mAddrReg]
      rfl
    rw [hexe] at hnext
    refine .of_next hnext (.writeExe base ws t hs { h with pend := rfl } rfl (Or.inr rfl)) ?_
    simp only [remaining, defaults, hs, hwork, List.length_singleton]
    omega
  · have hexe : sWriteExe cfg y.ctrl =
        { defaults y.ctrl with
          pins := ⟨2 * base + t, true, (trans ws t).data, false, true, false, true, true⟩
          stateReg := .sWriteExe2 } := by
      simp only [sWriteExe, if_neg hlong, h.transCountReg, h.entry h.lt, defaultPins, h.mAddrReg]
    rw [hexe] at hnext
    refine .of_next hnext (.writeExe2 base ws t rfl { h with pend := rfl } rfl rfl rfl) ?_
    simp only [remaining, defaults, hs, hwork, List.length_singleton]
    omega

theorem Sending.step_of_exe2 (h : Sending cfg y base ws t) (hs : y.ctrl.stateReg = .sWriteExe2)
    (hnlb : y.ctrl.pins.nlbReg = true) (hnub : y.ctrl.pins.nubReg = true)
    (hsram : y.sram = y.sent base ws (t + 1)) (hwait : 1 ≤ cfg.writeWaitCycles) :
    Step cfg y c := by
  have hnext := h.next_eq (c := c) (s := sWriteExe2 cfg y.ctrl) (by simp [hs])
    (by simp only [SRamCtrl.next, hs]) ((sramNext_of_lanes hnlb hnub y.sram c.junk).trans hsram)
  have hwork := working_of_stateReg (c := c) (y := y) (by simp [hs])
  have hlt := h.lt
  have hlen : TRANSPERCMD cfg = 2 * cfg.ocpBurstLen := rfl
  by_cases hmore : t < TRANSPERCMD cfg - 1
  · have hexe : sWriteExe2 cfg y.ctrl =
        { defaults y.ctrl with
          pins := strobe (2 * base + (t + 1)) (trans ws (t + 1))
          mAddrReg := 2 * base + (t + 1)
          transCountReg := t + 1
          waitCountReg := 1
          stateReg := .sWriteExe } := by
      have hcount : wrap (TRANSPERCMD cfg) (t + 1) = t + 1 := wrap_of_lt (by omega)
      have haddr : sramAddr cfg (2 * base + t + 1) = 2 * base + t + 1 :=
        sramAddr_of_inside h.inside (by omega)
      simp only [sWriteExe2, h.transCountReg, if_pos hmore, hcount, h.entry (k := t + 1) (by omega),
        h.mAddrReg, haddr, defaultPins]
      rfl
    rw [hexe] at hnext
    refine .of_next hnext (.writeExe base ws (t + 1) rfl ⟨⟨rfl, h.inside, h.wrBufferReg⟩, h.full,
      by omega, rfl, rfl, h.wordCountReg⟩ rfl (Or.inl rfl)) ?_
    have hleft : (TRANSPERCMD cfg - t - 1) * (cfg.writeWaitCycles + 1) =
        (TRANSPERCMD cfg - (t + 1) - 1) * (cfg.writeWaitCycles + 1) +
          (cfg.writeWaitCycles + 1) := by
      rw [← Nat.succ_mul]
      congr 1
      omega
    simp only [remaining, hs, hwork, h.transCountReg, List.length_singleton]
    omega
  · have hlast : t = TRANSPERCMD cfg - 1 := by omega
    have hexe : sWriteExe2 cfg y.ctrl =
        { defaults y.ctrl with stateReg := .sWriteRet, transCountReg := 0 } := by
      simp only [sWriteExe2, h.transCountReg, if_neg hmore, if_pos hlast]
    rw [hexe] at hnext
    refine .of_next hnext (.writeRet base ws rfl ⟨rfl, h.inside, h.wrBufferReg⟩ h.full rfl
      h.wordCountReg rfl ?_) ?_
    · have htotal : t + 1 = 2 * ws.length := by
        rw [h.full]
        omega
      simp only [sent, htotal, applied_two_mul le_rfl, List.take_length]
    · simp only [remaining, hs, hwork, List.length_singleton]
      omega

theorem step_of_writeRet (hs : y.ctrl.stateReg = .sWriteRet) (h : Buffered cfg y base ws)
    (htrans : y.ctrl.transCountReg = 0) (hword : y.ctrl.wordCountReg = 0)
    (hnwe : y.ctrl.pins.nweReg = true) (hsram : y.sram = halves (writeAll y.spec base ws)) :
    Step cfg y c := by
  have hdva : (slaveS y.ctrl).resp = .dva := by simp [slaveS, hs]
  have hnext : y.next cfg c = ⟨sWriteRet y.ctrl, y.sram, none, writeAll y.spec base ws⟩ := by
    simp only [next, SRamCtrl.next, hs, sramNext_of_nwe hnwe, pendNext, specNext, h.pend, hdva,
      if_true]
  refine .of_next hnext (.ready rfl rfl htrans hword rfl hsram) ?_
  rw [working_of_stateReg (by simp [hs])]
  simp [remaining, hs, sWriteRet]

theorem step_of_ready (hs : y.ctrl.stateReg = .sReady) (hpend : y.pend = none)
    (htrans : y.ctrl.transCountReg = 0) (hword : y.ctrl.wordCountReg = 0)
    (hnwe : y.ctrl.pins.nweReg = true) (hsram : y.sram = halves y.spec) (hlegal : Legal cfg y c)
    (hlen : 2 ≤ cfg.ocpBurstLen) : Step cfg y c := by
  have hnull : (slaveS y.ctrl).resp = .null := resp_null (by simp [hs])
  have hnext : ∀ {p}, y.pendNext cfg c = p →
      y.next cfg c = ⟨sReady cfg y.ctrl c.m, y.sram, p, y.spec⟩ :=
    next_of_null hnull (by simp only [SRamCtrl.next, hs]) (sramNext_of_nwe hnwe _ _)
  refine ⟨?_, fun hne => absurd hpend hne⟩
  have hN : TRANSPERCMD cfg = 2 * cfg.ocpBurstLen := rfl
  have hplace : c.m.cmd ≠ .idle → sramAddr cfg (c.m.addr / 2) = 2 * (c.m.addr / 4) ∧
      2 * (c.m.addr / 4) + TRANSPERCMD cfg ≤ 2 ^ cfg.sramAddrWidth := by
    intro hne
    have hdvd : 4 ∣ c.m.addr := (Nat.dvd_mul_right 4 _).trans (hlegal.aligned hne)
    have hinside := hlegal.inside hne
    have hhalf : c.m.addr / 2 = 2 * (c.m.addr / 4) := by omega
    have hfits : 2 * (c.m.addr / 4) + TRANSPERCMD cfg ≤ 2 ^ cfg.sramAddrWidth := by omega
    exact ⟨by rw [hhalf]; exact sramAddr_of_inside hfits (by omega), hfits⟩
  cases hcmd : c.m.cmd with
  | idle =>
    have hctrl : sReady cfg y.ctrl c.m =
        { defaults y.ctrl with wrBufferReg := receive y.ctrl.wrBufferReg 0 c.m } := by
      simp only [sReady, hcmd]
    rw [hnext (p := none) (by simp only [pendNext, hpend, hcmd]), hctrl]
    exact .ready hs rfl htrans hword rfl hsram
  | rd =>
    obtain ⟨haddr, hinside⟩ := hplace (by simp [hcmd])
    have hctrl : sReady cfg y.ctrl c.m =
        { defaults y.ctrl with
          wrBufferReg := receive y.ctrl.wrBufferReg 0 c.m
          mAddrReg := 2 * (c.m.addr / 4)
          stateReg := .sReadExe } := by
      simp only [sReady, hcmd, haddr]
    rw [hnext (p := some (.read (c.m.addr / 4) 0)) (by simp only [pendNext, hpend, hcmd]), hctrl]
    exact .readExe (c.m.addr / 4) 0 rfl ⟨rfl, hinside, by omega, rfl, htrans, hword,
      fun j hj => absurd hj (Nat.not_lt_zero j), hsram, rfl⟩
  | wr =>
    obtain ⟨haddr, hinside⟩ := hplace (by simp [hcmd])
    have hctrl : sReady cfg y.ctrl c.m =
        { defaults y.ctrl with
          wrBufferReg := receive y.ctrl.wrBufferReg 0 c.m
          mAddrReg := 2 * (c.m.addr / 4)
          wordCountReg := 1
          stateReg := .sWriteRec } := by
      simp only [sReady, hcmd, haddr]
    have hempty : ∀ j < 2 * ([] : List (ByteEn × Word)).length,
        y.ctrl.wrBufferReg j = trans [] j := fun j hj => absurd hj (Nat.not_lt_zero j)
    rw [hnext (p := some (.write (c.m.addr / 4) [(c.m.dataByteEn, c.m.data)]))
      (by simp only [pendNext, hpend, hcmd]), hctrl]
    exact .writeRec (c.m.addr / 4) [(c.m.dataByteEn, c.m.data)] rfl
      ⟨⟨rfl, hinside, receive_concat hempty c.m⟩, Nat.one_pos, hlen, rfl, htrans, rfl,
        Or.inl rfl, Or.inl hsram⟩

theorem Stage.step (h : Stage cfg y) (hlegal : Legal cfg y c) (hlen : 2 ≤ cfg.ocpBurstLen)
    (hwait : 1 ≤ cfg.writeWaitCycles) : Step cfg y c := by
  cases h with
  | ready hs hpend htrans hword hnwe hsram =>
    exact step_of_ready hs hpend htrans hword hnwe hsram hlegal hlen
  | readExe base t hs h => exact h.step_of_exe hs
  | readExe2 base t hs h hshows => exact h.step_of_exe2 hs hshows
  | readRet base done hs h => exact h.step hs
  | writeRec base ws hs h =>
    cases hvalid : c.m.dataValid with
    | false => exact h.step_of_wait hs hvalid
    | true =>
      by_cases hlast : ws.length = cfg.ocpBurstLen - 1
      · exact h.step_of_last hs hvalid hlast hwait
      · exact h.step_of_word hs hvalid hlast
  | writeExe base ws t hs h hpins hsram => exact h.step_of_exe hs hpins hsram
  | writeExe2 base ws t hs h hnlb hnub hsram => exact h.step_of_exe2 hs hnlb hnub hsram hwait
  | writeRet base ws hs h _ htrans hword hnwe hsram =>
    exact step_of_writeRet hs h htrans hword hnwe hsram

theorem stage_init {s : State} (hs : IsReset s) (mem : Memory) : Stage cfg (init s mem) :=
  .ready hs.stateReg rfl hs.transCountReg hs.wordCountReg hs.nweReg rfl

/-! ### What a cycle shows -/

theorem byteOk_of_eq (h : y.sram = halves y.spec) (a : Nat) (l : Fin 2) : y.ByteOk a l :=
  Or.inl (by rw [h])

theorem byteOk_of_sent (hpend : y.pend = some (.write base ws)) (h : y.sram = y.sent base ws t)
    (a : Nat) (l : Fin 2) : y.ByteOk a l := by
  unfold ByteOk
  rw [h]
  rcases applied_byte (halves y.spec) base ws t a l with hold | ⟨k, be, w, hget, hdiv, hen, hnew⟩
  · exact Or.inl hold
  · exact Or.inr ⟨base, ws, k, be, w, hpend, hget, hdiv, hen, hnew⟩

/-- The SRAM in the middle of a transaction. -/
theorem Stage.bytes (h : Stage cfg y) (a : Nat) (l : Fin 2) : y.ByteOk a l := by
  cases h with
  | ready _ _ _ _ _ hsram => exact byteOk_of_eq hsram a l
  | readExe _ _ _ h | readExe2 _ _ _ h _ | readRet _ _ _ h => exact byteOk_of_eq h.sram a l
  | writeRec base ws _ h =>
    rcases h.sram with hold | hnew
    · exact byteOk_of_eq hold a l
    · exact byteOk_of_sent (t := 1) h.pend hnew a l
  | writeExe base ws t _ h _ hsram =>
    rcases hsram with hold | hnew
    · exact byteOk_of_sent h.pend hold a l
    · exact byteOk_of_sent h.pend hnew a l
  | writeExe2 base ws t _ h _ _ hsram => exact byteOk_of_sent h.pend hsram a l
  | writeRet base ws _ h hfull _ _ _ hsram =>
    have hsent : y.sram = y.sent base ws (2 * ws.length) := by
      rw [hsram, sent, applied_two_mul le_rfl, List.take_length]
    exact byteOk_of_sent h.pend hsent a l

theorem Returning.data (h : Returning cfg y base done) :
    (slaveS y.ctrl).data = y.spec (base + done) := by
  have hlt := h.lt
  have hlen : TRANSPERCMD cfg = 2 * cfg.ocpBurstLen := rfl
  have hhalf : (fun i : Fin 2 => y.ctrl.rdBufferReg (2 * y.ctrl.wordCountReg + i)) =
      part (y.spec (base + done)) := by
    funext i
    have haddr : 2 * base + (2 * done + i.val) = 2 * (base + done) + i.val := by omega
    rw [h.wordCountReg, h.rdBufferReg _ (by omega), haddr, halves_add]
  rw [slaveS, hhalf, join_part]

/-- While no response is given, a transaction is not at its end. -/
theorem isMemory_of_null (hnull : (slaveS y.ctrl).resp = .null) (hbytes : ∀ a l, y.ByteOk a l)
    (hsram : (∀ base ws, y.pend ≠ some (.write base ws)) → y.sram = halves y.spec) :
    IsMemory cfg y := by
  constructor
  · intro hpend
    exact ⟨hnull, hsram fun _ _ => by simp [hpend]⟩
  · intro base done hpend
    refine ⟨hsram fun _ _ => by simp [hpend], by simp [hnull], fun hdva => ?_⟩
    rw [hnull] at hdva
    cases hdva
  · intro base ws hpend
    refine ⟨by simp [hnull], fun hdva => ?_⟩
    rw [hnull] at hdva
    cases hdva
  · exact hbytes

theorem Stage.isMemory (h : Stage cfg y) : IsMemory cfg y := by
  have hbytes := h.bytes
  cases h with
  | ready hs _ _ _ _ hsram =>
    exact isMemory_of_null (resp_null (by simp [hs])) hbytes fun _ => hsram
  | readExe _ _ hs h | readExe2 _ _ hs h _ =>
    exact isMemory_of_null (resp_null (by simp [hs])) hbytes fun _ => h.sram
  | readRet base done hs h =>
    have hdva : (slaveS y.ctrl).resp = .dva := by simp [slaveS, hs]
    refine ⟨fun hnone => ?_, ?_, ?_, hbytes⟩
    · rw [h.pend] at hnone
      cases hnone
    · intro base' done' hpend
      rw [h.pend] at hpend
      cases hpend
      exact ⟨h.sram, by simp [hdva], fun _ => h.data⟩
    · intro base' ws hpend
      rw [h.pend] at hpend
      cases hpend
  | writeRec base ws hs h | writeExe base ws t hs h _ _ | writeExe2 base ws t hs h _ _ _ =>
    exact isMemory_of_null (resp_null (by simp [hs])) hbytes fun hno =>
      absurd h.pend (hno base ws)
  | writeRet base ws hs h hfull _ _ _ hsram =>
    have hdva : (slaveS y.ctrl).resp = .dva := by simp [slaveS, hs]
    refine ⟨fun hnone => ?_, ?_, ?_, hbytes⟩
    · rw [h.pend] at hnone
      cases hnone
    · intro base' done' hpend
      rw [h.pend] at hpend
      cases hpend
    · intro base' ws' hpend
      rw [h.pend] at hpend
      cases hpend
      exact ⟨by simp [hdva], fun _ => ⟨hfull, hsram⟩⟩

theorem remaining_le (h : Stage cfg y) (hlen : 2 ≤ cfg.ocpBurstLen) :
    remaining cfg y ≤ bound cfg := by
  have hread : 5 * cfg.ocpBurstLen ≤ bound cfg := Nat.le_max_left _ _
  have hwrite : cfg.ocpBurstLen + TRANSPERCMD cfg * (cfg.writeWaitCycles + 1) ≤ bound cfg :=
    Nat.le_max_right _ _
  have hN : TRANSPERCMD cfg = 2 * cfg.ocpBurstLen := rfl
  have hleft : (TRANSPERCMD cfg - y.ctrl.transCountReg - 1) * (cfg.writeWaitCycles + 1) +
      (cfg.writeWaitCycles + 1) ≤ TRANSPERCMD cfg * (cfg.writeWaitCycles + 1) := by
    rw [← Nat.succ_mul]
    exact Nat.mul_le_mul_right _ (by omega)
  unfold remaining
  cases h with
  | ready hs _ _ _ _ _ =>
    rw [hs]
    exact Nat.zero_le _
  | readExe _ _ hs _ | readExe2 _ _ hs _ _ | readRet _ _ hs _ | writeExe _ _ _ hs _ _ _
  | writeExe2 _ _ _ hs _ _ _ _ | writeRet _ _ hs _ _ _ _ _ _ =>
    rw [hs]
    dsimp only
    omega
  | writeRec base ws hs h =>
    have hpos := h.pos
    rw [hs, h.wordCountReg]
    dsimp only
    omega

/-! ### Every run -/

/-- **The controller with its SRAM is a memory.** -/
theorem isMemory_of_legal (hlen : 2 ≤ cfg.ocpBurstLen) (hwait : 1 ≤ cfg.writeWaitCycles)
    {s : State} (hs : IsReset s) (mem : Memory) {cs : List Cycle}
    (hrun : Along (next cfg) (Legal cfg) (init s mem) cs) :
    Along (next cfg) (fun y _ => IsMemory cfg y) (init s mem) cs ∧ Ends cfg (init s mem) cs := by
  have hkeep : ∀ y c, Stage cfg y → Legal cfg y c → Stage cfg (y.next cfg c) :=
    fun _ _ h hl => (h.step hl hlen hwait).stage
  constructor
  · exact (hrun.with_inv hkeep (stage_init hs mem)).mono fun _ _ h => h.1.isMemory
  · rintro p q rfl hpend
    obtain ⟨hp, hq⟩ := (along_append _ _ _).mp hrun
    have hstage := inv_run hkeep (stage_init hs mem) hp
    have hle : (emitted (next cfg) working (run (next cfg) (init s mem) p) q).length + _ ≤ _ :=
      length_emitted_add_rank_le (remaining cfg)
        (fun y c h (hl : Legal cfg y c ∧ y.pend ≠ none) => hkeep y c h hl.1)
        (fun y c h hl => (h.step hl.1 hlen hwait).progress hl.2) hstage (hq.and hpend)
    have hmax := remaining_le hstage hlen
    omega

end Steps

/-! ### A run -/

instance (cfg : Config) (y : Sys) (c : Cycle) : Decidable (Legal cfg y c) :=
  decidable_of_iff ((c.m.cmd ≠ .idle → y.pend.isNone) ∧ _ ∧ _)
    ⟨fun ⟨a, b, d⟩ => ⟨fun hne => Option.isNone_iff_eq_none.mp (a hne), b, d⟩,
      fun ⟨a, b, d⟩ => ⟨fun hne => Option.isNone_iff_eq_none.mpr (a hne), b, d⟩⟩

/-- Bursts of two words, an SRAM of eight halfwords, and strobes of two cycles. -/
def small : Config := ⟨2, 3, 2⟩

def powerUp : State where
  stateReg := .sReady
  mAddrReg := 0
  rdBufferReg := fun _ _ => 0
  wrBufferReg := fun _ => ⟨fun _ => false, fun _ => 0⟩
  transCountReg := 0
  wordCountReg := 0
  waitCountReg := 0
  pins := ⟨0, false, fun _ => 0, true, true, true, true, true⟩

def master (cmd : OcpCmd) (b : Byte) (valid : Bool) (be : ByteEn) : Cycle :=
  ⟨⟨cmd, 8, fun _ => b, valid, be⟩, fun _ => 255⟩

/-- The first byte of word 2 and all of word 3 are written, with a gap between the words, and
    read. -/
def writeRead : List Cycle :=
  [master .wr 8 true ![true, false, false, false], master .idle 0 false noBytes,
    master .idle 9 true allBytes] ++
    List.replicate 13 (master .idle 0 false noBytes) ++ [master .rd 0 false noBytes] ++
    List.replicate 10 (master .idle 0 false noBytes)

def responses (y : Sys) (_ : Cycle) : List (List Byte) :=
  if (slaveS y.ctrl).resp = .dva then [List.ofFn (slaveS y.ctrl).data] else []

theorem writeRead_isMemory :
    ((emitted (next small) responses (init powerUp numbered) writeRead).drop 1 =
        [[8, 2, 2, 2], [9, 9, 9, 9]]) ∧
      Along (next small) (fun y _ => IsMemory small y) (init powerUp numbered) writeRead ∧
      Ends small (init powerUp numbered) writeRead :=
  ⟨by decide +kernel, isMemory_of_legal (by decide) (by decide) ⟨rfl, rfl, rfl, rfl⟩ numbered
    (by decide +kernel)⟩

end Sys

end Patmos.SRamCtrl
