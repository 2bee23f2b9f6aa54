import Patmos.Uart

/-!
# Frames on the line

Where the transmitter and the receiver stand in a frame.  A bit lasts `divider + 1` cycles.  The
transmitter is in cycle `p` of bit `k`, counted from 0; the receiver has taken `n` samples and takes
the next one when its count `r` of cycles is `divider + 1`.
-/

namespace Patmos.Uart

open Ocp

variable {divider depth : Nat}

/-! ### The levels of a frame -/

/-- The line before the frame, in the start bit, in the eight bits of a byte and in the stop bit. -/
def level (b : Byte) : Nat → Bool
  | 0 => true
  | 1 => false
  | i + 2 => if i < 8 then b.getLsbD i else true

theorem level_data (b : Byte) {i : Nat} (h : i < 8) : level b (i + 2) = b.getLsbD i := if_pos h

/-- The frame as it is loaded when the line is idle. -/
theorem getLsbD_frame (b : Byte) {j : Nat} (h : j < 10) :
    (1#1 ++ b ++ 0#1 : BitVec 10).getLsbD j = level b (j + 1) := by
  rw [BitVec.getLsbD_append, BitVec.getLsbD_append]
  match j, h with
  | 0, _ => rfl
  | j + 1, h =>
    by_cases hj : j < 8
    · simp [level_data b hj, hj]
    · have h8 : j = 8 := by omega
      subst h8
      rfl

/-- The frame without the start bit, as it is loaded after a stop bit. -/
theorem getLsbD_next_frame (b : Byte) {j : Nat} (h : j ≤ 8) :
    ((1#1 ++ b).setWidth 10 : BitVec 10).getLsbD j = level b (j + 2) := by
  rw [BitVec.getLsbD_setWidth, BitVec.getLsbD_append]
  by_cases hj : j < 8
  · have h10 : j < 10 := by omega
    simp [level_data b hj, hj, h10]
  · have h8 : j = 8 := by omega
    subst h8
    rfl

/-! ### The transmitter -/

/-- Where the transmitter stands. -/
inductive TxPhase where
  | idle
  /-- Byte `b` waits for the tick. -/
  | loaded (b : Byte)
  /-- Cycle `p` of bit `k`. -/
  | bit (b : Byte) (k p : Nat)

/-- The level of the line `d` cycles before, at most three. -/
def TxPhase.seen : TxPhase → Nat → Bool
  | .idle, _ => true
  | .loaded _, _ => true
  | .bit b k p, d => level b (if d ≤ p then k + 1 else k)

/-- The bytes that are taken from the queue. -/
def TxPhase.taken (divider : Nat) : TxPhase → List Byte → List Byte
  | .idle, q => q.take 1
  | .loaded _, _ => []
  | .bit _ k p, q => if p = divider ∧ k = 9 then q.take 1 else []

/-- What follows a stop bit. -/
def TxPhase.follow : List Byte → TxPhase
  | [] => .idle
  | b :: _ => .bit b 0 0

def TxPhase.next (divider : Nat) (tick : Bool) : TxPhase → List Byte → TxPhase
  | .idle, [] => .idle
  | .idle, b :: _ => .loaded b
  | .loaded b, _ => if tick then .bit b 0 0 else .loaded b
  | .bit b k p, q =>
    if p ≠ divider then .bit b k (p + 1)
    else if k ≠ 9 then .bit b (k + 1) 0
    else TxPhase.follow q

section

variable {b : Byte} {k p : Nat} {q : List Byte}

theorem TxPhase.step_of_wait (hp : p ≠ divider) :
    (∀ tick, (bit b k p).next divider tick q = .bit b k (p + 1)) ∧
    (bit b k p).taken divider q = [] :=
  ⟨fun _ => if_pos hp, if_neg fun h => hp h.1⟩

theorem TxPhase.step_of_bit (hp : p = divider) (hk : k ≠ 9) :
    (∀ tick, (bit b k p).next divider tick q = .bit b (k + 1) 0) ∧
    (bit b k p).taken divider q = [] :=
  ⟨fun _ => (if_neg (not_not.mpr hp)).trans (if_pos hk), if_neg fun h => hk h.2⟩

theorem TxPhase.step_of_stop (hp : p = divider) :
    (∀ tick, (bit b 9 p).next divider tick q = .follow q) ∧
    (bit b 9 p).taken divider q = q.take 1 :=
  ⟨fun _ => (if_neg (not_not.mpr hp)).trans (if_neg (not_not.mpr rfl)), if_pos ⟨hp, rfl⟩⟩

end

theorem TxPhase.seen_next (hfive : 5 ≤ divider) {ph : TxPhase} {tick : Bool} {q : List Byte}
    {d : Nat}
    (hd : d ≤ 2) (hlast : ∀ b k p, ph = .bit b k p → k ≤ 9) :
    (ph.next divider tick q).seen (d + 1) = ph.seen d := by
  cases ph with
  | idle => cases q <;> rfl
  | loaded b => cases tick <;> rfl
  | bit b k p =>
    have hk := hlast b k p rfl
    by_cases hp : p = divider
    · subst hp
      have hseen : d ≤ p := by omega
      by_cases h9 : k = 9
      · subst h9
        cases q <;> simp [TxPhase.next, TxPhase.follow, TxPhase.seen, hseen, level]
      · simp [TxPhase.next, TxPhase.seen, h9, hseen]
    · simp [TxPhase.next, TxPhase.seen, hp]

/-- The registers of the transmitter before a frame, in state `f`. -/
structure Tx.Before (divider : Nat) (f : TxState) (x : Tx) : Prop where
  state : x.txState = f
  counter : x.txCounter = 0
  line : x.txReg = true
  baud : x.txBaudCounter ≤ divider
  tick : x.txBaudTick = true → x.txBaudCounter = 0

/-- The registers of the transmitter in cycle `p` of bit `k`. -/
structure Tx.InBit (divider : Nat) (b : Byte) (k p : Nat) (x : Tx) : Prop where
  state : x.txState = .send
  counter : x.txCounter = k + 1
  line : x.txReg = level b (k + 1)
  buff : ∀ j, j + k ≤ 8 → x.txBuff.getLsbD j = level b (j + k + 2)
  last : k ≤ 9
  inside : p ≤ divider
  baud : x.txBaudCounter = if p = divider then 0 else p + 1
  tick : x.txBaudTick = decide (p = divider)

/-- The registers of the transmitter in a phase. -/
def Tx.At (divider : Nat) : TxPhase → Tx → Prop
  | .idle, x => x.Before divider .idle
  | .loaded b, x => x.Before divider .send ∧ x.txBuff = 1#1 ++ b ++ 0#1
  | .bit b k p, x => x.InBit divider b k p

theorem Tx.at_reset : Tx.At divider .idle Tx.reset :=
  ⟨rfl, rfl, rfl, Nat.zero_le divider, fun _ => rfl⟩

/-- The line shows the phase. -/
theorem Tx.At.line_eq {ph : TxPhase} {x : Tx} (h : Tx.At divider ph x) : x.txReg = ph.seen 0 := by
  cases ph with
  | idle => exact h.line
  | loaded b => exact h.1.line
  | bit b k p => exact h.line

section Shift

variable {x : Tx} (hstate : x.txState = .send)
include hstate

theorem Tx.shift_of_wait (htick : x.txBaudTick = false) : x.shift = x := by
  rw [Tx.shift, hstate, htick]
  rfl

theorem Tx.shift_of_tick (htick : x.txBaudTick = true) (hcounter : x.txCounter < 10) :
    x.shift = { x with
      txBuff := x.txBuff >>> 1, txReg := x.txBuff.getLsbD 0, txCounter := x.txCounter + 1 } := by
  rw [Tx.shift, hstate, htick]
  simp only [if_true]
  rw [if_neg hcounter.ne, Nat.mod_eq_of_lt (by omega)]

theorem Tx.shift_of_last (htick : x.txBaudTick = true) (hcounter : x.txCounter = 10)
    (hq : x.txQueue = []) :
    x.shift = { x with
      txBuff := x.txBuff >>> 1, txReg := true, txCounter := 0, txState := .idle } := by
  rw [Tx.shift, hstate, htick, hcounter, hq]
  rfl

theorem Tx.shift_of_follow {b : Byte} {q : List Byte} (htick : x.txBaudTick = true)
    (hcounter : x.txCounter = 10) (hq : x.txQueue = b :: q) :
    x.shift = { x with txBuff := (1#1 ++ b).setWidth 10, txReg := false, txCounter := 1 } := by
  rw [Tx.shift, hstate, htick, hcounter, hq]
  rfl

end Shift

theorem baudNext_le (hwidth : divider < 2 ^ MemBlock.log2Up divider) {counter : Nat}
    (h : counter ≤ divider) :
    (baudNext divider counter).1 ≤ divider ∧
      ((baudNext divider counter).2 = true → (baudNext divider counter).1 = 0) := by
  rcases Nat.lt_or_eq_of_le h with hlt | rfl
  · rw [baudNext_of_ne hwidth hlt]
    exact ⟨hlt, fun htick => absurd htick Bool.false_ne_true⟩
  · rw [baudNext_self]
    exact ⟨Nat.zero_le _, fun _ => rfl⟩

theorem baudNext_bit (hwidth : divider < 2 ^ MemBlock.log2Up divider) {p : Nat} (h : p < divider) :
    baudNext divider (p + 1) =
      (if p + 1 = divider then 0 else p + 2, decide (p + 1 = divider)) := by
  by_cases hlast : p + 1 = divider
  · rw [hlast, baudNext_self, if_pos rfl, decide_eq_true rfl]
  · rw [baudNext_of_ne hwidth (by omega), if_neg hlast, decide_eq_false hlast]

/-- The first cycle of a bit follows the tick. -/
theorem baudNext_tick (hwidth : divider < 2 ^ MemBlock.log2Up divider) (hfive : 5 ≤ divider) :
    baudNext divider 0 = (if 0 = divider then 0 else 0 + 1, decide (0 = divider)) := by
  have hne : ¬ 0 = divider := by omega
  rw [baudNext_of_ne hwidth (by omega), if_neg hne, decide_eq_false hne]

section Step

variable (hwidth : divider < 2 ^ MemBlock.log2Up divider) (hfive : 5 ≤ divider)
include hwidth

theorem Tx.Before.next_of_idle {x : Tx} (h : x.Before divider .idle) (enq : Option Byte) :
    Tx.At divider (TxPhase.next divider x.txBaudTick .idle x.txQueue)
      (x.next divider depth enq) := by
  obtain ⟨hbaud, htick⟩ := baudNext_le hwidth h.baud
  rw [Tx.next, Tx.shift, h.state]
  cases x.txQueue with
  | nil => exact ⟨h.state, h.counter, h.line, hbaud, htick⟩
  | cons b q => exact ⟨⟨rfl, h.counter, h.line, hbaud, htick⟩, rfl⟩

include hfive

theorem Tx.Before.next_of_loaded {x : Tx} {b : Byte} (h : x.Before divider .send)
    (buff : x.txBuff = 1#1 ++ b ++ 0#1) (enq : Option Byte) :
    Tx.At divider (TxPhase.next divider x.txBaudTick (.loaded b) x.txQueue)
      (x.next divider depth enq) := by
  cases hx : x.txBaudTick with
  | false =>
    obtain ⟨hbaud, htick⟩ := baudNext_le hwidth h.baud
    rw [Tx.next, Tx.shift_of_wait h.state hx]
    exact ⟨⟨h.state, h.counter, h.line, hbaud, htick⟩, buff⟩
  | true =>
    have hcounter := h.counter
    rw [Tx.next, Tx.shift_of_tick h.state hx (by omega), h.tick hx, baudNext_tick hwidth hfive]
    refine ⟨h.state, congrArg (· + 1) hcounter, ?_, fun j hj => ?_, Nat.zero_le 9,
      Nat.zero_le divider, rfl, rfl⟩
    · exact (congrArg (BitVec.getLsbD · 0) buff).trans (getLsbD_frame b (by omega))
    · change (x.txBuff >>> 1).getLsbD j = _
      rw [BitVec.getLsbD_ushiftRight, buff, getLsbD_frame b (by omega)]
      congr 1
      omega

/-- A frame goes on, bit after bit, and the next one may follow at once. -/
theorem Tx.InBit.next_of_bit {x : Tx} {b : Byte} {k p : Nat} (h : x.InBit divider b k p)
    (enq : Option Byte) :
    Tx.At divider (TxPhase.next divider x.txBaudTick (.bit b k p) x.txQueue)
      (x.next divider depth enq) := by
  obtain ⟨state, counter, line, buff, last, inside, baud, tick⟩ := h
  by_cases hp : p = divider
  · rw [decide_eq_true hp] at tick
    rw [if_pos hp] at baud
    by_cases h9 : k = 9
    · subst h9
      rw [(TxPhase.step_of_stop hp).1]
      cases hq : x.txQueue with
      | nil =>
        obtain ⟨hbaud, htick⟩ := baudNext_le hwidth (Nat.zero_le divider)
        rw [Tx.next, Tx.shift_of_last state tick counter hq, baud]
        exact ⟨rfl, rfl, rfl, hbaud, htick⟩
      | cons b' q =>
        rw [Tx.next, Tx.shift_of_follow state tick counter hq, baud, baudNext_tick hwidth hfive]
        refine ⟨state, rfl, rfl, fun j hj => ?_, Nat.zero_le 9, Nat.zero_le divider, rfl, rfl⟩
        exact getLsbD_next_frame b' (by omega)
    · rw [(TxPhase.step_of_bit hp h9).1, Tx.next, Tx.shift_of_tick state tick (by omega), baud,
        baudNext_tick hwidth hfive]
      refine ⟨state, congrArg (· + 1) counter, ?_, fun j hj => ?_, by omega,
        Nat.zero_le divider, rfl,
        rfl⟩
      · exact (buff 0 (by omega)).trans (by rw [Nat.zero_add])
      · change (x.txBuff >>> 1).getLsbD j = _
        rw [BitVec.getLsbD_ushiftRight, buff (1 + j) (by omega)]
        congr 1
        omega
  · rw [decide_eq_false hp] at tick
    rw [if_neg hp] at baud
    rw [(TxPhase.step_of_wait hp).1, Tx.next, Tx.shift_of_wait state tick, baud,
      baudNext_bit hwidth (by omega)]
    exact ⟨state, counter, line, buff, last, by omega, rfl, rfl⟩

theorem Tx.At.next {ph : TxPhase} {x : Tx} (h : Tx.At divider ph x) (enq : Option Byte) :
    Tx.At divider (ph.next divider x.txBaudTick x.txQueue) (x.next divider depth enq) := by
  cases ph with
  | idle => exact h.next_of_idle hwidth enq
  | loaded b => exact h.1.next_of_loaded hwidth hfive h.2 enq
  | bit b k p => exact h.next_of_bit hwidth hfive enq

end Step

/-- The queue gives the bytes of the frames. -/
theorem Tx.At.removed_eq {ph : TxPhase} {x : Tx} (h : Tx.At divider ph x) :
    removed x.txQueue x.deqReady = ph.taken divider x.txQueue := by
  cases ph with
  | idle =>
    rw [Tx.deqReady, h.state]
    cases x.txQueue <;> rfl
  | loaded b =>
    rw [Tx.deqReady, h.1.state, h.1.counter]
    cases x.txBaudTick <;> rfl
  | bit b k p =>
    rw [Tx.deqReady, h.state, h.counter, h.tick, TxPhase.taken]
    by_cases hsend : p = divider ∧ k = 9
    · rw [if_pos hsend, hsend.2, decide_eq_true hsend.1]
      cases x.txQueue <;> rfl
    · rw [if_neg hsend, removed, if_neg]
      simp only [Bool.and_eq_true, decide_eq_true_eq, beq_iff_eq, not_and]
      omega

/-! ### The receiver -/

/-- Where the receiver stands. -/
inductive RxPhase where
  | idle
  /-- `n` samples of byte `b` are taken, and `r` cycles have passed since. -/
  | bit (b : Byte) (n r : Nat)

/-- The state of the receiver after `n` samples. -/
def RxState.sampled (n : Nat) : RxState :=
  if n = 0 then .start else if n ≤ 8 then .receiveData else .stopBit

structure Rx.Resting (x : Rx) : Prop where
  state : x.rxState = .idle
  enable : x.rxEnable = false
  tick : x.rxBaudTick = false
  counter : x.rxCounter = 0

/-- The registers of the receiver `r` cycles after sample `n`. -/
structure Rx.InBit (divider : Nat) (b : Byte) (n r : Nat) (x : Rx) : Prop where
  state : x.rxState = RxState.sampled n
  enable : x.rxEnable = true
  last : n ≤ 9
  pos : 1 ≤ r
  inside : r ≤ divider + 1
  baud : x.rxBaudCounter = if r = divider + 1 then 0 else r
  tick : x.rxBaudTick = decide (r = divider + 1)
  counter : x.rxCounter = if n ≤ 8 then n - 1 else 0
  buff : ∀ j, j + 1 < n → x.rxBuff.getLsbD (9 - n + j) = b.getLsbD j

/-- The registers of the receiver in a phase. -/
def Rx.At (divider : Nat) : RxPhase → Rx → Prop
  | .idle, x => x.Resting
  | .bit b n r, x => x.InBit divider b n r

theorem Rx.at_reset : Rx.At divider .idle Rx.reset := ⟨rfl, rfl, rfl, rfl⟩

theorem RxState.sampled_ne_idle (n : Nat) : RxState.sampled n ≠ .idle := by
  rw [RxState.sampled]
  split
  · exact RxState.noConfusion
  · split <;> exact RxState.noConfusion

variable {x : Rx} {b : Byte} {n r : Nat} (hwidth : divider < 2 ^ MemBlock.log2Up divider)
  (hfive : 5 ≤ divider)

theorem Rx.InBit.state_ne_idle (h : x.InBit divider b n r) : x.rxState ≠ .idle :=
  h.state ▸ RxState.sampled_ne_idle n

/-- While the line is high, the receiver stays idle. -/
theorem Rx.Resting.next_of_high (h : x.Resting) (ready : Bool) :
    Rx.Resting (x.next divider depth true ready) := by
  rw [Rx.next, h.state, Rx.count, h.enable]
  exact ⟨h.state, h.enable, h.tick, h.counter⟩

include hfive in
/-- The line goes low, and the baud counter does not end a bit. -/
theorem Rx.inBit_of_low (hstate : x.rxState = .idle) (hcounter : x.rxCounter = 0)
    (htick : (x.count divider).rxBaudTick = false) (b : Byte) (ready : Bool) :
    Rx.InBit divider b 0 (divider / 2) (x.next divider depth false ready) := by
  have hhalf : ¬ divider / 2 = divider + 1 := by omega
  have hkept : (x.count divider).rxCounter = x.rxCounter := by
    rw [Rx.count]
    split <;> rfl
  rw [Rx.next, hstate]
  refine ⟨rfl, rfl, Nat.zero_le 9, by omega, by omega, (if_neg hhalf).symm, ?_,
    hkept.trans hcounter, ?_⟩
  · rw [decide_eq_false hhalf]
    exact htick
  · exact fun j hj => absurd hj (Nat.not_lt_zero _)

include hfive in
theorem Rx.Resting.next_of_low (h : x.Resting) (b : Byte) (ready : Bool) :
    Rx.InBit divider b 0 (divider / 2) (x.next divider depth false ready) := by
  refine Rx.inBit_of_low hfive h.state h.counter ?_ b ready
  rw [Rx.count, h.enable]
  exact h.tick

theorem Rx.enq_of_idle (hstate : x.rxState = .idle) (line : Bool) : x.enq line = none :=
  if_neg fun hstop => RxState.noConfusion (hstate.symm.trans hstop.1)

/-- Between the samples nothing happens. -/
theorem Rx.InBit.enq_of_wait (h : x.InBit divider b n r) (hr : r ≤ divider) (line : Bool) :
    x.enq line = none := by
  refine if_neg fun hstop => ?_
  have hr' : r = divider + 1 := of_decide_eq_true (h.tick.symm.trans hstop.2.1)
  omega

include hwidth in
theorem baudNext_sample {r : Nat} (h : r ≤ divider) :
    baudNext divider r =
      (if r + 1 = divider + 1 then 0 else r + 1, decide (r + 1 = divider + 1)) := by
  rcases lt_or_eq_of_le h with hlt | rfl
  · have hne : ¬ r + 1 = divider + 1 := by omega
    rw [baudNext_of_ne hwidth hlt, if_neg hne, decide_eq_false hne]
  · rw [baudNext_self, if_pos rfl, decide_eq_true rfl]

include hwidth in
theorem Rx.InBit.next_of_wait (h : x.InBit divider b n r) (hr : r ≤ divider)
    (line ready : Bool) : Rx.InBit divider b n (r + 1) (x.next divider depth line ready) := by
  obtain ⟨state, enable, last, pos, inside, baud, tick, counter, buff⟩ := h
  have hne : ¬ r = divider + 1 := by omega
  rw [if_neg hne] at baud
  rw [decide_eq_false hne] at tick
  have hcount : x.count divider = { x with
      rxBaudCounter := if r + 1 = divider + 1 then 0 else r + 1
      rxBaudTick := decide (r + 1 = divider + 1) } := by
    rw [Rx.count, enable, if_pos rfl, baud, baudNext_sample hwidth hr]
  have hnext : x.next divider depth line ready = { x.count divider with
      rxQueue := queueNext depth x.rxQueue (x.enq line) ready } := by
    rw [Rx.next, tick]
    cases hstate : x.rxState with
    | idle => exact absurd (state.symm.trans hstate) (RxState.sampled_ne_idle n)
    | start => rfl
    | receiveData => rfl
    | stopBit => rfl
  rw [hnext, hcount]
  exact ⟨state, enable, last, by omega, by omega, rfl, rfl, counter, buff⟩

theorem getLsbD_shiftIn (l : Bool) (x : Byte) {i : Nat} (h : i ≤ 7) :
    (BitVec.ofBool l ++ x.extractLsb 7 1 : BitVec 8).getLsbD i =
      if i = 7 then l else x.getLsbD (i + 1) := by
  by_cases h7 : i = 7
  · subst h7
    rw [if_pos rfl, BitVec.getLsbD_append]
    cases l <;> rfl
  · have hi : i < 7 := by omega
    rw [if_neg h7, BitVec.getLsbD_append]
    simp [hi, add_comm 1 i]

include hwidth hfive in
/-- The counter when a sample is taken. -/
theorem Rx.count_of_sample (henable : x.rxEnable = true) (hbaud : x.rxBaudCounter = 0) :
    x.count divider = { x with rxBaudCounter := 1, rxBaudTick := false } := by
  rw [Rx.count, henable, if_pos rfl, hbaud, baudNext_of_ne hwidth (by omega)]

include hwidth hfive in
theorem Rx.InBit.next_of_sample (h : x.InBit divider b n (divider + 1)) (hn : n < 9)
    (ready : Bool) :
    Rx.InBit divider b (n + 1) 1 (x.next divider depth (level b (n + 1)) ready) := by
  obtain ⟨state, enable, last, pos, inside, baud, tick, counter, buff⟩ := h
  rw [if_pos rfl] at baud
  rw [decide_eq_true rfl] at tick
  have hcount := Rx.count_of_sample hwidth hfive enable baud
  have hone : ¬ 1 = divider + 1 := by omega
  rcases Nat.eq_zero_or_pos n with rfl | hpos
  · have hstate : x.rxState = .start := state
    rw [Rx.next, hstate, tick, hcount]
    refine ⟨rfl, enable, by omega, Nat.le_refl 1, by omega, (if_neg hone).symm,
      (decide_eq_false hone).symm, counter, ?_⟩
    exact fun j hj => absurd hj (by omega)
  · have hstate : x.rxState = .receiveData := by
      rw [state, RxState.sampled, if_neg (by omega), if_pos (by omega)]
    rw [if_pos (by omega)] at counter
    rw [Rx.next, hstate, tick, hcount, counter]
    refine ⟨?_, enable, by omega, Nat.le_refl 1, by omega, (if_neg hone).symm,
      (decide_eq_false hone).symm, ?_, fun j hj => ?_⟩
    · change (if n - 1 = 7 then RxState.stopBit else .receiveData) = RxState.sampled (n + 1)
      rw [RxState.sampled, if_neg (Nat.succ_ne_zero n)]
      by_cases h8 : n = 8
      · rw [if_pos (by omega), if_neg (by omega)]
      · rw [if_neg (by omega), if_pos (by omega)]
    · change (if n - 1 = 7 then 0 else (n - 1 + 1) % 8) = if n + 1 ≤ 8 then n + 1 - 1 else 0
      by_cases h8 : n = 8
      · rw [if_pos (by omega), if_neg (by omega)]
      · rw [if_neg (by omega), if_pos (by omega)]
        omega
    · change (BitVec.ofBool (level b (n + 1)) ++ x.rxBuff.extractLsb 7 1 : BitVec 8).getLsbD
        (9 - (n + 1) + j) = _
      rw [getLsbD_shiftIn _ _ (by omega)]
      by_cases hj7 : 9 - (n + 1) + j = 7
      · have hn1 : n + 1 = j + 2 := by omega
        rw [if_pos hj7, hn1, level_data b (by omega)]
      · rw [if_neg hj7, ← buff j (by omega)]
        congr 1
        omega

/-- After the last sample the byte is complete. -/
theorem Rx.InBit.buff_eq (h : x.InBit divider b 9 r) : x.rxBuff = b := by
  refine BitVec.eq_of_getLsbD_eq fun j hj => ?_
  have hbit := h.buff j (by omega)
  rwa [Nat.sub_self, Nat.zero_add] at hbit

/-- The stop bit completes the frame. -/
theorem Rx.InBit.enq_of_stop (h : x.InBit divider b 9 (divider + 1)) : x.enq true = some b := by
  rw [Rx.enq, if_pos ⟨h.state, h.tick.trans (decide_eq_true rfl), rfl⟩, h.buff_eq]

include hwidth hfive in
theorem Rx.InBit.next_of_stop (h : x.InBit divider b 9 (divider + 1)) (ready : Bool) :
    Rx.Resting (x.next divider depth true ready) := by
  have hstate : x.rxState = .stopBit := h.state
  have hbaud := h.baud
  rw [if_pos rfl] at hbaud
  rw [Rx.next, hstate, h.tick.trans (decide_eq_true rfl),
    Rx.count_of_sample hwidth hfive h.enable hbaud]
  exact ⟨rfl, rfl, rfl, h.counter⟩

theorem Rx.InBit.enq_of_sample (h : x.InBit divider b n r) (hn : n < 9) (line : Bool) :
    x.enq line = none := by
  refine if_neg fun hstop => ?_
  have hne : RxState.sampled n ≠ .stopBit := by
    rw [RxState.sampled]
    split
    · exact RxState.noConfusion
    · rw [if_pos (by omega)]
      exact RxState.noConfusion
  exact hne (h.state.symm.trans hstop.1)

/-- A cycle of the receiver: what the line is, what enters the queue and where it then stands. -/
inductive RxPhase.Moves (divider : Nat) : RxPhase → Bool → List Byte → RxPhase → Prop
  | high : RxPhase.Moves divider .idle true [] .idle
  | low (b : Byte) : RxPhase.Moves divider .idle false [] (.bit b 0 (divider / 2))
  | wait {b : Byte} {n r : Nat} {line : Bool} (inside : r ≤ divider) :
      RxPhase.Moves divider (.bit b n r) line [] (.bit b n (r + 1))
  | sample {b : Byte} {n : Nat} (more : n < 9) :
      RxPhase.Moves divider (.bit b n (divider + 1)) (level b (n + 1)) [] (.bit b (n + 1) 1)
  | stop {b : Byte} : RxPhase.Moves divider (.bit b 9 (divider + 1)) true [b] .idle

include hwidth hfive in
theorem Rx.At.next {rh rh' : RxPhase} {line : Bool} {bytes : List Byte} (h : Rx.At divider rh x)
    (hmove : rh.Moves divider line bytes rh') (ready : Bool) :
    (x.enq line).toList = bytes ∧ Rx.At divider rh' (x.next divider depth line ready) := by
  cases hmove with
  | high => exact ⟨by rw [Rx.enq_of_idle h.state]; rfl, h.next_of_high ready⟩
  | low b => exact ⟨by rw [Rx.enq_of_idle h.state]; rfl, h.next_of_low hfive b ready⟩
  | wait inside =>
    exact ⟨by rw [h.enq_of_wait inside]; rfl, h.next_of_wait hwidth inside line ready⟩
  | sample more =>
    exact ⟨by rw [h.enq_of_sample more]; rfl, h.next_of_sample hwidth hfive more ready⟩
  | stop =>
    exact ⟨by rw [h.enq_of_stop]; rfl, h.next_of_stop hwidth hfive ready⟩

end Patmos.Uart
