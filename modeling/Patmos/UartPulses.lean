import Patmos.UartLink

/-!
# False start bits

A low pulse that is over at the sample of the start bit is rejected.  The receiver is then idle
again, but its baud counter still runs, and when the line goes low in the cycle in which the
counter ends a bit, that tick is taken for the sample of the start bit.  After any other time the
next frame is received.
-/

namespace Patmos.Uart

open Ocp Clocked

variable {divider depth : Nat} {b : Byte}

/-! ### A rejected start bit -/

namespace Rx

variable {x : Rx} {n : Nat}

/-- The receiver is idle, and the baud counter runs. -/
structure Rejected (divider n : Nat) (x : Rx) : Prop where
  state : x.rxState = .idle
  enable : x.rxEnable = true
  baud : x.rxBaudCounter = n
  inside : n ≤ divider
  counter : x.rxCounter = 0

/-- A low level is taken for the beginning of a start bit. -/
def Ready (divider : Nat) (x : Rx) : Prop := x.Resting ∨ ∃ n, n ≠ divider ∧ x.Rejected divider n

variable (hwidth : divider < 2 ^ MemBlock.log2Up divider) (hfive : 5 ≤ divider)

include hwidth hfive in
theorem InBit.next_of_reject (h : x.InBit divider b 0 (divider + 1)) (ready : Bool) :
    Rejected divider 1 (x.next divider depth true ready) := by
  have hstate : x.rxState = .start := h.state
  have hbaud := h.baud
  rw [if_pos rfl] at hbaud
  rw [next, hstate, h.tick.trans (decide_eq_true rfl), count_of_sample hwidth hfive h.enable hbaud]
  exact ⟨rfl, h.enable, rfl, by omega, h.counter⟩

include hwidth in
theorem Rejected.next_of_high (h : x.Rejected divider n) (ready : Bool) :
    Rejected divider ((n + 1) % (divider + 1)) (x.next divider depth true ready) := by
  have hbaud : (baudNext divider n).1 = (n + 1) % (divider + 1) := by
    rcases Nat.lt_or_eq_of_le h.inside with hlt | rfl
    · rw [baudNext_of_ne hwidth hlt, Nat.mod_eq_of_lt (Nat.succ_lt_succ hlt)]
    · rw [baudNext_self, Nat.mod_self]
  have hcount : x.count divider = { x with
      rxBaudCounter := (baudNext divider n).1, rxBaudTick := (baudNext divider n).2 } := by
    rw [count, if_pos h.enable, h.baud]
  rw [next, h.state, hcount]
  exact ⟨h.state, h.enable, hbaud, Nat.le_of_lt_succ (Nat.mod_lt _ (Nat.succ_pos _)), h.counter⟩

include hwidth hfive in
theorem Ready.next_of_low (h : x.Ready divider) (b : Byte) (ready : Bool) :
    InBit divider b 0 (divider / 2) (x.next divider depth false ready) := by
  rcases h with hrest | ⟨n, hn, hrej⟩
  · exact hrest.next_of_low hfive b ready
  · apply inBit_of_low hfive hrej.state hrej.counter
    rw [count, if_pos hrej.enable, hrej.baud,
      baudNext_of_ne hwidth (Nat.lt_of_le_of_ne hrej.inside hn)]

theorem Ready.state (h : x.Ready divider) : x.rxState = .idle := by
  rcases h with hrest | ⟨_, _, hrej⟩
  · exact hrest.state
  · exact hrej.state

end Rx

/-! ### The receiver along a waveform -/

/-- From cycle `s` to cycle `t` the line shows pulses that are shorter than half a bit, with idle
    line behind each of them until the receiver is idle.  `C` holds for the distances. -/
inductive Pulses (divider : Nat) (line : ℕ → Bool) (C : Nat → Prop) : ℕ → ℕ → Prop
  | nil (s : ℕ) : Pulses divider line C s s
  | pulse {s t low gap : ℕ} (pos : 0 < low) (half : 2 * low < divider + 1)
      (hlow : ∀ u < low, line (s + u) = false) (hgap : ∀ u < gap, line (s + low + u) = true)
      (rejected : divider + 3 ≤ low + gap + divider / 2) (hC : C (low + gap))
      (rest : Pulses divider line C (s + (low + gap)) t) : Pulses divider line C s t

/-- The baud counter starts again when a pulse is rejected.  It does not end a bit in the cycle
    in which the line goes low, `d` cycles after the pulse began. -/
def Clear (divider d : Nat) : Prop :=
  (1 + (d + divider / 2 - (divider + 3))) % (divider + 1) ≠ divider

/-- From cycle `t` on the line shows byte `b` with its start bit and its stop bit. -/
def Frame (divider : Nat) (line : ℕ → Bool) (b : Byte) (t : ℕ) : Prop :=
  ∀ j < 10 * (divider + 1), line (t + j) = level b (j / (divider + 1) + 1)

/-- The cycles from the start bit to the sample of bit `n`. -/
def sampleAt (divider n : Nat) : Nat := divider + 2 - divider / 2 + n * (divider + 1)

section Trace

open Rx (InBit Resting Ready Rejected enq_of_idle)

variable {x : ℕ → Rx} {line ready : ℕ → Bool} {q s t n r k : ℕ}

/-- In cycle `t` the receiver is in `P`, and nothing was offered to its queue since cycle `q`. -/
def Reaches (x : ℕ → Rx) (line : ℕ → Bool) (q : ℕ) (P : Rx → Prop) (t : ℕ) : Prop :=
  P (x t) ∧ ∀ u, q ≤ u → u < t → (x u).enq (line u) = none

theorem Reaches.here {P : Rx → Prop} (h : P (x t)) : Reaches x line t P t :=
  ⟨h, fun _ hle hlt => absurd hlt (Nat.not_lt.mpr hle)⟩

theorem Reaches.step {P Q : Rx → Prop} (h : Reaches x line q P t)
    (hnext : P (x t) → Q (x (t + 1)) ∧ (x t).enq (line t) = none) : Reaches x line q Q (t + 1) := by
  obtain ⟨hQ, hnone⟩ := hnext h.1
  refine ⟨hQ, fun u hq hu => ?_⟩
  rcases Nat.lt_succ_iff_lt_or_eq.mp hu with hlt | rfl
  · exact h.2 u hq hlt
  · exact hnone

theorem Reaches.walk {P : ℕ → Rx → Prop} (h : Reaches x line q (P 0) t)
    (hnext : ∀ j < k, P j (x (t + j)) → P (j + 1) (x (t + j + 1)) ∧
      (x (t + j)).enq (line (t + j)) = none) : Reaches x line q (P k) (t + k) := by
  induction k with
  | zero => exact h
  | succ k ih =>
    exact (ih fun j hj => hnext j (Nat.lt_succ_of_lt hj)).step (hnext k (Nat.lt_succ_self k))

namespace Reaches

variable (hx : ∀ t, x (t + 1) = (x t).next divider depth (line t) (ready t))
include hx

theorem high (h : Reaches x line q Resting t) (hline : ∀ j < k, line (t + j) = true) :
    Reaches x line q Resting (t + k) := by
  apply h.walk (P := fun _ => Resting)
  intro j hj hrest
  rw [hx, hline j hj]
  exact ⟨hrest.next_of_high _, enq_of_idle hrest.state _⟩

theorem queue {P : Rx → Prop} (h : Reaches x line 0 P t) (hq : (x 0).rxQueue = []) :
    (x t).rxQueue = [] := by
  have hnone := h.2
  clear h
  induction t with
  | zero => exact hq
  | succ t ih =>
    have hnext : (x (t + 1)).rxQueue = queueNext depth (x t).rxQueue none (ready t) := by
      rw [hx, ← hnone t (Nat.zero_le t) (Nat.lt_succ_self t)]
      unfold Rx.next
      dsimp only
      split <;> split <;> rfl
    rw [hnext, ih fun u hu hlt => hnone u hu (Nat.lt_succ_of_lt hlt)]
    cases ready t <;> simp [queueNext, accepted]

variable (hwidth : divider < 2 ^ MemBlock.log2Up divider)
include hwidth

theorem wait (h : Reaches x line q (InBit divider b n r) t) (hr : r + k ≤ divider + 1) :
    Reaches x line q (InBit divider b n (r + k)) (t + k) := by
  apply h.walk (P := fun j => InBit divider b n (r + j))
  intro j hj hbit
  have hinside : r + j ≤ divider := by omega
  rw [hx]
  exact ⟨hbit.next_of_wait hwidth hinside _ _, hbit.enq_of_wait hinside _⟩

variable (hfive : 5 ≤ divider)
include hfive

/-- The receiver takes a low level for the beginning of byte `b`. -/
theorem low (h : Reaches x line q (Ready divider) t) (hlow : line t = false) (b : Byte) :
    Reaches x line q (InBit divider b 0 (divider + 1)) (t + sampleAt divider 0) := by
  have hnext : Reaches x line q (InBit divider b 0 (divider / 2)) (t + 1) := by
    apply h.step
    intro hready
    rw [hx, hlow]
    exact ⟨hready.next_of_low hwidth hfive b _, enq_of_idle hready.state _⟩
  have hbit := hnext.wait hx hwidth (k := divider + 1 - divider / 2) (by omega)
  rwa [Nat.add_sub_cancel' (by omega),
    show t + 1 + (divider + 1 - divider / 2) =
      t + sampleAt divider 0 by unfold sampleAt; omega] at hbit

/-- A pulse is rejected, and the baud counter runs on. -/
theorem pulses (h : Reaches x line q (Ready divider) s)
    (hp : Pulses divider line (Clear divider) s t) : Reaches x line q (Ready divider) t := by
  induction hp with
  | nil s => exact h
  | @pulse s t low gap pos half hlow hgap rejected hC rest ih =>
    have hline : ∀ j, sampleAt divider 0 ≤ j → j < low + gap → line (s + j) = true := by
      intro j hle hlt
      have hj := hgap (j - low) (by omega)
      unfold sampleAt at hle
      rwa [show s + low + (j - low) = s + j by omega] at hj
    have hrej : Reaches x line q (Rejected divider 1) (s + sampleAt divider 0 + 1) := by
      apply (h.low hx hwidth hfive (hlow 0 pos) 0).step
      intro hbit
      rw [hx, hline _ (Nat.le_refl _) (by unfold sampleAt; omega)]
      exact ⟨hbit.next_of_reject hwidth hfive _, hbit.enq_of_sample (by omega) _⟩
    have hend := walk (k := low + gap + divider / 2 - (divider + 3))
      (P := fun j => Rejected divider ((1 + j) % (divider + 1)))
      (by rwa [Nat.add_zero, Nat.mod_eq_of_lt (by omega)])
      (by
        intro j hj hr
        have hhigh := hline (sampleAt divider 0 + 1 + j) (by omega) (by unfold sampleAt; omega)
        rw [← add_assoc s, ← add_assoc s] at hhigh
        rw [hx, hhigh, ← add_assoc 1, ← Nat.mod_add_mod]
        exact ⟨hr.next_of_high hwidth _, enq_of_idle hr.state _⟩)
    apply ih
    rw [show s + (low + gap) =
      s + sampleAt divider 0 + 1 +
        (low + gap + divider / 2 - (divider + 3)) by unfold sampleAt; omega]
    exact ⟨.inr ⟨_, hC, hend.1⟩, hend.2⟩

/-- The samples of a frame. -/
theorem sample (h : Reaches x line q (Ready divider) t) (hf : Frame divider line b t)
    (hn : n ≤ 9) : line (t + sampleAt divider n) = level b (n + 1) ∧
      Reaches x line q (InBit divider b n (divider + 1)) (t + sampleAt divider n) := by
  have hlevel : ∀ {n}, n ≤ 9 → line (t + sampleAt divider n) = level b (n + 1) := by
    intro n hn
    have hmul := Nat.mul_le_mul_right (divider + 1) hn
    rw [hf _ (by unfold sampleAt; omega), sampleAt, Nat.add_mul_div_right _ _ (Nat.succ_pos _),
      Nat.div_eq_of_lt (by omega), Nat.zero_add]
  refine ⟨hlevel hn, ?_⟩
  induction n with
  | zero =>
    have hlow := hf 0 (by omega)
    rw [Nat.zero_div] at hlow
    exact h.low hx hwidth hfive hlow b
  | succ n ih =>
    have hnext : Reaches x line q (InBit divider b (n + 1) 1) (t + sampleAt divider n + 1) := by
      apply (ih (by omega)).step
      intro hbit
      rw [hx, hlevel (by omega)]
      exact ⟨hbit.next_of_sample hwidth hfive (by omega) _, hbit.enq_of_sample (by omega) _⟩
    have hbit := hnext.wait hx hwidth (k := divider) (by omega)
    rwa [Nat.add_comm 1, show t + sampleAt divider n + 1 + divider = t + sampleAt divider (n + 1) by
      rw [sampleAt, sampleAt, Nat.succ_mul n]; omega] at hbit

end Reaches

/-- Only the byte of the frame enters the queue. -/
theorem enqueued_of_frame (hx : ∀ t, x (t + 1) = (x t).next divider depth (line t) (ready t))
    (hwidth : divider < 2 ^ MemBlock.log2Up divider) (hfive : 5 ≤ divider) (hdepth : 0 < depth)
    (hrest : (x 0).Resting) (hq : (x 0).rxQueue = []) (hidle : ∀ u < s, line u = true)
    (hp : Pulses divider line (Clear divider) s t) (hf : Frame divider line b t) {u : ℕ}
    (hu : u < t + 10 * (divider + 1)) : accepted depth (x u).rxQueue ((x u).enq (line u)) =
      if u = t + sampleAt divider 9 then [b] else [] := by
  have hs : Reaches x line 0 Resting (0 + s) :=
    (Reaches.here hrest).high hx fun j hj => by rw [zero_add]; exact hidle j hj
  rw [zero_add] at hs
  obtain ⟨hline, hbit⟩ :=
    (Reaches.pulses hx hwidth hfive ⟨.inl hs.1, hs.2⟩ hp).sample hx hwidth hfive
    hf (le_refl 9)
  replace hline : line (t + sampleAt divider 9) = true := hline
  rcases lt_trichotomy u (t + sampleAt divider 9) with hlt | rfl | hgt
  · rw [hbit.2 u (Nat.zero_le u) hlt, if_neg hlt.ne, accepted]
    exact ite_self _
  · rw [hbit.queue hx hq, hline, hbit.1.enq_of_stop, if_pos rfl]
    exact if_pos (decide_eq_true hdepth)
  · -- the rest of the stop bit
    have hstop : (x (t + sampleAt divider 9 + 1)).Resting := by
      rw [hx, hline]
      exact hbit.1.next_of_stop hwidth hfive _
    have hafter := (Reaches.here hstop).high hx
      (k := 10 * (divider + 1) - (sampleAt divider 9 + 1)) (by
      intro j hj
      have hlast : (sampleAt divider 9 + 1 + j) / (divider + 1) = 9 := by
        unfold sampleAt at *
        exact Nat.div_eq_of_lt_le (by omega) (by omega)
      rw [add_assoc t, add_assoc t, hf _ (by omega), hlast]
      rfl)
    rw [hafter.2 u hgt (by unfold sampleAt; omega), if_neg hgt.ne', accepted]
    exact ite_self _

end Trace

/-! ### The device -/

/-- The byte that enters the receive queue in cycle `u`. -/
def enqueuedAt (divider depth : Nat) (cs : ℕ → Cycle) (u : ℕ) : List Byte :=
  let s := stateAt (next divider depth) reset cs u
  accepted depth s.rx.rxQueue (s.rx.enq s.rxdReg2)

/-- **After false start bits whose rejection leaves the baud counter in another cycle than its last
    one when the line goes low again, the frame that follows is received, and nothing else.** -/
theorem received_after_pulses (hfive : 5 ≤ divider) (hpow : ∀ k, divider ≠ 2 ^ k)
    (hdepth : 0 < depth)
    {cs : ℕ → Cycle} {s t : ℕ} (hidle : ∀ u < s, (cs u).rx = true)
    (hp : Pulses divider (fun u => (cs u).rx) (Clear divider) s t)
    (hf : Frame divider (fun u => (cs u).rx) b t) {u : ℕ} (hu : u < t + 3 + 10 * (divider + 1)) :
    enqueuedAt divider depth cs u = if u = t + 3 + sampleAt divider 9 then [b] else [] := by
  have hwidth : divider < 2 ^ MemBlock.log2Up divider :=
    lt_of_le_of_ne (MemBlock.le_pow_log2Up divider) (hpow _)
  let st := stateAt (next divider depth) reset cs
  have hx : ∀ v, (st (v + 1)).rx =
      (st v).rx.next divider depth (st v).rxdReg2 (rxDeqReady (cs v).M) := fun _ => rfl
  -- the levels need three cycles through the registers of the line
  have hthree : Reaches (fun v => (st v).rx) (fun v => (st v).rxdReg2) 0 Rx.Resting (0 + 3) := by
    refine Reaches.high hx (.here ⟨rfl, rfl, rfl, rfl⟩) ?_
    rintro (_ | _ | _ | j) hj
    · rfl
    · rfl
    · rfl
    · omega
  rcases Nat.lt_or_ge u 3 with hlt | hge
  · rw [enqueuedAt, if_neg (by omega), accepted, hthree.2 u (Nat.zero_le u) hlt]
    exact ite_self _
  · obtain ⟨v, rfl⟩ := Nat.exists_eq_add_of_le' hge
    have hmain := enqueued_of_frame (x := fun v => (st (v + 3)).rx)
      (fun v => hx (v + 3)) hwidth hfive
      hdepth hthree.1 (hthree.queue hx rfl) hidle hp hf (u := v) (by omega)
    simp only [show v + 3 = t + 3 + sampleAt divider 9 ↔ v = t + sampleAt divider 9 by omega]
    exact hmain

/-- A pulse of two cycles, `gap` idle cycles and a frame of byte `b`, with six cycles to a bit, for
    a device that gets no commands. -/
def pulseAndFrame (gap : Nat) (b : Byte) (t : ℕ) : Cycle :=
  ⟨nothing, decide (2 ≤ t) &&
    (decide (t < 2 + gap) || level b ((t - (2 + gap)) / 6 + 1)), 0⟩

theorem pulses_of_gap {gap : ℕ} {C : Nat → Prop} (h : 6 ≤ gap) (hC : C (2 + gap)) :
    Pulses 5 (fun u => (pulseAndFrame gap b u).rx) C 0 (2 + gap) := by
  refine @Pulses.pulse 5 _ C 0 _ 2 gap (by decide) (by decide) ?_ ?_ (by omega) hC ?_
  · intro u hu
    simp [pulseAndFrame, hu]
  · intro u hu
    simp [pulseAndFrame, hu]
  · rw [zero_add]
    exact .nil _

theorem frame_of_gap (gap : ℕ) : Frame 5 (fun u => (pulseAndFrame gap b u).rx) b (2 + gap) := by
  intro j hj
  simp [pulseAndFrame, show 2 ≤ 2 + gap + j by omega]

/-- Seven idle cycles after the pulse. -/
theorem received_after_seven :
    Pulses 5 (fun u => (pulseAndFrame 7 0xA6 u).rx) (Clear 5) 0 9 ∧
      enqueuedAt 5 1 (pulseAndFrame 7 0xA6) 71 = [0xA6] := by
  have hp : Pulses 5 (fun u => (pulseAndFrame 7 0xA6 u).rx) (Clear 5) 0 9 :=
    pulses_of_gap (by decide) (by unfold Clear; decide)
  exact ⟨hp, received_after_pulses (le_refl 5) Link.five_ne_pow Nat.one_pos
    (fun u hu => absurd hu (Nat.not_lt_zero u)) hp (frame_of_gap 7) (by decide)⟩

/-- With one idle cycle more the baud counter ends a bit when the start bit begins, and the receiver
    takes the start bit for the first bit of the byte. -/
theorem early_after_eight :
    Pulses 5 (fun u => (pulseAndFrame 8 0xFF u).rx) (fun _ => True) 0 10 ∧
      Frame 5 (fun u => (pulseAndFrame 8 0xFF u).rx) 0xFF 10 ∧
      enqueuedAt 5 1 (pulseAndFrame 8 0xFF) 66 = [0xFE] := by
  exact ⟨pulses_of_gap (by decide) trivial, frame_of_gap 8, by decide +kernel⟩

end Patmos.Uart
