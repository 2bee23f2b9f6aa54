import Patmos.UartFrame

/-!
# Two UARTs on one line

The `tx` pin of one UART drives the `rx` pin of another with the same divider.  The bytes that enter
the receive queue are those that were written to the transmit queue.
-/

namespace Patmos.Uart

open Ocp Clocked

/-! ### Both sides of a frame -/

/-- The line has not been low for long: at most in cycle `m` of the start bit.  The bytes are those
    that the receiver has not seen of yet. -/
inductive TxPhase.Early (m : Nat) : TxPhase → List Byte → Prop
  | idle : TxPhase.Early m .idle []
  | loaded (b : Byte) : TxPhase.Early m (.loaded b) [b]
  | bit (b : Byte) {p : Nat} (start : p ≤ m) : TxPhase.Early m (.bit b 0 p) [b]

variable {divider m m' : Nat} {ph : TxPhase} {rh rh' : RxPhase} {bytes : List Byte}

theorem TxPhase.Early.mono (h : ph.Early m bytes) (hm : m ≤ m') : ph.Early m' bytes := by
  cases h with
  | idle => exact .idle
  | loaded b => exact .loaded b
  | bit b start => exact .bit b (start.trans hm)

theorem TxPhase.early_follow (q : List Byte) : (TxPhase.follow q).Early 0 (q.take 1) := by
  cases q with
  | nil => exact .idle
  | cons b q => exact .bit b (le_refl 0)

theorem TxPhase.Early.next (h : ph.Early m bytes) (hm : m < divider) (tick : Bool) (q : List Byte) :
    (ph.next divider tick q).Early (m + 1) (bytes ++ ph.taken divider q) := by
  cases h with
  | idle =>
    cases q with
    | nil => exact .idle
    | cons b q => exact .loaded b
  | loaded b =>
    cases tick with
    | false => exact .loaded b
    | true => exact .bit b (Nat.zero_le _)
  | bit b start =>
    obtain ⟨hnext, htaken⟩ := step_of_wait (ne_of_lt (lt_of_le_of_lt start hm))
    rw [hnext, htaken]
    exact .bit b (by omega)

/-- The receiver does not see the start bit yet. -/
theorem TxPhase.Early.seen (h : ph.Early m bytes) (hm : m ≤ 2) : ph.seen 3 = true := by
  cases h with
  | idle => rfl
  | loaded b => rfl
  | bit b start => rw [TxPhase.seen, if_neg (by omega)]; rfl

/-- The receiver is `divider / 2 - 4` cycles ahead of the transmitter. -/
def Aligned (divider k p n r : Nat) : Prop :=
  n = k ∧ r + 4 = p + divider / 2 ∨
  n = k + 1 ∧ r + 4 + (divider + 1) = p + divider / 2 ∨
  n + 1 = k ∧ r + 4 = p + divider / 2 + (divider + 1)

/-- Transmitter and receiver, and the bytes that have left the transmit queue and have not come to
    the receive queue. -/
inductive Sync (divider : Nat) : TxPhase → RxPhase → List Byte → Prop
  /-- The receiver waits for a start bit. -/
  | early {ph : TxPhase} {bytes : List Byte} (h : ph.Early 3 bytes) : Sync divider ph .idle bytes
  /-- The receiver takes the bits of the frame. -/
  | receiving {b : Byte} {k p n r : Nat} (h : Aligned divider k p n r) :
      Sync divider (.bit b k p) (.bit b n r) [b]
  /-- The receiver is finished before the transmitter. -/
  | after {b : Byte} {p : Nat} (h : divider + 6 ≤ p + divider / 2) :
      Sync divider (.bit b 9 p) .idle []
  /-- The transmitter is finished before the receiver. -/
  | late {ph : TxPhase} {bytes : List Byte} {b : Byte} {m r : Nat} (h : ph.Early m bytes)
      (soon : m + divider ≤ r + 1) : Sync divider ph (.bit b 9 r) (b :: bytes)

section Sync

variable {b : Byte} {k p n r : Nat} (hfive : 5 ≤ divider)
include hfive

/-- The levels at the samples. -/
theorem Aligned.seen (h : Aligned divider k p n (divider + 1)) (hp : p ≤ divider) :
    (TxPhase.bit b k p).seen 3 = level b (n + 1) := by
  rw [TxPhase.seen]
  rcases h with ⟨hk, hp'⟩ | ⟨hk, hp'⟩ | ⟨hk, hp'⟩
  · rw [if_pos (by omega), hk]
  · omega
  · rw [if_neg (by omega), hk]

theorem Aligned.wait (h : Aligned divider k p n r) (hp : p ≠ divider) :
    Aligned divider k (p + 1) n (r + 1) := by
  unfold Aligned at *
  omega

theorem Aligned.nextBit (h : Aligned divider k divider n r) (hr : r ≤ divider) :
    Aligned divider (k + 1) 0 n (r + 1) := by
  unfold Aligned at *
  omega

theorem Aligned.sample (h : Aligned divider k p n (divider + 1)) (hp : p < divider) :
    Aligned divider k (p + 1) (n + 1) 1 := by
  unfold Aligned at *
  omega

theorem Aligned.sample_nextBit (h : Aligned divider k divider n (divider + 1)) :
    Aligned divider (k + 1) 0 (n + 1) 1 := by
  unfold Aligned at *
  omega

/-- A cycle of both sides: the receiver moves, and the bytes keep their order. -/
def Sync.Steps (divider : Nat) (tick : Bool) (q : List Byte) (ph : TxPhase) (rh : RxPhase)
    (bytes : List Byte) : Prop :=
  ∃ rh' received bytes', rh.Moves divider (ph.seen 3) received rh' ∧
    Sync divider (ph.next divider tick q) rh' bytes' ∧
    bytes ++ ph.taken divider q = received ++ bytes'

variable {tick : Bool} {q : List Byte}

theorem Sync.step_of_early (h : ph.Early 3 bytes) : Sync.Steps divider tick q ph .idle bytes := by
  have hquiet : ∀ {ph : TxPhase} {bytes : List Byte}, ph.Early 2 bytes →
      Sync.Steps divider tick q ph .idle bytes := by
    intro ph bytes hearly
    refine ⟨.idle, [], _, ?_, .early (hearly.next (by omega) tick q), rfl⟩
    rw [hearly.seen (le_refl 2)]
    exact .high
  cases h with
  | idle => exact hquiet .idle
  | loaded b => exact hquiet (.loaded b)
  | bit b start =>
    rcases lt_or_eq_of_le start with hp | rfl
    · exact hquiet (.bit b (by omega))
    · -- the start bit arrives behind the three registers
      obtain ⟨hnext, htaken⟩ := TxPhase.step_of_wait (by omega : 3 ≠ divider)
      refine ⟨.bit b 0 (divider / 2), [], [b], .low b, ?_, ?_⟩
      · rw [hnext]
        exact .receiving (Or.inl ⟨rfl, by omega⟩)
      · rw [htaken]
        rfl

theorem Sync.step_of_after (h : divider + 6 ≤ p + divider / 2) :
    Sync.Steps divider tick q (.bit b 9 p) .idle [] := by
  have hmove : RxPhase.idle.Moves divider ((TxPhase.bit b 9 p).seen 3) [] .idle := by
    rw [TxPhase.seen, if_pos (by omega)]
    exact .high
  refine ⟨.idle, [], _, hmove, ?_, rfl⟩
  by_cases hp : p = divider
  · obtain ⟨hnext, htaken⟩ := TxPhase.step_of_stop hp
    rw [hnext, htaken]
    exact .early ((TxPhase.early_follow q).mono (Nat.zero_le 3))
  · obtain ⟨hnext, htaken⟩ := TxPhase.step_of_wait hp
    rw [hnext, htaken]
    exact .after (by omega)

theorem Sync.step_of_late (h : ph.Early m bytes) (soon : m + divider ≤ r + 1)
    (hr : r ≤ divider + 1) : Sync.Steps divider tick q ph (.bit b 9 r) (b :: bytes) := by
  have hnext := h.next (by omega : m < divider) tick q
  rcases lt_or_eq_of_le hr with hwait | rfl
  · exact ⟨_, [], _, .wait (by omega), .late hnext (by omega), rfl⟩
  · refine ⟨.idle, [b], _, ?_, .early (hnext.mono (by omega)), rfl⟩
    rw [h.seen (by omega)]
    exact .stop

theorem Sync.step_of_receiving (h : Aligned divider k p n r) (hk : k ≤ 9) (hp : p ≤ divider)
    (hn : n ≤ 9) (hr : r ≤ divider + 1) :
    Sync.Steps divider tick q (.bit b k p) (.bit b n r) [b] := by
  rcases Nat.lt_or_eq_of_le hr with hwait | rfl
  · -- no sample in this cycle
    refine ⟨.bit b n (r + 1), [], _, .wait (by omega), ?_, rfl⟩
    by_cases hlast : p = divider
    · by_cases h9 : k = 9
      · obtain ⟨rfl, hr'⟩ : n = 9 ∧ r + 4 = p + divider / 2 := by
          unfold Aligned at h
          omega
        subst h9
        obtain ⟨hnext, htaken⟩ := TxPhase.step_of_stop hlast
        rw [hnext, htaken]
        exact .late (TxPhase.early_follow q) (by omega)
      · obtain ⟨hnext, htaken⟩ := TxPhase.step_of_bit hlast h9
        rw [hnext, htaken]
        exact .receiving (Aligned.nextBit hfive (hlast ▸ h) (by omega))
    · obtain ⟨hnext, htaken⟩ := TxPhase.step_of_wait hlast
      rw [hnext, htaken]
      exact .receiving (h.wait hfive hlast)
  · have hseen := h.seen (b := b) hfive hp
    rcases Nat.lt_or_eq_of_le hn with hmore | rfl
    · -- a sample of the start bit or of the byte
      refine ⟨.bit b (n + 1) 1, [], _, hseen ▸ .sample hmore, ?_, rfl⟩
      by_cases hlast : p = divider
      · have h9 : k ≠ 9 := by
          unfold Aligned at h
          omega
        obtain ⟨hnext, htaken⟩ := TxPhase.step_of_bit hlast h9
        rw [hnext, htaken]
        exact .receiving (Aligned.sample_nextBit hfive (hlast ▸ h))
      · obtain ⟨hnext, htaken⟩ := TxPhase.step_of_wait hlast
        rw [hnext, htaken]
        exact .receiving (h.sample hfive (by omega))
    · -- the sample of the stop bit
      obtain ⟨rfl, hp'⟩ : k = 9 ∧ divider + 5 = p + divider / 2 := by
        unfold Aligned at h
        omega
      have hmove : (RxPhase.bit b 9 (divider + 1)).Moves divider ((TxPhase.bit b 9 p).seen 3)
          [b] .idle :=
        hseen ▸ .stop
      refine ⟨.idle, [b], _, hmove, ?_, rfl⟩
      by_cases hlast : p = divider
      · obtain ⟨hnext, htaken⟩ := TxPhase.step_of_stop hlast
        rw [hnext, htaken]
        exact .early ((TxPhase.early_follow q).mono (Nat.zero_le 3))
      · obtain ⟨hnext, htaken⟩ := TxPhase.step_of_wait hlast
        rw [hnext, htaken]
        exact .after (by omega)

end Sync

/-! ### The circuit -/

namespace Link

/-- The UART that sends and the UART that receives. -/
structure State where
  sender : Uart.State
  receiver : Uart.State

structure Cycle where
  toSender : CacheMaster
  toReceiver : CacheMaster
  rx : Bool
  unknown₁ : Byte
  unknown₂ : Byte

variable (divider depth₁ depth₂ : Nat)

def next (s : State) (c : Cycle) : State where
  sender := Uart.next divider depth₁ s.sender ⟨c.toSender, c.rx, c.unknown₁⟩
  receiver := Uart.next divider depth₂ s.receiver ⟨c.toReceiver, s.sender.tx.txReg, c.unknown₂⟩

def reset : State := ⟨Uart.reset, Uart.reset⟩

/-- The byte that enters the transmit queue. -/
def written (s : State) (c : Cycle) : List Byte :=
  accepted depth₁ s.sender.tx.txQueue (txEnq c.toSender)

/-- The byte that enters the receive queue. -/
def received (s : State) (_ : Cycle) : List Byte :=
  accepted depth₂ s.receiver.rx.rxQueue (s.receiver.rx.enq s.receiver.rxdReg2)

/-- The receive queue does not overflow. -/
def Room (s : State) (_ : Cycle) : Prop :=
  s.receiver.rx.enq s.receiver.rxdReg2 ≠ none → enqReady depth₂ s.receiver.rx.rxQueue = true

/-- Both sides are idle. -/
structure Idle (s : State) : Prop where
  sender : s.sender.tx.txState = .idle
  queue : s.sender.tx.txQueue = []
  receiver : s.receiver.rx.rxState = .idle

variable {divider depth₁ depth₂}

/-- The registers in the line show what the transmitter has sent. -/
structure Linked (divider : Nat) (ph : TxPhase) (rh : RxPhase) (s : State) : Prop where
  tx : Tx.At divider ph s.sender.tx
  rx : Rx.At divider rh s.receiver.rx
  reg0 : s.receiver.rxdReg0 = ph.seen 1
  reg1 : s.receiver.rxdReg1 = ph.seen 2
  reg2 : s.receiver.rxdReg2 = ph.seen 3

/-- The bytes written are the bytes received, the bytes on the way and the bytes in the queue. -/
def Inv (divider depth₁ depth₂ : Nat) (cs : List Cycle) (s : State) : Prop :=
  ∃ ph rh bytes, Linked divider ph rh s ∧ Sync divider ph rh bytes ∧
    emitted (next divider depth₁ depth₂) (written depth₁) reset cs =
      emitted (next divider depth₁ depth₂) (received depth₂) reset cs ++ bytes ++
        s.sender.tx.txQueue

theorem inv_reset : Inv divider depth₁ depth₂ [] reset :=
  ⟨.idle, .idle, [], ⟨Tx.at_reset, Rx.at_reset, rfl, rfl, rfl⟩, .early .idle, rfl⟩

variable {s : State} {x x' : Tx} {depth : Nat} {enq : Option Byte} {c : Cycle} {cs : List Cycle}
  (hwidth : divider < 2 ^ MemBlock.log2Up divider) (hfive : 5 ≤ divider)
  (hx : x' = x.next divider depth enq)

include hfive in
theorem Linked.steps (h : Linked divider ph rh s) (hsync : Sync divider ph rh bytes) :
    Sync.Steps divider s.sender.tx.txBaudTick s.sender.tx.txQueue ph rh bytes := by
  cases hsync with
  | early hearly => exact Sync.step_of_early hfive hearly
  | receiving haligned =>
    exact Sync.step_of_receiving hfive haligned h.tx.last h.tx.inside h.rx.last h.rx.inside
  | after hafter => exact Sync.step_of_after hfive hafter
  | late hearly soon => exact Sync.step_of_late hfive hearly soon h.rx.inside

include hwidth hfive in
theorem Linked.step (h : Linked divider ph rh s)
    (hmove : rh.Moves divider (ph.seen 3) bytes rh') (c : Cycle) :
    Linked divider (ph.next divider s.sender.tx.txBaudTick s.sender.tx.txQueue) rh'
      (next divider depth₁ depth₂ s c) := by
  have hlast : ∀ b k p, ph = .bit b k p → k ≤ 9 := by
    rintro b k p rfl
    exact h.tx.last
  refine ⟨h.tx.next hwidth hfive _, ?_, ?_, ?_, ?_⟩
  · have hnext : Rx.At divider rh'
        (s.receiver.rx.next divider depth₂ (ph.seen 3) (rxDeqReady c.toReceiver)) :=
      (h.rx.next hwidth hfive hmove _).2
    rw [← h.reg2] at hnext
    exact hnext
  · exact h.tx.line_eq.trans (TxPhase.seen_next hfive (by omega) hlast).symm
  · exact h.reg0.trans (TxPhase.seen_next hfive (by omega) hlast).symm
  · exact h.reg1.trans (TxPhase.seen_next hfive (by omega) hlast).symm

/-- With room in the queue the byte enters it. -/
theorem received_of_room (hroom : Room depth₂ s c) :
    received depth₂ s c = (s.receiver.rx.enq s.receiver.rxdReg2).toList := by
  rw [received, accepted]
  cases henq : s.receiver.rx.enq s.receiver.rxdReg2 with
  | none => exact ite_self _
  | some b => exact if_pos (hroom (henq ▸ Option.some_ne_none b))

include hwidth hfive in
theorem Inv.step (hs : s = run (next divider depth₁ depth₂) reset cs)
    (h : Inv divider depth₁ depth₂ cs s) (hroom : Room depth₂ s c) :
    Inv divider depth₁ depth₂ (cs ++ [c]) (next divider depth₁ depth₂ s c) := by
  obtain ⟨ph, rh, bytes, hlinked, hsync, hbytes⟩ := h
  obtain ⟨rh', new, bytes', hmove, hsync', horder⟩ := hlinked.steps hfive hsync
  refine ⟨_, rh', bytes', hlinked.step hwidth hfive hmove c, hsync', ?_⟩
  have hreceived : received depth₂ s c = new := by
    rw [received_of_room hroom, hlinked.reg2]
    have henq : (s.receiver.rx.enq (ph.seen 3)).toList = new ∧ Rx.At divider rh'
        (s.receiver.rx.next divider depth₂ (ph.seen 3) (rxDeqReady c.toReceiver)) :=
      hlinked.rx.next hwidth hfive hmove _
    exact henq.1
  have hqueue := removed_append_queueNext depth₁ s.sender.tx.txQueue (txEnq c.toSender)
    s.sender.tx.deqReady
  rw [hlinked.tx.removed_eq] at hqueue
  rw [emitted_concat, emitted_concat, ← hs, hbytes, hreceived]
  change _ ++ accepted depth₁ s.sender.tx.txQueue (txEnq c.toSender) =
    _ ++ queueNext depth₁ s.sender.tx.txQueue (txEnq c.toSender) s.sender.tx.deqReady
  simp only [List.append_assoc]
  rw [← hqueue, ← List.append_assoc bytes, horder, List.append_assoc]

include hwidth hfive in
theorem inv_run (hroom : Along (next divider depth₁ depth₂) (Room depth₂) reset cs) :
    Inv divider depth₁ depth₂ cs (run (next divider depth₁ depth₂) reset cs) :=
  inv_history inv_reset (fun _ _ h hr => h.step hwidth hfive rfl hr) hroom

/-- Nothing is on the way when both sides are idle. -/
theorem Linked.nothing_of_idle (h : Linked divider ph rh s) (hsync : Sync divider ph rh bytes)
    (hidle : Idle s) : bytes = [] := by
  have hrx : rh = .idle := by
    cases rh with
    | idle => rfl
    | bit b n r => exact absurd hidle.receiver h.rx.state_ne_idle
  have htx : ph = .idle := by
    cases ph with
    | idle => rfl
    | loaded b => exact absurd (h.tx.1.state.symm.trans hidle.sender) TxState.noConfusion
    | bit b k p => exact absurd (h.tx.state.symm.trans hidle.sender) TxState.noConfusion
  subst hrx htx
  cases hsync with
  | early hearly =>
    cases hearly with
    | idle => rfl

/-! ### Both sides become idle -/

/-- The cycles until the tick. -/
def wait (divider : Nat) (x : Tx) : Nat := if x.txBaudTick then 0 else divider + 1 - x.txBaudCounter

/-- At most so many cycles until the transmitter has sent everything. -/
def left (divider : Nat) (ph : TxPhase) (x : Tx) : Nat :=
  match ph with
  | .idle =>
    if x.txQueue = [] then 0 else divider + 3 + 10 * (divider + 1) * x.txQueue.length
  | .loaded _ => wait divider x + 1 + 10 * (divider + 1) * (x.txQueue.length + 1)
  | .bit _ k p =>
    10 * (divider + 1) - (k * (divider + 1) + p) + 10 * (divider + 1) * x.txQueue.length

theorem wait_le (x : Tx) : wait divider x ≤ divider + 1 := by
  rw [wait]
  split <;> omega

include hwidth hx in
theorem wait_next (htick : x.txBaudTick = false) (hbaud : x.txBaudCounter ≤ divider) :
    wait divider x' + 1 ≤ wait divider x := by
  have hnow : wait divider x = divider + 1 - x.txBaudCounter := by
    rw [wait, htick]
    rfl
  have hnext : wait divider x' = if (baudNext divider x.txBaudCounter).2 then 0
      else divider + 1 - (baudNext divider x.txBaudCounter).1 := hx ▸ rfl
  rcases lt_or_eq_of_le hbaud with hlt | heq
  · rw [hnow, hnext, baudNext_of_ne hwidth hlt]
    simp only [Bool.false_eq_true, if_false]
    omega
  · rw [hnow, hnext, heq, baudNext_self]
    simp only [if_true]
    omega

include hx in
/-- While nothing is written, the queue only gives bytes away. -/
theorem taken_append_queue (h : Tx.At divider ph x) (hnone : accepted depth x.txQueue enq = []) :
    ph.taken divider x.txQueue ++ x'.txQueue = x.txQueue := by
  have hqueue := removed_append_queueNext depth x.txQueue enq x.deqReady
  rw [h.removed_eq, hnone, List.append_nil] at hqueue
  exact hx ▸ hqueue

theorem left_follow {q : List Byte} (hx : (q.take 1).length + x.txQueue.length = q.length) :
    left divider (TxPhase.follow q) x = 10 * (divider + 1) * q.length := by
  cases q with
  | nil =>
    have hnil : x.txQueue = [] := List.length_eq_zero_iff.mp (by simpa using hx)
    exact if_pos hnil
  | cons b q =>
    have hlength : x.txQueue.length = q.length := by
      simp only [List.take_succ_cons, List.take_zero, List.length_cons, List.length_nil] at hx
      omega
    change 10 * (divider + 1) - (0 * (divider + 1) + 0) + 10 * (divider + 1) * x.txQueue.length = _
    rw [hlength, List.length_cons, Nat.mul_succ (10 * (divider + 1))]
    omega

/-- A bit that is not the last leaves time for another. -/
theorem frame_le (divider : Nat) {k : Nat} (hk : k ≤ 9) :
    k * (divider + 1) + (divider + 1) ≤ 10 * (divider + 1) := by
  rw [← Nat.succ_mul k]
  exact Nat.mul_le_mul_right _ (by omega)

include hwidth hx in
theorem left_next (h : Tx.At divider ph x) (hnone : accepted depth x.txQueue enq = [])
    (hbusy : ¬ (ph = .idle ∧ x.txQueue = [])) :
    left divider (ph.next divider x.txBaudTick x.txQueue) x' + 1 ≤ left divider ph x := by
  have hlength := congrArg List.length (taken_append_queue hx h hnone)
  rw [List.length_append] at hlength
  cases ph with
  | idle =>
    have hwait : wait divider x' ≤ divider + 1 := wait_le _
    cases hq : x.txQueue with
    | nil => exact absurd ⟨rfl, hq⟩ hbusy
    | cons b q =>
      rw [hq] at hlength
      change wait divider x' + 1 + 10 * (divider + 1) * (x'.txQueue.length + 1) + 1 ≤ _
      have hqueue : x'.txQueue.length + 1 = (b :: q).length := by
        rw [← hlength, Nat.add_comm]
        rfl
      rw [left, if_neg (hq ▸ List.cons_ne_nil b q), hqueue, hq]
      omega
  | loaded b =>
    have hqueue : x'.txQueue.length = x.txQueue.length := (Nat.zero_add _).symm.trans hlength
    cases htick : x.txBaudTick with
    | false =>
      have hwait := wait_next hwidth hx htick h.1.baud
      change wait divider x' + 1 + 10 * (divider + 1) * (x'.txQueue.length + 1) + 1 ≤
        wait divider x + 1 + 10 * (divider + 1) * (x.txQueue.length + 1)
      rw [hqueue]
      omega
    | true =>
      change 10 * (divider + 1) - (0 * (divider + 1) + 0) +
          10 * (divider + 1) * x'.txQueue.length + 1 ≤
        wait divider x + 1 + 10 * (divider + 1) * (x.txQueue.length + 1)
      rw [hqueue, Nat.mul_succ (10 * (divider + 1))]
      omega
  | bit b k p =>
    have hframe := frame_le divider h.last
    have hinside := h.inside
    by_cases hp : p = divider
    · by_cases h9 : k = 9
      · subst h9
        obtain ⟨hnext, htaken⟩ := TxPhase.step_of_stop hp
        rw [htaken] at hlength
        rw [hnext, left_follow hlength, left]
        omega
      · obtain ⟨hnext, htaken⟩ := TxPhase.step_of_bit hp h9
        rw [htaken, List.length_nil, Nat.zero_add] at hlength
        rw [hnext, left, left, hlength, Nat.succ_mul k]
        omega
    · obtain ⟨hnext, htaken⟩ := TxPhase.step_of_wait hp
      rw [htaken, List.length_nil, Nat.zero_add] at hlength
      rw [hnext, left, left, hlength]
      omega

/-- The transmitter has something to send, or it is idle with an empty queue. -/
theorem left_eq_zero (h : Tx.At divider ph x) (hzero : left divider ph x = 0) :
    ph = .idle ∧ x.txQueue = [] := by
  cases ph with
  | idle =>
    refine ⟨rfl, ?_⟩
    by_contra hq
    rw [left, if_neg hq] at hzero
    omega
  | loaded => exact absurd hzero (by rw [left]; omega)
  | bit b k p =>
    have hframe := frame_le divider h.last
    have hinside := h.inside
    rw [left] at hzero
    omega

/-- At most so many cycles until the receiver is idle, when the line is. -/
def rxLeft (divider : Nat) : RxPhase → Nat
  | .idle => 0
  | .bit _ _ r => divider + 2 - r

/-- At most so many cycles until both sides are idle. -/
def rank (divider : Nat) (ph : TxPhase) (rh : RxPhase) (x : Tx) : Nat :=
  if left divider ph x = 0 then rxLeft divider rh else left divider ph x + 3

/-- The receiver is not far behind. -/
theorem Sync.rxLeft_le (h : Sync divider .idle rh bytes) : rxLeft divider rh ≤ 3 := by
  cases h with
  | early => exact Nat.zero_le 3
  | late hearly soon => rw [rxLeft]; omega

theorem Sync.rxLeft_next {received : List Byte} {line : Bool}
    (h : Sync divider .idle rh bytes) (hline : line = true)
    (hmove : rh.Moves divider line received rh') :
    rxLeft divider rh' ≤ rxLeft divider rh - 1 := by
  cases hmove with
  | high => exact Nat.le_refl 0
  | low b => exact absurd hline Bool.false_ne_true
  | wait inside => rw [rxLeft, rxLeft]; omega
  | stop => exact Nat.zero_le _
  | sample more =>
    cases h with
    | late => exact absurd more (Nat.lt_irrefl 9)

/-- At most `bound` cycles are left. -/
def Within (divider bound : Nat) (s : State) : Prop :=
  ∃ ph rh bytes, Linked divider ph rh s ∧ Sync divider ph rh bytes ∧
    rank divider ph rh s.sender.tx ≤ bound

include hwidth hfive in
theorem Within.step {bound : Nat} (h : Within divider bound s) (hnone : written depth₁ s c = []) :
    Within divider (bound - 1) (next divider depth₁ depth₂ s c) := by
  obtain ⟨ph, rh, bytes, hlinked, hsync, hrank⟩ := h
  obtain ⟨rh', new, bytes', hmove, hsync', horder⟩ := hlinked.steps hfive hsync
  have hlinked' : Linked divider _ rh' (next divider depth₁ depth₂ s c) :=
    hlinked.step hwidth hfive hmove c
  refine ⟨_, rh', bytes', hlinked', hsync', le_trans ?_ (Nat.sub_le_sub_right hrank 1)⟩
  by_cases hzero : left divider ph s.sender.tx = 0
  · obtain ⟨rfl, hq⟩ := left_eq_zero hlinked.tx hzero
    have hqueue := taken_append_queue rfl hlinked.tx hnone
    have hphase : TxPhase.next divider s.sender.tx.txBaudTick .idle s.sender.tx.txQueue =
        .idle := by
      rw [hq]
      rfl
    have hzero' : left divider .idle (next divider depth₁ depth₂ s c).sender.tx = 0 := by
      refine if_pos (List.append_eq_nil_iff.mp (hqueue.trans hq)).2
    rw [hphase, rank, if_pos hzero', rank, if_pos hzero]
    exact Sync.rxLeft_next hsync rfl hmove
  · have hless : left divider _ (next divider depth₁ depth₂ s c).sender.tx + 1 ≤ _ :=
      left_next hwidth rfl hlinked.tx hnone fun hidle => hzero (hidle.1 ▸ if_pos hidle.2)
    rw [rank, rank, if_neg hzero]
    split
    · rename_i hzero'
      rw [(left_eq_zero hlinked'.tx hzero').1] at hsync'
      have hle := Sync.rxLeft_le hsync'
      omega
    · omega

theorem Within.idle (h : Within divider 0 s) : Idle s := by
  obtain ⟨ph, rh, bytes, hlinked, hsync, hrank⟩ := h
  have hzero : left divider ph s.sender.tx = 0 := by
    by_contra hne
    rw [rank, if_neg hne] at hrank
    omega
  rw [rank, if_pos hzero] at hrank
  obtain ⟨rfl, hq⟩ := left_eq_zero hlinked.tx hzero
  have hrx : rh = .idle := by
    cases rh with
    | idle => rfl
    | bit b n r =>
      have hr := hlinked.rx.inside
      rw [rxLeft] at hrank
      omega
  subst hrx
  exact ⟨hlinked.tx.state, hq, hlinked.rx.state⟩

include hwidth hfive in
theorem Within.idle_run {bound : Nat} (h : Within divider bound s)
    (hnone : Along (next divider depth₁ depth₂) (fun s c => written depth₁ s c = []) s cs)
    (hlong : bound ≤ cs.length) : Idle (run (next divider depth₁ depth₂) s cs) := by
  have key : Within divider (bound - cs.length) (run (next divider depth₁ depth₂) s cs) := by
    clear hlong
    induction cs generalizing s bound with
    | nil => exact h
    | cons c cs ih =>
      have hstep := ih (h.step hwidth hfive hnone.1) hnone.2
      rwa [Nat.sub_sub, add_comm 1] at hstep
  rw [Nat.sub_eq_zero_of_le hlong] at key
  exact key.idle

/-- Ten bits for each byte in the queue, for the byte on the line and for the start. -/
theorem rank_le (h : Linked divider ph rh s) :
    rank divider ph rh s.sender.tx ≤ 10 * (divider + 1) * (s.sender.tx.txQueue.length + 2) := by
  have hmul : ∀ n, 10 * (divider + 1) * (n + 2) = 10 * (divider + 1) * n + 20 * (divider + 1) := by
    intro n
    rw [Nat.mul_add]
    omega
  have hleft : left divider ph s.sender.tx + 3 ≤
      10 * (divider + 1) * (s.sender.tx.txQueue.length + 2) := by
    rw [hmul]
    cases ph with
    | idle =>
      rw [left]
      split <;> omega
    | loaded b =>
      have hwait : wait divider s.sender.tx ≤ divider + 1 := wait_le _
      rw [left, Nat.mul_succ (10 * (divider + 1))]
      omega
    | bit b k p =>
      rw [left]
      omega
  rw [rank]
  split
  · cases rh with
    | idle => exact Nat.zero_le _
    | bit b n r =>
      rw [rxLeft, hmul]
      omega
  · exact hleft

/-! ### The line delivers every byte -/

/-- **What enters the receive queue is at every time the first part of what was written, and all of
    it when both sides are idle; and they become idle when nothing is written for some time.** -/
theorem loopback (divider depth₁ depth₂ : Nat) (hfive : 5 ≤ divider) (hpow : ∀ k, divider ≠ 2 ^ k)
    (cs : List Cycle) (hroom : Along (next divider depth₁ depth₂) (Room depth₂) reset cs) :
    emitted (next divider depth₁ depth₂) (received depth₂) reset cs <+:
        emitted (next divider depth₁ depth₂) (written depth₁) reset cs ∧
      (Idle (run (next divider depth₁ depth₂) reset cs) →
        emitted (next divider depth₁ depth₂) (received depth₂) reset cs =
          emitted (next divider depth₁ depth₂) (written depth₁) reset cs) ∧
      ∀ quiet : List Cycle,
        Along (next divider depth₁ depth₂) (fun s c => written depth₁ s c = [])
          (run (next divider depth₁ depth₂) reset cs) quiet →
        10 * (divider + 1) *
            ((run (next divider depth₁ depth₂) reset cs).sender.tx.txQueue.length + 2) ≤
              quiet.length →
        Idle (run (next divider depth₁ depth₂) reset (cs ++ quiet)) := by
  have hwidth : divider < 2 ^ MemBlock.log2Up divider :=
    lt_of_le_of_ne (MemBlock.le_pow_log2Up divider) (hpow _)
  obtain ⟨ph, rh, bytes, hlinked, hsync, hbytes⟩ := inv_run hwidth hfive hroom
  refine ⟨?_, fun hidle => ?_, fun quiet hnone hlong => ?_⟩
  · rw [hbytes, List.append_assoc]
    exact List.prefix_append _ _
  · rw [hbytes, hlinked.nothing_of_idle hsync hidle, hidle.queue, List.append_nil, List.append_nil]
  · rw [run_append]
    exact Within.idle_run hwidth hfive ⟨ph, rh, bytes, hlinked, hsync, rank_le hlinked⟩ hnone hlong

/-! ### Two bytes in a row -/

instance (s : State) (c : Cycle) : Decidable (Room depth₂ s c) :=
  inferInstanceAs (Decidable (_ → _))

/-- A cycle in which the sender gets command `m`. -/
def give (m : CacheMaster) : Cycle := ⟨m, nothing, true, 0, 0⟩

/-- Two bytes are written, and the line is given time to send them. -/
def twoBytes : List Cycle :=
  [give ⟨.wr, 4, fun _ => 0x53, allBytes⟩, give ⟨.wr, 4, fun _ => 0xA6, allBytes⟩] ++
    List.replicate 140 (give nothing)

theorem five_ne_pow (k : Nat) : 5 ≠ 2 ^ k := by
  match k with
  | 0 => decide
  | 1 => decide
  | 2 => decide
  | k + 3 =>
    have hpow : 2 ^ (k + 3) = 8 * 2 ^ k := by rw [Nat.pow_add, Nat.mul_comm]
    omega

theorem twoBytes_delivered :
    Along (next 5 2 2) (Room 2) reset twoBytes ∧
      emitted (next 5 2 2) (received 2) reset twoBytes = [0x53, 0xA6] := by
  have hroom : Along (next 5 2 2) (Room 2) reset twoBytes := by decide +kernel
  have hidle : Idle (run (next 5 2 2) reset twoBytes) :=
    ⟨by decide +kernel, by decide +kernel, by decide +kernel⟩
  have hwritten : emitted (next 5 2 2) (written 2) reset twoBytes =
      [0x53, 0xA6] := by decide +kernel
  exact ⟨hroom, ((loopback 5 2 2 (by decide) five_ne_pow twoBytes hroom).2.1 hidle).trans hwritten⟩

end Link

end Patmos.Uart
