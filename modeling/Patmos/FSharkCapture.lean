import Patmos.FShark

/-!
# Whole frames for the processor

After the trigger the device waits for the end of the current frame and then stops
the copy from the circular buffer into the FIFO, so that the reader loop of
`VeriMAC` finds whole frames: a header `h` and then `h / 2 + 1` words.

`waitForEOF` ends with the header beat of a frame at the *input* of the circular
buffer, or when the buffer offers no word.  The copy runs behind: it is stopped one
cycle later, when the header has already gone into the FIFO, and a full FIFO looks
like a buffer without a word.  When neither happens, the FIFO holds whole frames as
long as the processor reads.
-/

namespace Patmos.FShark

open Clocked Ocp Frames

/-! ### The reader -/

/-- The loop in `main` of `VeriMAC.c` on the words it reads: a header `h`, then the words
    `0 .. h / 2`.  It fails when a header lacks its payload. -/
def readLoop : Nat → List Nat → Option (List (List Nat))
  | _, [] => some []
  | 0, _ => none
  | n + 1, h :: ws =>
    if h / 2 + 1 ≤ ws.length then
      (readLoop n (ws.drop (h / 2 + 1))).map (ws.take (h / 2 + 1) :: ·)
    else none

def readFrames (ws : List Nat) : Option (List (List Nat)) := readLoop ws.length ws

/-- The words of whole frames, each with its header. -/
def IsWhole (ws : List Nat) : Prop := ∃ fs, (∀ f ∈ fs, f ≠ []) ∧ ws = stream fs

theorem readLoop_stream {fs : List (List Nat)} (hfs : ∀ f ∈ fs, f ≠ []) {n : Nat}
    (hn : fs.length ≤ n) : readLoop n (stream fs) = some fs := by
  induction fs generalizing n with
  | nil => cases n <;> rfl
  | cons f fs ih =>
    obtain ⟨m, rfl⟩ : ∃ m, n = m + 1 := ⟨n - 1, by simp at hn; omega⟩
    have hpos : 0 < f.length := List.length_pos_iff.mpr (hfs f (by simp))
    have hwords : header f / 2 + 1 = f.length := by
      unfold header
      omega
    have htail : readLoop m (stream fs) = some fs :=
      ih (fun g hg => hfs g (by simp [hg])) (by simpa using hn)
    rw [stream_cons, encode, List.cons_append, readLoop, hwords, if_pos (by simp)]
    simp [htail]

/-- The reader consumes whole frames and recovers them. -/
theorem readFrames_stream {fs : List (List Nat)} (hfs : ∀ f ∈ fs, f ≠ []) :
    readFrames (stream fs) = some fs := by
  refine readLoop_stream hfs ?_
  clear hfs
  induction fs with
  | nil => simp
  | cons f fs ih =>
    simp only [stream_cons, List.length_append, encode_length, List.length_cons]
    omega

theorem not_isWhole_of_readFrames {ws : List Nat} (h : readFrames ws = none) : ¬ IsWhole ws := by
  rintro ⟨fs, hfs, rfl⟩
  rw [readFrames_stream hfs] at h
  exact absurd h (by simp)

/-! ### The conditions on a cycle -/

namespace Capture

/-- The filter keeps the framing of the bus and closes no frame while the buffer drains
    another one: the buffer then offers a concatenation of frames. -/
structure Framed (y : Capture) (i : CaptureInputs) : Prop where
  legal : CircularBuffer.Legal y.buf (bufInputs y i)
  drained : CircularBuffer.HeaderAfterDrain y.buf (bufInputs y i)

/-- In `waitForEOF` no frame is closed, and the FIFO has room while a frame is being
    copied. -/
structure Settled (y : Capture) (i : CaptureInputs) : Prop where
  quiet : y.dev.regs.stateReg = .waitForEOF → i.beat.addHeader = false
  room : y.dev.regs.stateReg = .waitForEOF → y.buf.st.readFrom = true →
    y.dev.fifo.fullReg = false

instance (y : Capture) (i : CaptureInputs) : Decidable (Framed y i) :=
  decidable_of_iff (_ ∧ _) ⟨fun ⟨a, b⟩ => ⟨a, b⟩, fun ⟨a, b⟩ => ⟨a, b⟩⟩

instance (y : Capture) (i : CaptureInputs) : Decidable (Settled y i) :=
  decidable_of_iff (_ ∧ _) ⟨fun ⟨a, b⟩ => ⟨a, b⟩, fun ⟨a, b⟩ => ⟨a, b⟩⟩

def IsReset (y : Capture) : Prop := y.dev.IsReset ∧ y.buf.IsReset

/-- The words enqueued into the FIFO along a run. -/
def enqueued (y : Capture) (is : List CaptureInputs) : List Nat :=
  emitted next (fun y i => MemFifo.storedAt y.dev.fifo (fifoInputs y.dev (signals y i))) y is

theorem enqueued_eq (y : Capture) (is : List CaptureInputs) :
    y.buf.bus.out ++ enqueued y is = (run next y is).buf.bus.out := by
  induction is generalizing y with
  | nil => simp [enqueued]
  | cons i is ih =>
    have hstep : (next y i).buf.bus.out =
        y.buf.bus.out ++ MemFifo.storedAt y.dev.fifo (fifoInputs y.dev (signals y i)) := by
      rw [storedAt_eq]
      rfl
    rw [run_cons, ← ih, hstep, List.append_assoc]
    rfl

/-! ### The invariant -/

structure Inv (y : Capture) : Prop where
  buffer : ∃ rem, CircularBuffer.Inv y.buf rem
  kept : ∀ f ∈ y.buf.bus.kept, f ≠ []
  open_ : y.dev.regs.writeToFIFO = true ∨ y.dev.regs.stateReg = .emptyToPatmos
  whole : y.dev.regs.stateReg = .emptyToPatmos → IsWhole y.buf.bus.out
  shut : y.dev.regs.stateReg = .emptyToPatmos →
    y.buf.st.readFrom = false ∨ y.dev.regs.writeToFIFO = false

theorem IsReset.inv {y : Capture} (hy : y.IsReset) : Inv y := by
  obtain ⟨hdev, hbuf⟩ := hy
  refine ⟨⟨[], hbuf.inv⟩, ?_, .inl hdev.writeToFIFO, ?_, ?_⟩
  · intro f hf
    simp [hbuf.2] at hf
  · intro hst
    simp [hdev.stateReg] at hst
  · intro hst
    simp [hdev.stateReg] at hst

section Step

variable {y : Capture} {i : CaptureInputs}

/-- Nothing leaves the buffer when its reader rests or the FIFO is closed. -/
theorem transferredAt_eq_nil (h : y.buf.st.readFrom = false ∨ y.dev.regs.writeToFIFO = false) :
    CircularBuffer.transferredAt y.buf.st (bufInputs y i) = [] := by
  rcases h with h | h <;>
    simp [CircularBuffer.transferredAt, CircularBuffer.deqValid, bufInputs, enqReady, h]

/-- A frame is kept only when its header beat follows its data beats. -/
theorem kept_step (hkept : ∀ f ∈ y.buf.bus.kept, f ≠ []) (hlegal : Framed y i) :
    ∀ f ∈ (next y i).buf.bus.kept, f ≠ [] := by
  intro f hf
  have hmem : f ∈ y.buf.bus.kept ∨ (i.beat.addHeader = true ∧ f = y.buf.bus.cur) := by
    have hnext : (next y i).buf.bus.kept = if (i.beat.valid && i.beat.addHeader) = true then
      y.buf.bus.kept ++ [y.buf.bus.cur] else y.buf.bus.kept := rfl
    rw [hnext] at hf
    by_cases hb : (i.beat.valid && i.beat.addHeader) = true
    · rw [if_pos hb] at hf
      rcases List.mem_append.mp hf with h | h
      · exact .inl h
      · exact .inr ⟨(Bool.and_eq_true _ _ ▸ hb).2, by simpa using h⟩
    · rw [if_neg hb] at hf
      exact .inl hf
  rcases hmem with h | ⟨hhead, rfl⟩
  · exact hkept f h
  · -- a legal header beat closes at least two data beats
    rcases hlegal.legal with hidle | ⟨-, hdata | ⟨hcur, -⟩⟩
    · simp [CircularBuffer.Beat.isIdle, bufInputs, hhead] at hidle
    · simp [CircularBuffer.Beat.isData, bufInputs, hhead] at hdata
    · intro hnil
      simp [hnil] at hcur

/-- In `emptyToPatmos` nothing more is enqueued. -/
theorem whole_of_emptyToPatmos (h : Inv y) (hst : y.dev.regs.stateReg = .emptyToPatmos) :
    IsWhole (next y i).buf.bus.out := by
  have hout : (next y i).buf.bus.out =
      y.buf.bus.out ++ CircularBuffer.transferredAt y.buf.st (bufInputs y i) := rfl
  rw [hout, transferredAt_eq_nil (h.shut hst), List.append_nil]
  exact h.whole hst

/-- A settled device leaves `waitForEOF` only when the buffer is drained. -/
theorem readFrom_of_leaves (h : Inv y) (hset : Settled y i)
    (hst : y.dev.regs.stateReg = .waitForEOF)
    (hnext : (next y i).dev.regs.stateReg = .emptyToPatmos) : y.buf.st.readFrom = false := by
  have hleave : (i.beat.addHeader || (!CircularBuffer.frameRecieving y.buf.st (enqReady y.dev) &&
      !CircularBuffer.deqValid y.buf.st (enqReady y.dev))) = true := by
    by_contra hno
    have hstay := (next_control y.dev (signals y i)).1
    simp only [hst, signals, CircularBuffer.endOfFrame, hno] at hstay
    rw [show (next y i).dev.regs.stateReg = .waitForEOF from hstay] at hnext
    exact absurd hnext (by simp)
  rw [hset.quiet hst, Bool.false_or, Bool.and_eq_true] at hleave
  by_contra hread
  have hread : y.buf.st.readFrom = true := by simpa using hread
  have hopen : y.dev.regs.writeToFIFO = true := by
    rcases h.open_ with hw | he
    · exact hw
    · rw [hst] at he
      exact absurd he (by simp)
  have hvalid : CircularBuffer.deqValid y.buf.st (enqReady y.dev) = true := by
    simp [CircularBuffer.deqValid, enqReady, hread, hopen, hset.room hst hread]
  simp [hvalid] at hleave

/-- With the reader at rest everything kept has been transferred. -/
theorem whole_of_drained (h : Inv y) (hread : y.buf.st.readFrom = false) :
    IsWhole (next y i).buf.bus.out := by
  obtain ⟨rem, hrem⟩ := h.buffer
  have hnil : rem = [] := by
    have := hrem.readFrom_eq
    rw [hread] at this
    simpa using this
  refine ⟨y.buf.bus.kept, h.kept, ?_⟩
  have hout : (next y i).buf.bus.out =
      y.buf.bus.out ++ CircularBuffer.transferredAt y.buf.st (bufInputs y i) := rfl
  rw [hout, transferredAt_eq_nil (.inl hread), List.append_nil, ← hrem.out_eq, hnil,
    List.append_nil]

theorem readFrom_step (hread : y.buf.st.readFrom = false) (hhead : i.beat.addHeader = false) :
    (next y i).buf.st.readFrom = false := by
  simp [next, CircularBuffer.Sys.next, CircularBuffer.next_eq, bufInputs, CircularBuffer.reads,
    hread, hhead]

theorem Inv.step (h : Inv y) (hframed : Framed y i) (hset : Settled y i) : Inv (next y i) := by
  obtain ⟨rem, hrem⟩ := h.buffer
  have hfrom : (next y i).dev.regs.stateReg = .emptyToPatmos →
      y.dev.regs.stateReg = .emptyToPatmos ∨ y.dev.regs.stateReg = .waitForEOF := by
    intro hnext
    rw [show (next y i).dev.regs.stateReg = _ from (next_control y.dev (signals y i)).1] at hnext
    cases hst : y.dev.regs.stateReg with
    | emptyToPatmos => exact .inl rfl
    | waitForEOF => exact .inr rfl
    | idle | fill | fillEmpty =>
      simp only [hst] at hnext
      repeat' split at hnext
      all_goals exact absurd hnext (by simp)
  refine ⟨⟨_, hrem.step hframed.legal hframed.drained⟩, kept_step h.kept hframed,
    writeToFIFO_step _ _ h.open_, ?_, ?_⟩
  · intro hnext
    rcases hfrom hnext with hst | hst
    · exact whole_of_emptyToPatmos h hst
    · exact whole_of_drained h (readFrom_of_leaves h hset hst hnext)
  · intro hnext
    rcases hfrom hnext with hst | hst
    · -- a device that stays in `emptyToPatmos` has closed the FIFO
      refine .inr ?_
      have hstay := (next_control y.dev (signals y i)).1
      rw [show (next y i).dev.regs.writeToFIFO = _ from (next_control y.dev (signals y i)).2.2]
      rw [show (FShark.next y.dev (signals y i)).regs.stateReg = _ from hnext] at hstay
      simp only [hst] at hstay ⊢
      by_contra hleave
      rw [if_pos (by simpa using hleave)] at hstay
      exact absurd hstay (by simp)
    · exact .inl (readFrom_step (readFrom_of_leaves h hset hst hnext) (hset.quiet hst))

end Step

/-- **Whole frames.**  In every run in which the buffer offers a concatenation of frames
    and `waitForEOF` sees neither the end of another frame nor a full FIFO in the middle
    of a copy, the words enqueued whenever the device is in `emptyToPatmos` are whole
    frames, and the reader loop recovers them. -/
theorem whole_of_settled {y : Capture} {is : List CaptureInputs} (hy : y.IsReset)
    (h : Along next (fun y i => Framed y i ∧ Settled y i) y is)
    (hst : (run next y is).dev.regs.stateReg = .emptyToPatmos) :
    ∃ fs, (∀ f ∈ fs, f ≠ []) ∧ enqueued y is = stream fs ∧
      readFrames (enqueued y is) = some fs := by
  have hinv : Inv (run next y is) :=
    inv_run (I := Inv) (fun _ _ hinv hP => hinv.step hP.1 hP.2) hy.inv h
  obtain ⟨fs, hfs, hout⟩ := hinv.whole hst
  have henq : enqueued y is = stream fs := by
    have := enqueued_eq y is
    rw [hy.2.2, List.nil_append] at this
    rw [this, hout]
  exact ⟨fs, hfs, henq, by rw [henq]; exact readFrames_stream hfs⟩

/-! ### A header without its payload -/

/-- The device and the buffer out of reset. -/
def powerUp : Capture where
  dev := FShark.powerUp
  buf := CircularBuffer.powerUp

theorem powerUp_isReset : powerUp.IsReset :=
  ⟨FShark.powerUp_isReset, CircularBuffer.powerUp_isReset⟩

/-- A cycle with a beat on the bus and an idle processor. -/
def onBus (beat : CircularBuffer.Beat) : CaptureInputs := ⟨beat, .idle, 0, 0, 0⟩

def dataCycle (w : Nat) : CaptureInputs := onBus ⟨true, false, false, w⟩

def headerCycle (w : Nat) : CaptureInputs := onBus ⟨true, false, true, 2 * (w - 1)⟩

def idleCycle : CaptureInputs := onBus ⟨false, false, false, 0⟩

/-- The processor writes the trigger register. -/
def triggerCycle : CaptureInputs := ⟨⟨false, false, false, 0⟩, .wr, 0, 1, 0⟩

/-- The trigger, a frame of two words, and the header beat of a second one in the cycle
    after the first has been copied. -/
def overrun : List CaptureInputs :=
  [triggerCycle, dataCycle 11, dataCycle 12, headerCycle 2, dataCycle 21, dataCycle 22,
    idleCycle, headerCycle 2, idleCycle]

theorem overrun_not_whole :
    Along next Framed powerUp overrun ∧
      (run next powerUp overrun).dev.regs.stateReg = .emptyToPatmos ∧
      enqueued powerUp overrun = [2, 11, 12, 2] ∧ ¬ IsWhole (enqueued powerUp overrun) := by
  have henq : enqueued powerUp overrun = [2, 11, 12, 2] := by decide +kernel
  refine ⟨by decide +kernel, by decide +kernel, henq, ?_⟩
  rw [henq]
  exact not_isWhole_of_readFrames (by decide)

/-- One frame, copied before the device stops. -/
def single : List CaptureInputs :=
  [triggerCycle, dataCycle 11, dataCycle 12, headerCycle 2, idleCycle, idleCycle, idleCycle,
    idleCycle]

theorem single_whole : ∃ fs, (∀ f ∈ fs, f ≠ []) ∧ enqueued powerUp single = stream fs ∧
    readFrames (enqueued powerUp single) = some fs :=
  whole_of_settled powerUp_isReset (by decide +kernel) (by decide +kernel)

end Capture

end Patmos.FShark
