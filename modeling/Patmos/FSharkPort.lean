import Patmos.FShark

/-!
# The OCP port of the capture device

A read may wait through several states of the device before a word is there for it.  The
observer keeps the command that has no answer yet, and counts what passes the port.
-/

namespace Patmos.FShark

open Clocked Ocp

/-- The device, the command that waits for its answer, the numbers of commands and answers, the
    words dequeued for the processor and the words it got. -/
structure Port where
  dev : Device
  pending : OcpCmd
  issued : Nat
  answered : Nat
  dequeued : List Nat
  returned : List Nat

namespace Port

def next (y : Port) (i : Signals) : Port where
  dev := FShark.next y.dev i
  pending := if i.cmd ≠ .idle then i.cmd
    else if y.dev.regs.respReg = .dva then .idle else y.pending
  issued := y.issued + if i.cmd ≠ .idle then 1 else 0
  answered := y.answered + if y.dev.regs.respReg = .dva then 1 else 0
  dequeued := y.dequeued ++ if y.dev.regs.stateReg = .emptyToPatmos then
    MemFifo.deliveredAt y.dev.fifo (fifoInputs y.dev i) else []
  returned := y.returned ++ if y.dev.regs.respReg = .dva ∧ y.pending = .rd then
    [y.dev.regs.dataReg] else []

structure IsReset (y : Port) : Prop where
  dev : y.dev.IsReset
  pending : y.pending = .idle
  issued : y.issued = 0
  answered : y.answered = 0
  dequeued : y.dequeued = []
  returned : y.returned = []

/-- A new command comes at the earliest with the answer to the one before. -/
def Legal (y : Port) (i : Signals) : Prop :=
  i.cmd ≠ .idle → y.pending = .idle ∨ y.dev.regs.respReg = .dva

instance (y : Port) (i : Signals) : Decidable (Legal y i) := inferInstanceAs (Decidable (_ → _))

/-- The word that the answer of this cycle gives to a read. -/
def onPort (y : Port) : List Nat :=
  if y.dev.regs.respReg = .dva ∧ y.pending = .rd then [y.dev.regs.dataReg] else []

structure Inv (y : Port) : Prop where
  resp : y.dev.regs.respReg = .dva → y.pending ≠ .idle
  write : y.pending = .wr → y.dev.regs.respReg = .dva
  hold : y.dev.regs.readHolder = decide (y.pending = .rd)
  count : y.issued = y.answered + if y.pending = .idle then 0 else 1
  words : y.dequeued = y.returned ++ y.onPort

theorem IsReset.inv {y : Port} (h : y.IsReset) : Inv y where
  resp := by simp [h.dev.respReg]
  write := by simp [h.pending]
  hold := by simp [h.dev.readHolder, h.pending]
  count := by simp [h.issued, h.answered, h.pending]
  words := by simp [onPort, h.dequeued, h.returned, h.dev.respReg]

variable {y : Port} {i : Signals}

theorem next_regs (d : Device) (i : Signals) :
    (FShark.next d i).regs.respReg = (if i.cmd = .wr ∨ d.regs.stateReg = .emptyToPatmos ∧
        sendToPatmos d.regs i.cmd = true ∧ MemFifo.deqValid d.fifo = true then .dva else .null) ∧
      (FShark.next d i).regs.readHolder = sendToPatmos d.regs i.cmd ∧
      (FShark.next d i).regs.dataReg = MemFifo.deqBits d.fifo := by
  have hfsm : (fsm d i (defaults d)).respReg = (if d.regs.stateReg = .emptyToPatmos ∧
        sendToPatmos d.regs i.cmd = true ∧ MemFifo.deqValid d.fifo = true then .dva else .null) ∧
      (fsm d i (defaults d)).readHolder = d.regs.readHolder ∧
      (fsm d i (defaults d)).dataReg = MemFifo.deqBits d.fifo := by
    unfold fsm defaults
    cases d.regs.stateReg <;> simp only <;> repeat' split
    all_goals simp_all
  obtain ⟨hresp, hhold, hdata⟩ := hfsm
  unfold FShark.next ocpWrite sendToPatmos
  cases hcmd : i.cmd <;> by_cases hdva : d.regs.respReg = .dva <;>
    simp_all [sendToPatmos] <;> split <;> simp_all

/-- A read is sent on exactly while it waits. -/
theorem Inv.send (h : Inv y) (hleg : Legal y i) :
    sendToPatmos y.dev.regs i.cmd = decide ((y.next i).pending = .rd) := by
  have hhold := h.hold
  unfold sendToPatmos next
  cases hcmd : i.cmd with
  | rd => simp
  | idle =>
    by_cases hdva : y.dev.regs.respReg = .dva
    · simp [hdva]
    · simp [hdva, hhold]
  | wr =>
    by_cases hdva : y.dev.regs.respReg = .dva
    · simp [hdva]
    · have hidle : y.pending = .idle := (hleg (by simp [hcmd])).resolve_right hdva
      simp [hdva, hhold, hidle]

/-- The words dequeued in a cycle are on the port in the next one. -/
theorem Inv.delivered (h : Inv y) (hleg : Legal y i) :
    (if y.dev.regs.stateReg = .emptyToPatmos then
      MemFifo.deliveredAt y.dev.fifo (fifoInputs y.dev i) else []) = (y.next i).onPort := by
  obtain ⟨hresp, -, hdata⟩ := next_regs y.dev i
  have hsend := h.send hleg
  have hport : (y.next i).onPort = if (FShark.next y.dev i).regs.respReg = .dva ∧
      (y.next i).pending = .rd then [(FShark.next y.dev i).regs.dataReg] else [] := rfl
  rw [hport, hresp, hdata]
  by_cases hread : (y.next i).pending = .rd
  · have hcmd : i.cmd ≠ .wr := by
      intro hwr
      simp [next, hwr] at hread
    by_cases hstate : y.dev.regs.stateReg = .emptyToPatmos
    · cases hv : MemFifo.deqValid y.dev.fifo <;>
        simp [MemFifo.deliveredAt, fifoInputs, deqReady, hstate, hsend, hread, hcmd, hv]
    · simp [hstate, hcmd]
  · by_cases hstate : y.dev.regs.stateReg = .emptyToPatmos
    · simp [MemFifo.deliveredAt, fifoInputs, deqReady, hstate, hsend, hread]
    · simp [hstate, hread]

theorem Inv.step (h : Inv y) (hleg : Legal y i) : Inv (y.next i) := by
  obtain ⟨hresp, hhold, -⟩ := next_regs y.dev i
  have hsend := h.send hleg
  constructor
  · intro hdva hidle
    have hcmd : i.cmd = .idle := by
      by_contra hne
      simp [next, hne] at hidle
    rw [show (y.next i).dev = FShark.next y.dev i from rfl, hresp, hsend, hidle] at hdva
    simp [hcmd] at hdva
  · intro hwr
    have hcmd : i.cmd = .wr := by
      by_contra hne
      have hwrite := h.write
      revert hwr
      simp only [next]
      split_ifs <;> simp_all
    exact hresp.trans (if_pos (.inl hcmd))
  · exact hhold.trans hsend
  · have hcount := h.count
    have hlate := h.resp
    simp only [next]
    by_cases hcmd : i.cmd = .idle
    · by_cases hdva : y.dev.regs.respReg = .dva <;> simp_all
    · rcases hleg hcmd with hidle | hdva
      · have hnone : y.dev.regs.respReg ≠ .dva := fun hdva => hlate hdva hidle
        simp_all
      · simp_all
  · rw [← h.delivered hleg]
    simp only [next]
    rw [h.words, List.append_assoc, List.append_assoc]
    rfl

/-- **Every command is answered once and every word is read once.**  The answers are as many as
    the commands, or one less; a write is answered in the next cycle; the words that reads
    return are those dequeued for them, the last of which may be on the port just now. -/
theorem answered_once {is : List Signals} (hreset : y.IsReset) (hrun : Along next Legal y is) :
    ((run next y is).answered ≤ (run next y is).issued ∧
        (run next y is).issued ≤ (run next y is).answered + 1) ∧
      (∀ i, i.cmd = .wr → (run next y (is ++ [i])).dev.regs.respReg = .dva) ∧
      (run next y is).dequeued = (run next y is).returned ++ (run next y is).onPort := by
  have hinv : Inv (run next y is) := inv_run (fun _ _ h hleg => h.step hleg) hreset.inv hrun
  refine ⟨?_, ?_, hinv.words⟩
  · have hcount := hinv.count
    split at hcount <;> omega
  · intro i hwr
    rw [run_concat]
    exact (next_regs _ i).1.trans (if_pos (.inl hwr))

def signals (cmd : OcpCmd) (endOfFrame : Bool) : Signals :=
  ⟨cmd, 0, 0, endOfFrame, false, endOfFrame, 7, 0⟩

/-- A word is recorded; the trigger is written, and a read that comes with its answer waits for
    the word. -/
def readOne : List Signals :=
  [signals .idle true, signals .wr false, signals .rd false] ++
    List.replicate 4 (signals .idle false)

def quiet : Port := ⟨powerUp, .idle, 0, 0, [], []⟩

theorem readOne_answered_once : (run next quiet readOne).returned = [7] ∧
    (run next quiet readOne).dequeued =
      (run next quiet readOne).returned ++ (run next quiet readOne).onPort :=
  ⟨by decide +kernel,
    (answered_once ⟨powerUp_isReset, rfl, rfl, rfl, rfl, rfl⟩ (by decide +kernel)).2.2⟩

end Port

end Patmos.FShark
