import Patmos.Select
import Patmos.Uart

/-!
# The UART of several cores

`UartCmp` gives the command of the first core that has one to the UART, and the response of the UART
to every core that has sent a command.  A command is answered in the next cycle, so every core may
send one in every cycle.

The cores are promised that each command is executed once and that each core gets the answer to its
own command.
-/

namespace Patmos.UartCmp

open Ocp Clocked Uart

/-! ### The circuit -/

/-- The UART, and `cmdReg` of each core. -/
structure State (corecnt : Nat) where
  uart : Uart.State
  cmdReg : Fin corecnt → Bool

structure Cycle (corecnt : Nat) where
  cores : Fin corecnt → CacheMaster
  rx : Bool
  unknown : Byte

variable {corecnt : Nat}

/-- The signals of the last core, which `PriorityMux` takes when there is no command. -/
def lastCore (c : Cycle corecnt) : CacheMaster :=
  if h : 0 < corecnt then c.cores ⟨corecnt - 1, by omega⟩ else ⟨.idle, 0, fun _ => 0, noBytes⟩

/-- `uart.io.ocp.M`. -/
def toUart (c : Cycle corecnt) : CacheMaster :=
  Select.pickFirst (fun i => (c.cores i).cmd != .idle) c.cores (lastCore c)

/-- `io.cores(i).S`. -/
def toCore (s : State corecnt) (i : Fin corecnt) : OcpResp × Byte :=
  (if s.cmdReg i then s.uart.respReg else .null, s.uart.rdDataReg)

def next (divider depth : Nat) (s : State corecnt) (c : Cycle corecnt) : State corecnt where
  uart := Uart.next divider depth s.uart ⟨toUart c, c.rx, c.unknown⟩
  cmdReg i := if (c.cores i).cmd ≠ .idle then true
    else if s.uart.respReg = .dva then false else s.cmdReg i

def reset : State corecnt := ⟨Uart.reset, fun _ => false⟩

/-! ### What the cores are promised -/

/-- The commands that the cores send in a cycle. -/
def sent (c : Cycle corecnt) : List CacheMaster :=
  (List.finRange corecnt).filterMap fun i =>
    if (c.cores i).cmd = .idle then none else some (c.cores i)

/-- The command that the UART executes in a cycle. -/
def executed (c : Cycle corecnt) : List CacheMaster :=
  if (toUart c).cmd = .idle then [] else [toUart c]

/-- The byte that core `i` gets in the next cycle for a read of the receive queue. -/
def received (divider depth : Nat) (s : State corecnt) (c : Cycle corecnt) (i : Fin corecnt) :
    Option Byte :=
  if rxDeqReady (c.cores i) ∧ (toCore (next divider depth s c) i).1 = .dva ∧ s.uart.rx.rxQueue ≠ []
  then some (toCore (next divider depth s c) i).2 else none

/-- The commands of a cycle are served: each is executed once, each byte that is written enters the
    transmit queue, if there is room, each byte that leaves the receive queue goes to one core, and
    in the next cycle exactly the cores that have sent a command get a response, with the data of
    their own command. -/
structure Served (divider depth : Nat) (s : State corecnt) (c : Cycle corecnt) : Prop where
  commands : executed c = sent c
  written : accepted depth s.uart.tx.txQueue (txEnq (toUart c)) =
    if enqReady depth s.uart.tx.txQueue then (sent c).filterMap txEnq else []
  read : removed s.uart.rx.rxQueue (rxDeqReady (toUart c)) =
    (List.finRange corecnt).filterMap (received divider depth s c)
  silent : ∀ i, (c.cores i).cmd = .idle → (toCore (next divider depth s c) i).1 = .null
  answered : ∀ i, (c.cores i).cmd ≠ .idle →
    toCore (next divider depth s c) i = (.dva, rdData depth s.uart (c.cores i) c.unknown)

/-- No two cores send a command in the same cycle. -/
def OneCommand (c : Cycle corecnt) : Prop :=
  ∀ i j, (c.cores i).cmd ≠ .idle → (c.cores j).cmd ≠ .idle → i = j

section Proofs

variable {divider depth : Nat} {s : State corecnt} {c : Cycle corecnt} {i : Fin corecnt}

/-- A core that waits is answered now. -/
def Inv (s : State corecnt) : Prop := ∀ i, s.cmdReg i = true → s.uart.respReg = .dva

theorem sent_of_one (hone : OneCommand c) (hi : (c.cores i).cmd ≠ .idle) :
    sent c = [c.cores i] := by
  have hothers : ∀ j, j ≠ i →
      (if (c.cores j).cmd = .idle then none else some (c.cores j)) = none := by
    intro j hne
    by_contra hcmd
    refine hne (hone j i (fun hidle => hcmd (if_pos hidle)) hi)
  rw [sent, Select.filterMap_of_one hothers, if_neg hi]
  rfl

theorem sent_of_none (hnone : ∀ i, (c.cores i).cmd = .idle) : sent c = [] :=
  List.filterMap_eq_nil_iff.mpr fun i _ => if_pos (hnone i)

theorem toUart_of_one (hone : OneCommand c) (hi : (c.cores i).cmd ≠ .idle) :
    toUart c = c.cores i := by
  refine Select.pickFirst_of_one (bne_iff_ne.mpr hi) fun j hj => ?_
  exact hone j i (bne_iff_ne.mp hj) hi

theorem cmd_toUart_of_none (hnone : ∀ i, (c.cores i).cmd = .idle) : (toUart c).cmd = .idle := by
  have hpick : toUart c = lastCore c := by
    refine Select.pickFirst_of_noHit fun i => ?_
    rw [hnone i]
    rfl
  rw [hpick, lastCore]
  split
  · exact hnone _
  · rfl

theorem executed_of_one (hone : OneCommand c) (hi : (c.cores i).cmd ≠ .idle) :
    executed c = [c.cores i] := by
  rw [executed, toUart_of_one hone hi, if_neg hi]

theorem executed_of_none (hnone : ∀ i, (c.cores i).cmd = .idle) : executed c = [] :=
  if_pos (cmd_toUart_of_none hnone)

/-- Two commands in one cycle are not both executed. -/
theorem oneCommand_of_executed (h : executed c = sent c) : OneCommand c := by
  intro i j hi hj
  have hlength : (sent c).length ≤ 1 := by
    rw [← h, executed]
    split <;> simp
  refine Select.eq_of_length_filterMap_le_one hlength (List.mem_finRange i)
    (List.mem_finRange j) ?_ ?_
  · rw [if_neg hi]
    exact Option.some_ne_none _
  · rw [if_neg hj]
    exact Option.some_ne_none _

/-- After a cycle the cores that have sent a command wait, and no others. -/
theorem Inv.cmdReg_next (h : Inv s) (i : Fin corecnt) :
    (next divider depth s c).cmdReg i = ((c.cores i).cmd != .idle) := by
  change (if (c.cores i).cmd ≠ .idle then true
    else if s.uart.respReg = .dva then false else s.cmdReg i) = _
  by_cases hcmd : (c.cores i).cmd = .idle
  · rw [if_neg (not_not.mpr hcmd), hcmd]
    split
    · rfl
    · rename_i hresp
      exact Bool.eq_false_iff.mpr fun hwait => hresp (h i hwait)
  · rw [if_pos hcmd]
    exact (bne_iff_ne.mpr hcmd).symm

theorem respReg_next : (next divider depth s c).uart.respReg =
    if (toUart c).cmd = .wr ∨ (toUart c).cmd = .rd then .dva else .null := rfl

theorem resp_of_cmd {m : CacheMaster} (h : m.cmd ≠ .idle) : m.cmd = .wr ∨ m.cmd = .rd := by
  cases hm : m.cmd with
  | idle => exact absurd hm h
  | wr => exact Or.inl rfl
  | rd => exact Or.inr rfl

theorem Inv.toCore_of_idle (h : Inv s) (hi : (c.cores i).cmd = .idle) :
    (toCore (next divider depth s c) i).1 = .null := by
  rw [toCore, h.cmdReg_next, hi]
  rfl

theorem Inv.toCore_of_one (h : Inv s) (hone : OneCommand c) (hi : (c.cores i).cmd ≠ .idle) :
    toCore (next divider depth s c) i = (.dva, rdData depth s.uart (c.cores i) c.unknown) := by
  rw [toCore, h.cmdReg_next, bne_iff_ne.mpr hi, if_pos rfl, respReg_next, toUart_of_one hone hi,
    if_pos (resp_of_cmd hi), ← toUart_of_one hone hi]
  rfl

theorem Inv.served_of_one (h : Inv s) (hone : OneCommand c) (hi : (c.cores i).cmd ≠ .idle) :
    Served divider depth s c := by
  have hothers : ∀ j, j ≠ i → (c.cores j).cmd = .idle := by
    intro j hne
    by_contra hj
    exact hne (hone j i hj hi)
  refine ⟨?_, ?_, ?_, fun j hj => h.toCore_of_idle hj, fun j hj => h.toCore_of_one hone hj⟩
  · rw [executed_of_one hone hi, sent_of_one hone hi]
  · rw [toUart_of_one hone hi, sent_of_one hone hi, accepted]
    cases htx : txEnq (c.cores i) with
    | none => rw [List.filterMap_cons_none htx]; rfl
    | some b => rw [List.filterMap_cons_some htx]; rfl
  · have hnone : ∀ j, j ≠ i → received divider depth s c j = none := by
      intro j hne
      refine if_neg fun hj => ?_
      rw [rxDeqReady, hothers j hne] at hj
      exact Bool.false_ne_true hj.1
    rw [Select.filterMap_of_one hnone, received, h.toCore_of_one hone hi, toUart_of_one hone hi]
    cases hready : rxDeqReady (c.cores i) with
    | false => rfl
    | true =>
      have hdata : isData (c.cores i) = true := (Bool.and_eq_true_iff.mp hready).2
      cases hq : s.uart.rx.rxQueue with
      | nil => rfl
      | cons b q => simp [removed, rdData, hdata, hq]

theorem Inv.served_of_none (h : Inv s) (hnone : ∀ i, (c.cores i).cmd = .idle) :
    Served divider depth s c := by
  have hidle := cmd_toUart_of_none hnone
  refine ⟨?_, ?_, ?_, fun j hj => h.toCore_of_idle hj, fun j hj => absurd (hnone j) hj⟩
  · rw [executed_of_none hnone, sent_of_none hnone]
  · have htx : txEnq (toUart c) = none :=
      if_neg fun hwr => OcpCmd.noConfusion (hidle.symm.trans hwr)
    rw [accepted, htx, sent_of_none hnone]
    rfl
  · have hreceived : ∀ j ∈ List.finRange corecnt, received divider depth s c j = none := by
      intro j _
      refine if_neg fun hj => ?_
      rw [rxDeqReady, hnone j] at hj
      exact Bool.false_ne_true hj.1
    rw [List.filterMap_eq_nil_iff.mpr hreceived, rxDeqReady, hidle]
    rfl

theorem Inv.served_iff (h : Inv s) : Served divider depth s c ↔ OneCommand c := by
  constructor
  · exact fun hserved => oneCommand_of_executed hserved.commands
  · intro hone
    by_cases hsome : ∃ i, (c.cores i).cmd ≠ .idle
    · obtain ⟨i, hi⟩ := hsome
      exact h.served_of_one hone hi
    · exact h.served_of_none fun i => not_not.mp fun hi => hsome ⟨i, hi⟩

/-- A core that has sent a command makes the UART answer. -/
theorem Inv.step (h : Inv s) (hone : OneCommand c) : Inv (next divider depth s c) := by
  intro i hwait
  rw [h.cmdReg_next] at hwait
  have hi := bne_iff_ne.mp hwait
  rw [respReg_next, toUart_of_one hone hi, if_pos (resp_of_cmd hi)]

theorem inv_reset : Inv (reset : State corecnt) := fun _ h => Bool.noConfusion h

/-- **The cores are served if and only if no two of them send a command in the same cycle.** -/
theorem served_run_iff (corecnt divider depth : Nat) (cs : List (Cycle corecnt)) :
    Along (next divider depth) (Served divider depth) reset cs ↔ ∀ c ∈ cs, OneCommand c := by
  have key : ∀ s : State corecnt, Inv s →
      (Along (next divider depth) (Served divider depth) s cs ↔ ∀ c ∈ cs, OneCommand c) := by
    induction cs with
    | nil => exact fun _ _ => ⟨fun _ _ h => absurd h List.not_mem_nil, fun _ => trivial⟩
    | cons c cs ih =>
      intro s hs
      rw [along_cons, hs.served_iff, List.forall_mem_cons]
      exact and_congr_right fun hone => ih _ (hs.step hone)
  exact key reset inv_reset

end Proofs

/-! ### Two cores that write in the same cycle -/

/-- The commands of two cores in a cycle. -/
def both (m₀ m₁ : CacheMaster) : Cycle 2 := ⟨![m₀, m₁], true, 0⟩

/-- A write of byte `b` to the UART. -/
def put (b : Byte) : CacheMaster := ⟨.wr, 4, fun _ => b, allBytes⟩

/-- The second byte is lost, though both cores get a response. -/
theorem second_byte_lost :
    (next 868 16 reset (both (put 1) (put 2))).uart.tx.txQueue = [1] ∧
      (toCore (next 868 16 reset (both (put 1) (put 2))) 1).1 = .dva ∧
      ¬ Along (next 868 16) (Served 868 16) reset [both (put 1) (put 2)] := by
  refine ⟨by decide +kernel, by decide +kernel, fun h => ?_⟩
  have hcommands := congrArg List.length h.1.commands
  exact absurd hcommands (by decide +kernel)

end Patmos.UartCmp
