import Patmos.MemoryManagement

/-!
# Protection by the memory management unit

A master issues burst commands one at a time through the unit to a memory that accepts in
every cycle.  Each command is answered by the memory or, when the unit has taken it away, by
the unit.  The number of answers that the master waits for is at any time the number that
one of four places still has to produce or to pass on: the register behind `virt`, the queue,
the memory, and the state machine for violations.  From this the answers to a violating
command follow cycle by cycle.

The mode is sampled when a request is translated, one cycle after it was issued.
-/

namespace Patmos.MemoryManagement

open Ocp Clocked

/-- The unit, the answers the memory has to give, and the answers the master waits for. -/
structure Bus where
  mmu : State
  owed : Nat
  left : Nat

/-- A cycle: `mem` says whether the memory answers, if it has to, and how. -/
structure BusCycle where
  ctrl : CtrlMaster
  superMode : Bool
  exec : Bool
  virt : BurstMaster
  mem : Choice

namespace Bus

section Circuit

variable (burstLength extAddrWidth : Nat)

/-- The memory accepts in every cycle and answers nothing but commands. -/
def inputs (y : Bus) (c : BusCycle) : Inputs :=
  { ctrl := c.ctrl
    superMode := c.superMode
    exec := c.exec
    virt := c.virt
    phys := ⟨if y.owed = 0 then .null else Slave.respOf c.mem, c.mem.junk, true, true⟩ }

/-- The answer that the master sees. -/
def resp (y : Bus) (c : BusCycle) : OcpResp := (toVirt burstLength y.mmu (y.inputs c)).resp

def next (y : Bus) (c : BusCycle) : Bus :=
  { mmu := MemoryManagement.next burstLength extAddrWidth y.mmu (y.inputs c)
    owed := if (toPhys y.mmu).cmd = .idle then
        if (y.inputs c).phys.resp = .null then y.owed else y.owed - 1
      else answers burstLength (toPhys y.mmu).cmd
    left := if c.virt.cmd = .idle then
        if y.resp burstLength c = .null then y.left else y.left - 1
      else answers burstLength c.virt.cmd }

/-- A command is issued when all answers to the one before have come, at the earliest in the
    cycle of the last one. -/
def Legal (y : Bus) (c : BusCycle) : Prop :=
  c.virt.cmd ≠ .idle → y.left = 0 ∨ y.left = 1 ∧ y.resp burstLength c ≠ .null

structure IsReset (y : Bus) : Prop where
  mmu : MemoryManagement.IsReset y.mmu
  owed : y.owed = 0
  left : y.left = 0

end Circuit

/-! ### Where the answers come from -/

section Due

variable (burstLength : Nat)

/-- The answers that the state machine for violations has to give. -/
def errDue (s : State) : Nat :=
  match s.stateReg with
  | .idle => 0
  | .respRd => s.burstReg + 1
  | .waitWr => 1
  | .respWr => 1

/-- The command the master waits for is in one place. -/
inductive Place (y : Bus) : Prop where
  | register (hphys : (toPhys y.mmu).cmd = .idle) (howed : y.owed = 0)
      (hstate : y.mmu.stateReg = .idle) (hleft : y.left = answers burstLength y.mmu.virtReg.cmd)
  | queue (hvirt : y.mmu.virtReg.cmd = .idle) (howed : y.owed = 0) (hstate : y.mmu.stateReg = .idle)
      (hleft : y.left = answers burstLength (toPhys y.mmu).cmd)
  | memory (hvirt : y.mmu.virtReg.cmd = .idle) (hphys : (toPhys y.mmu).cmd = .idle)
      (hstate : y.mmu.stateReg = .idle) (hleft : y.left = y.owed)
  | fsm (hvirt : y.mmu.virtReg.cmd = .idle) (hphys : (toPhys y.mmu).cmd = .idle)
      (howed : y.owed = 0) (hstate : y.mmu.stateReg ≠ .idle) (hleft : y.left = errDue y.mmu)

/-- The queue holds at most the request translated in the last cycle. -/
structure Inv (y : Bus) : Prop where
  short : y.mmu.buffer.length ≤ 1
  place : Place burstLength y
  counts : y.mmu.stateReg = .respRd ∨ y.mmu.stateReg = .waitWr → y.mmu.burstReg < burstLength

end Due

section Cycle

variable {burstLength extAddrWidth : Nat} {y : Bus} {c : BusCycle}

theorem resp_of_idle (hstate : y.mmu.stateReg = .idle) :
    y.resp burstLength c = if y.owed = 0 then .null else Slave.respOf c.mem := by
  simp [resp, toVirt, hstate, inputs]

/-- The memory takes the answer of the cycle off its account. -/
theorem owed_next (hphys : (toPhys y.mmu).cmd = .idle) (hstate : y.mmu.stateReg = .idle) :
    (next burstLength extAddrWidth y c).owed =
      if y.resp burstLength c = .null then y.owed else y.owed - 1 := by
  have hresp : y.resp burstLength c = (y.inputs c).phys.resp := by simp [resp, toVirt, hstate]
  rw [hresp]
  exact if_pos hphys

/-- What is in the queue after a cycle is what was translated in it. -/
theorem buffer_next (hlen : 2 ≤ burstLength) (hshort : y.mmu.buffer.length ≤ 1) :
    (next burstLength extAddrWidth y c).mmu.buffer =
      [translated burstLength extAddrWidth y.mmu (y.inputs c)] := by
  change bufferNext burstLength extAddrWidth y.mmu (y.inputs c) = _
  have hready : enqReady burstLength y.mmu = true := by
    simp only [enqReady, decide_eq_true_eq]
    omega
  unfold bufferNext
  rw [hready, if_pos rfl]
  rcases hb : y.mmu.buffer with _ | ⟨m, _ | ⟨m', rest⟩⟩
  · simp [deqFire, hb]
  · simp [deqFire, hb, inputs]
  · rw [hb] at hshort
    simp at hshort

theorem toPhys_next (hlen : 2 ≤ burstLength) (hshort : y.mmu.buffer.length ≤ 1) :
    toPhys (next burstLength extAddrWidth y c).mmu =
      translated burstLength extAddrWidth y.mmu (y.inputs c) := by
  rw [toPhys, buffer_next hlen hshort, List.headD_cons]

theorem cmd_translated_of_idle (s : State) (i : Inputs) (h : s.virtReg.cmd = .idle) :
    (translated burstLength extAddrWidth s i).cmd = .idle := by
  simp [translated, h]

theorem fsmNext_of_idle {s : State} {i : Inputs} (hstate : s.stateReg = .idle)
    (h : s.virtReg.cmd = .idle ∨ violation burstLength s i = false) :
    fsmNext burstLength s i = (.idle, s.burstReg) := by
  rcases h with h | h
  · simp [fsmNext, trigger, hstate, h]
  · simp [fsmNext, trigger, hstate, h]

theorem fsmNext_of_violation {s : State} {i : Inputs} (hstate : s.stateReg = .idle)
    (h : violation burstLength s i = true) :
    fsmNext burstLength s i = match s.virtReg.cmd with
      | .idle => (.idle, s.burstReg)
      | .rd => (.respRd, burstLength - 1)
      | .wr => (.waitWr, burstLength - 2) := by
  cases hk : s.virtReg.cmd <;> simp [fsmNext, trigger, hstate, h, hk]

theorem burstDec_succ {n : Nat} (h : n < burstLength) : burstDec burstLength (n + 1) = n := by
  have hlt := lt_of_lt_of_le h (MemBlock.le_pow_log2Up burstLength)
  have hsum : n + 1 + 2 ^ MemBlock.log2Up burstLength - 1 =
      n + 2 ^ MemBlock.log2Up burstLength := by omega
  rw [burstDec, hsum, Nat.add_mod_right, Nat.mod_eq_of_lt hlt]

/-- The unit has given its last answer to a violating command. -/
theorem fsm_done (howed : y.owed = 0) (hstate : y.mmu.stateReg ≠ .idle)
    (hleft : errDue y.mmu = 0 ∨ errDue y.mmu = 1 ∧ y.resp burstLength c ≠ .null) :
    (fsmNext burstLength y.mmu (y.inputs c)).1 = .idle := by
  cases hs : y.mmu.stateReg with
  | idle => exact absurd hs hstate
  | respRd =>
    have hzero : y.mmu.burstReg = 0 := by
      simp only [errDue, hs] at hleft
      omega
    simp [fsmNext, hs, hzero]
  | waitWr => simp [errDue, resp, toVirt, inputs, hs, howed] at hleft
  | respWr => simp [fsmNext, hs]

/-- A new command comes in only when no place has one. -/
theorem Place.command (hlen : 2 ≤ burstLength) (hinv : Inv burstLength y)
    (hleg : y.Legal burstLength c) (hcmd : c.virt.cmd ≠ .idle) :
    Place burstLength (next burstLength extAddrWidth y c) := by
  have hphys : toPhys (next burstLength extAddrWidth y c).mmu =
      translated burstLength extAddrWidth y.mmu (y.inputs c) := toPhys_next hlen hinv.short
  have hissue := hleg hcmd
  have hzero : y.owed = 0 → y.mmu.stateReg = .idle → y.left = 0 := by
    intro ho hs
    rcases hissue with h | ⟨-, hne⟩
    · exact h
    · exact absurd (by rw [resp_of_idle hs, if_pos ho]) hne
  -- every place is free: nothing is in the register, in the queue or owed any more
  obtain ⟨hvirt, howed, hstate⟩ : y.mmu.virtReg.cmd = .idle ∧
      (next burstLength extAddrWidth y c).owed = 0 ∧
      (fsmNext burstLength y.mmu (y.inputs c)).1 = .idle := by
    cases hinv.place with
    | register hp ho hs hl =>
      have hv := answers_eq_zero hlen (hl.symm.trans (hzero ho hs))
      refine ⟨hv, ?_, ?_⟩
      · simp [next, hp, ho]
      · rw [fsmNext_of_idle hs (.inl hv)]
    | queue hv ho hs hl =>
      have hp := answers_eq_zero hlen (hl.symm.trans (hzero ho hs))
      refine ⟨hv, ?_, ?_⟩
      · simp [next, hp, ho]
      · rw [fsmNext_of_idle hs (.inl hv)]
    | memory hv hp hs hl =>
      refine ⟨hv, ?_, ?_⟩
      · rw [hl] at hissue
        rw [owed_next hp hs]
        rcases hissue with h | ⟨h, hne⟩
        · simp [h]
        · rw [if_neg hne, h]
      · rw [fsmNext_of_idle hs (.inl hv)]
    | fsm hv hp ho hs hl =>
      rw [hl] at hissue
      refine ⟨hv, ?_, fsm_done ho hs hissue⟩
      simp [next, hp, ho]
  refine .register ?_ howed hstate ?_
  · rw [hphys]
    exact cmd_translated_of_idle _ _ hvirt
  · exact if_neg hcmd

/-! ### Moving on without a new command -/

section Move

variable (hlen : 2 ≤ burstLength) (hinv : Inv burstLength y) (hcmd : c.virt.cmd = .idle)

include hcmd in
theorem left_next : (next burstLength extAddrWidth y c).left =
    if y.resp burstLength c = .null then y.left else y.left - 1 := by
  simp [next, hcmd]

theorem owed_of_none (hphys : (toPhys y.mmu).cmd = .idle) (howed : y.owed = 0) :
    (next burstLength extAddrWidth y c).owed = 0 := by
  simp [next, hphys, howed]

include hlen hinv

theorem toPhys_of_noRequest (hvirt : y.mmu.virtReg.cmd = .idle) :
    (toPhys (next burstLength extAddrWidth y c).mmu).cmd = .idle := by
  rw [toPhys_next hlen hinv.short]
  exact cmd_translated_of_idle _ _ hvirt

include hcmd

/-- A command in the register is translated, or handled as a violation. -/
theorem Place.move_of_register (hphys : (toPhys y.mmu).cmd = .idle) (howed : y.owed = 0)
    (hstate : y.mmu.stateReg = .idle) (hleft : y.left = answers burstLength y.mmu.virtReg.cmd) :
    Place burstLength (next burstLength extAddrWidth y c) := by
  have hkeep : (next burstLength extAddrWidth y c).left = y.left := by
    rw [left_next hcmd, resp_of_idle hstate, if_pos howed, if_pos rfl]
  have howed' : (next burstLength extAddrWidth y c).owed = 0 := owed_of_none hphys howed
  cases hviol : violation burstLength y.mmu (y.inputs c) with
  | false =>
    refine .queue hcmd howed' ?_ ?_
    · exact congrArg Prod.fst (fsmNext_of_idle hstate (.inr hviol))
    · rw [hkeep, toPhys_next hlen hinv.short, hleft]
      simp [translated, hviol]
  | true =>
    have hidle : (toPhys (next burstLength extAddrWidth y c).mmu).cmd = .idle := by
      rw [toPhys_next hlen hinv.short]
      simp [translated, hviol]
    have hfsm := fsmNext_of_violation hstate hviol
    cases hk : y.mmu.virtReg.cmd with
    | idle =>
      rw [hk] at hfsm
      refine .memory hcmd hidle (congrArg Prod.fst hfsm) ?_
      rw [hkeep, howed', hleft, hk]
      rfl
    | rd =>
      rw [hk] at hfsm
      refine .fsm hcmd hidle howed' ?_ ?_
      · simp [next, MemoryManagement.next, hfsm]
      · rw [hkeep, hleft, hk]
        simp only [answers, errDue, next, MemoryManagement.next, hfsm]
        omega
    | wr =>
      rw [hk] at hfsm
      refine .fsm hcmd hidle howed' ?_ ?_
      · simp [next, MemoryManagement.next, hfsm]
      · rw [hkeep, hleft, hk]
        simp [answers, errDue, next, MemoryManagement.next, hfsm]

/-- The state machine gives its answers one by one. -/
theorem Place.move_of_fsm (hvirt : y.mmu.virtReg.cmd = .idle) (hphys : (toPhys y.mmu).cmd = .idle)
    (howed : y.owed = 0) (hstate : y.mmu.stateReg ≠ .idle) (hleft : y.left = errDue y.mmu) :
    Place burstLength (next burstLength extAddrWidth y c) := by
  have hidle : (toPhys (next burstLength extAddrWidth y c).mmu).cmd = .idle :=
    toPhys_of_noRequest hlen hinv hvirt
  have howed' : (next burstLength extAddrWidth y c).owed = 0 := owed_of_none hphys howed
  have hstate' : (next burstLength extAddrWidth y c).mmu.stateReg =
      (fsmNext burstLength y.mmu (y.inputs c)).1 := rfl
  have hburst' : (next burstLength extAddrWidth y c).mmu.burstReg =
      (fsmNext burstLength y.mmu (y.inputs c)).2 := rfl
  have hleft' : (next burstLength extAddrWidth y c).left = _ := left_next hcmd
  cases hst : y.mmu.stateReg with
  | idle => exact absurd hst hstate
  | respRd =>
    have herr : y.resp burstLength c = .err := by simp [resp, toVirt, hst]
    have hcount := hinv.counts (.inl hst)
    rw [herr, hleft] at hleft'
    simp only [errDue, hst, reduceCtorEq, if_false, Nat.add_sub_cancel] at hleft'
    rcases Nat.eq_zero_or_pos y.mmu.burstReg with hz | hpos
    · refine .memory hcmd hidle ?_ ?_
      · rw [hstate', fsmNext, hst]
        simp [hz]
      · rw [hleft', howed', hz]
    · obtain ⟨n, hn⟩ := Nat.exists_eq_succ_of_ne_zero hpos.ne'
      have hfsm : fsmNext burstLength y.mmu (y.inputs c) = (.respRd, n) := by
        simp only [fsmNext, hst, hn, Nat.succ_ne_zero, if_false]
        rw [burstDec_succ (by omega)]
      refine .fsm hcmd hidle howed' ?_ ?_
      · rw [hstate', hfsm]
        simp
      · rw [hleft', errDue, hstate', hburst', hfsm, hn]
  | waitWr =>
    have hnull : y.resp burstLength c = .null := by simp [resp, toVirt, hst, inputs, howed]
    rw [hnull, hleft] at hleft'
    simp only [errDue, hst, if_true] at hleft'
    by_cases hz : y.mmu.burstReg = 0
    · refine .fsm hcmd hidle howed' ?_ ?_
      · rw [hstate', fsmNext, hst]
        simp [hz]
      · rw [hleft', errDue, hstate', fsmNext, hst]
        simp [hz]
    · refine .fsm hcmd hidle howed' ?_ ?_
      · rw [hstate', fsmNext, hst]
        simp [hz]
      · rw [hleft', errDue, hstate', fsmNext, hst]
        simp [hz]
  | respWr =>
    have herr : y.resp burstLength c = .err := by simp [resp, toVirt, hst]
    rw [herr, hleft] at hleft'
    simp only [errDue, hst, reduceCtorEq, if_false] at hleft'
    refine .memory hcmd hidle ?_ ?_
    · rw [hstate', fsmNext, hst]
    · rw [hleft', howed']

/-- Without a new command the old one moves on. -/
theorem Place.move : Place burstLength (next burstLength extAddrWidth y c) := by
  cases hinv.place with
  | register hp ho hs hl => exact Place.move_of_register hlen hinv hcmd hp ho hs hl
  | queue hv ho hs hl =>
    refine .memory hcmd (toPhys_of_noRequest hlen hinv hv)
      (congrArg Prod.fst (fsmNext_of_idle hs (.inl hv))) ?_
    rw [left_next hcmd, resp_of_idle hs, if_pos ho, if_pos rfl, hl]
    by_cases hk : (toPhys y.mmu).cmd = .idle
    · simp [next, hk, ho, answers]
    · simp [next, hk]
  | memory hv hp hs hl =>
    refine .memory hcmd (toPhys_of_noRequest hlen hinv hv)
      (congrArg Prod.fst (fsmNext_of_idle hs (.inl hv))) ?_
    rw [left_next hcmd, owed_next hp hs, hl]
  | fsm hv hp ho hs hl => exact Place.move_of_fsm hlen hinv hcmd hv hp ho hs hl

end Move

theorem counts_next (hlen : 2 ≤ burstLength) (hinv : Inv burstLength y)
    (h : (next burstLength extAddrWidth y c).mmu.stateReg = .respRd ∨
      (next burstLength extAddrWidth y c).mmu.stateReg = .waitWr) :
    (next burstLength extAddrWidth y c).mmu.burstReg < burstLength := by
  change (fsmNext burstLength y.mmu (y.inputs c)).1 = .respRd ∨
    (fsmNext burstLength y.mmu (y.inputs c)).1 = .waitWr at h
  change (fsmNext burstLength y.mmu (y.inputs c)).2 < burstLength
  have hdec : y.mmu.stateReg = .respRd ∨ y.mmu.stateReg = .waitWr → y.mmu.burstReg ≠ 0 →
      burstDec burstLength y.mmu.burstReg < burstLength := by
    intro hs hne
    obtain ⟨n, hn⟩ := Nat.exists_eq_succ_of_ne_zero hne
    have hcount := hinv.counts hs
    rw [hn, burstDec_succ (by omega)]
    omega
  cases hs : y.mmu.stateReg with
  | idle =>
    cases hviol : violation burstLength y.mmu (y.inputs c) with
    | false =>
      rw [fsmNext_of_idle hs (.inr hviol)] at h
      simp at h
    | true =>
      rw [fsmNext_of_violation hs hviol] at h ⊢
      cases hk : y.mmu.virtReg.cmd with
      | idle => simp [hk] at h
      | rd | wr => exact Nat.sub_lt (by omega) (by decide)
  | respRd =>
    simp only [fsmNext, hs] at h ⊢
    apply hdec (.inl hs)
    intro hz
    simp [hz] at h
  | waitWr =>
    simp only [fsmNext, hs] at h ⊢
    apply hdec (.inr hs)
    intro hz
    simp [hz] at h
  | respWr => simp [fsmNext, hs] at h

theorem Inv.next (hlen : 2 ≤ burstLength) (hinv : Inv burstLength y)
    (hleg : y.Legal burstLength c) : Inv burstLength (Bus.next burstLength extAddrWidth y c) := by
  refine ⟨?_, ?_, counts_next hlen hinv⟩
  · rw [buffer_next hlen hinv.short]
    exact le_refl 1
  · by_cases hcmd : c.virt.cmd = .idle
    · exact Place.move hlen hinv hcmd
    · exact Place.command hlen hinv hleg hcmd

theorem IsReset.inv (h : IsReset y) : Inv burstLength y := by
  have hvirt : y.mmu.virtReg.cmd = .idle := by
    have := h.mmu.virtReg
    simp only [isRequest, Bool.or_eq_false_iff, bne_eq_false_iff_eq] at this
    exact this.1
  refine ⟨?_, .memory hvirt ?_ h.mmu.stateReg (h.left.trans h.owed.symm), ?_⟩
  · rw [h.mmu.buffer]
    exact Nat.zero_le 1
  · rw [toPhys, h.mmu.buffer]
    rfl
  · intro hs
    rw [h.mmu.stateReg] at hs
    rcases hs with hs | hs <;> exact Fsm.noConfusion hs

/-- When the master waits for nothing it sees nothing. -/
theorem Inv.resp_of_left (hinv : Inv burstLength y) (hleft : y.left = 0) :
    y.resp burstLength c = .null := by
  cases hinv.place with
  | register _ ho hs _ | queue _ ho hs _ => rw [resp_of_idle hs, if_pos ho]
  | memory _ _ hs hl => rw [resp_of_idle hs, if_pos (hl.symm.trans hleft)]
  | fsm _ _ _ hs hl =>
    rw [hleft] at hl
    cases hst : y.mmu.stateReg with
    | idle => exact absurd hst hs
    | respRd | waitWr | respWr => simp [errDue, hst] at hl

/-- A command in the register is the one the master waits for. -/
theorem Inv.of_register (hinv : Inv burstLength y) (hvirt : y.mmu.virtReg.cmd ≠ .idle) :
    y.owed = 0 ∧ y.mmu.stateReg = .idle ∧ y.left = answers burstLength y.mmu.virtReg.cmd := by
  cases hinv.place with
  | register _ ho hs hl => exact ⟨ho, hs, hl⟩
  | queue hv _ _ _ | memory hv _ _ _ | fsm hv _ _ _ _ => exact absurd hv hvirt

/-- While a violation is handled nothing else is to be answered. -/
theorem Inv.of_fsm (hinv : Inv burstLength y) (hstate : y.mmu.stateReg ≠ .idle) :
    y.owed = 0 ∧ y.left = errDue y.mmu := by
  cases hinv.place with
  | register _ _ hs _ | queue _ _ hs _ | memory _ _ hs _ => exact absurd hs hstate
  | fsm _ _ ho _ hl => exact ⟨ho, hl⟩

end Cycle

end Bus

/-! ### What the unit has to do -/

/-- The request needs a permission that its segment does not have, or lies at or beyond the
    end of a segment with a length. -/
def Forbidden (burstLength : Nat) (g : Segment) (exec : Bool) (m : BurstMaster) : Prop :=
  (m.cmd = .rd ∧ exec = false ∧ g.perm.testBit 2 = false) ∨
    (m.cmd = .rd ∧ exec = true ∧ g.perm.testBit 0 = false) ∨
    (m.cmd = .wr ∧ g.perm.testBit 1 = false) ∨
    (g.length ≠ 0 ∧ g.length * 2 ^ alignBits burstLength ≤ offset m.addr)

theorem forbidden_iff (burstLength : Nat) (s : State) :
    (permViol burstLength s || lengthViol burstLength s) = true ↔
      Forbidden burstLength (segment burstLength s) s.execReg s.virtReg := by
  have hlength : lengthViol burstLength s = true ↔ (segment burstLength s).length ≠ 0 ∧
      (segment burstLength s).length * 2 ^ alignBits burstLength ≤ offset s.virtReg.addr := by
    simp only [lengthViol, Bool.and_eq_true, bne_iff_ne, ne_eq, decide_eq_true_eq]
    rw [Nat.le_div_iff_mul_le (Nat.two_pow_pos _)]
  have hperm : permViol burstLength s = true ↔
      (s.virtReg.cmd = .rd ∧ s.execReg = false ∧
          (segment burstLength s).perm.testBit 2 = false) ∨
        (s.virtReg.cmd = .rd ∧ s.execReg = true ∧
          (segment burstLength s).perm.testBit 0 = false) ∨
        (s.virtReg.cmd = .wr ∧ (segment burstLength s).perm.testBit 1 = false) := by
    simp [permViol, and_assoc, or_assoc]
  rw [Bool.or_eq_true, hperm, hlength, Forbidden, or_assoc, or_assoc]

section Runs

variable (burstLength extAddrWidth : Nat) (y₀ : Bus) (tr : ℕ → BusCycle)

/-- The bus before cycle `t`. -/
abbrev busAt (t : ℕ) : Bus := stateAt (Bus.next burstLength extAddrWidth) y₀ tr t

/-- What is at `phys` in cycle `t`. -/
abbrev physAt (t : ℕ) : BurstMaster := toPhys (busAt burstLength extAddrWidth y₀ tr t).mmu

/-- What the master sees in cycle `t`. -/
abbrev respAt (t : ℕ) : OcpResp :=
  (busAt burstLength extAddrWidth y₀ tr t).resp burstLength (tr t)

/-- The segment of the request of cycle `t`, in the tables by which it is translated. -/
abbrev segmentAt (t : ℕ) : Segment :=
  segment burstLength (busAt burstLength extAddrWidth y₀ tr (t + 1)).mmu

def Command (t : ℕ) : Prop := (tr t).virt.cmd ≠ .idle

/-- Cycle `u` comes after the command of cycle `t` and not after the next command. -/
def Window (t u : ℕ) : Prop := t < u ∧ ∀ v, t < v → v < u → ¬ Command tr v

/-- The request of cycle `t` is not allowed in user mode. -/
def ForbiddenAt (t : ℕ) : Prop :=
  Forbidden burstLength (segmentAt burstLength extAddrWidth y₀ tr t) (tr t).exec (tr t).virt

/-- Where base and offset of the request of cycle `t` point to. -/
def targetOf (t : ℕ) : Nat :=
  ((segmentAt burstLength extAddrWidth y₀ tr t).base * 2 ^ alignBits burstLength +
    offset (tr t).virt.addr) % 2 ^ 32 % 2 ^ extAddrWidth

/-- A command at `phys` is the command that was at `virt` two cycles before, at its translated
    address.  A forbidden command of user mode does not get there; a read is answered with
    `burstLength` errors, a write with one, and with nothing else before the next command. -/
structure Protected : Prop where
  source : ∀ u, (physAt burstLength extAddrWidth y₀ tr u).cmd ≠ .idle → ∃ t, u = t + 2 ∧
    (physAt burstLength extAddrWidth y₀ tr u).cmd = (tr t).virt.cmd ∧
    (physAt burstLength extAddrWidth y₀ tr u).addr = targetOf burstLength extAddrWidth y₀ tr t
  blocked : ∀ t, (tr t).superMode = false → ForbiddenAt burstLength extAddrWidth y₀ tr t →
    (physAt burstLength extAddrWidth y₀ tr (t + 2)).cmd = .idle
  reads : ∀ t, (tr t).superMode = false → ForbiddenAt burstLength extAddrWidth y₀ tr t →
    (tr t).virt.cmd = .rd → Window tr t (t + 1 + burstLength) ∧
      ∀ u, Window tr t u → respAt burstLength extAddrWidth y₀ tr u =
        if t + 2 ≤ u ∧ u ≤ t + 1 + burstLength then .err else .null
  writes : ∀ t, (tr t).superMode = false → ForbiddenAt burstLength extAddrWidth y₀ tr t →
    (tr t).virt.cmd = .wr → Window tr t (t + 1 + burstLength) ∧
      ∀ u, Window tr t u → respAt burstLength extAddrWidth y₀ tr u =
        if u = t + 1 + burstLength then .err else .null

/-- The mode does not change between the cycle of a command and the next. -/
def ModeHeld : Prop := ∀ t, Command tr t → (tr (t + 1)).superMode = (tr t).superMode

end Runs

/-! ### Runs -/

/-- `bus` is a run of the unit under the master and the memory of `tr`. -/
structure Run (burstLength extAddrWidth : Nat) (tr : ℕ → BusCycle) (bus : ℕ → Bus) : Prop where
  len : 2 ≤ burstLength
  reset : (bus 0).IsReset
  next : ∀ t, bus (t + 1) = Bus.next burstLength extAddrWidth (bus t) (tr t)
  legal : ∀ t, (bus t).Legal burstLength (tr t)

namespace Run

variable {burstLength extAddrWidth : Nat} {tr : ℕ → BusCycle} {bus : ℕ → Bus}
  (r : Run burstLength extAddrWidth tr bus)
include r

theorem inv (t : ℕ) : Bus.Inv burstLength (bus t) := by
  induction t with
  | zero => exact r.reset.inv
  | succ t ih =>
    rw [r.next]
    exact ih.next r.len (r.legal t)

/-- `phys` shows what was translated in the cycle before. -/
theorem phys_succ (t : ℕ) : toPhys (bus (t + 1)).mmu =
    translated burstLength extAddrWidth (bus t).mmu ((bus t).inputs (tr t)) := by
  rw [r.next]
  exact Bus.toPhys_next r.len (r.inv t).short

theorem virt_succ (t : ℕ) : (bus (t + 1)).mmu.virtReg = (tr t).virt := by
  rw [r.next]
  rfl

theorem fsm_succ (u : ℕ) : ((bus (u + 1)).mmu.stateReg, (bus (u + 1)).mmu.burstReg) =
    fsmNext burstLength (bus u).mmu ((bus u).inputs (tr u)) := by
  rw [r.next]
  rfl

/-- After its last answer the master sees nothing until it issues a command. -/
theorem resp_of_done {e u : ℕ} (hdone : (bus (e + 1)).left = 0) (heu : e < u)
    (hidle : ∀ v, e < v → v < u → ¬ Command tr v) : (bus u).resp burstLength (tr u) = .null := by
  refine (r.inv u).resp_of_left ?_
  induction u, heu using Nat.le_induction with
  | base => exact hdone
  | succ u heu ih =>
    have hzero := ih fun v hv hvu => hidle v hv (Nat.lt_succ_of_lt hvu)
    have hcmd : (tr u).virt.cmd = .idle := not_not.mp (hidle u heu (Nat.lt_succ_self u))
    rw [r.next]
    simp [Bus.next, hcmd, hzero]

/-- In the cycle after a command nothing is answered yet. -/
theorem resp_succ {t : ℕ} (hcmd : Command tr t) :
    (bus (t + 1)).resp burstLength (tr (t + 1)) = .null ∧ ¬ Command tr (t + 1) := by
  have hvirt : (bus (t + 1)).mmu.virtReg.cmd ≠ .idle := by rwa [r.virt_succ]
  obtain ⟨ho, hs, hl⟩ := (r.inv (t + 1)).of_register hvirt
  have hnull : (bus (t + 1)).resp burstLength (tr (t + 1)) = .null := by
    rw [Bus.resp_of_idle hs, if_pos ho]
  refine ⟨hnull, ?_⟩
  intro hnext
  rcases r.legal (t + 1) hnext with hzero | ⟨-, hne⟩
  · exact hvirt (answers_eq_zero r.len (hl.symm.trans hzero))
  · exact hne hnull

/-- No command while a violation is handled, until its last answer. -/
theorem not_command_of_fsm {u : ℕ}
    (hstate : (bus u).mmu.stateReg = .respRd ∧ (bus u).mmu.burstReg ≠ 0 ∨
      (bus u).mmu.stateReg = .waitWr) : ¬ Command tr u := by
  intro hcmd
  have hissue := r.legal u hcmd
  rcases hstate with ⟨hs, hb⟩ | hs
  · obtain ⟨-, hl⟩ := (r.inv u).of_fsm (by rw [hs]; exact Fsm.noConfusion)
    rw [hl, Bus.errDue, hs] at hissue
    rcases hissue with h | ⟨h, -⟩
    · exact Nat.succ_ne_zero _ h
    · exact hb (Nat.succ_injective h)
  · obtain ⟨ho, hl⟩ := (r.inv u).of_fsm (by rw [hs]; exact Fsm.noConfusion)
    rw [hl, Bus.errDue, hs] at hissue
    rcases hissue with h | ⟨-, h⟩
    · exact one_ne_zero h
    · simp [Bus.resp, toVirt, hs, Bus.inputs, ho] at h

theorem countdown {u n : ℕ} {f : Fsm} (hf : f = .respRd ∨ f = .waitWr)
    (hs : (bus u).mmu.stateReg = f) (hb : (bus u).mmu.burstReg = n) (hn : n < burstLength)
    {j : ℕ} (hj : j ≤ n) :
    (bus (u + j)).mmu.stateReg = f ∧ (bus (u + j)).mmu.burstReg = n - j := by
  induction j with
  | zero => exact ⟨hs, hb⟩
  | succ j ih =>
    obtain ⟨hs', hb'⟩ := ih (Nat.le_of_succ_le hj)
    have hpred : n - j = n - (j + 1) + 1 := by omega
    have hstep := r.fsm_succ (u + j)
    have hnext : fsmNext burstLength (bus (u + j)).mmu ((bus (u + j)).inputs (tr (u + j))) =
        (f, n - (j + 1)) := by
      have hdec : burstDec burstLength (n - (j + 1) + 1) = n - (j + 1) :=
        Bus.burstDec_succ (by omega)
      rcases hf with rfl | rfl
      · simp only [fsmNext, hs', hb', hpred, Nat.succ_ne_zero, if_false, hdec]
      · simp only [fsmNext, hs', hb', hpred, Nat.succ_ne_zero, if_false, hdec]
    rw [hnext] at hstep
    exact Prod.mk.inj hstep

/-- The last error takes the last answer off the account of the master. -/
theorem resp_after_last {t e u : ℕ} (hte : t < e) (heu : e < u) (hw : Window tr t u)
    (hstate : (bus e).mmu.stateReg ≠ .idle) (hdue : Bus.errDue (bus e).mmu = 1)
    (herr : (bus e).resp burstLength (tr e) = .err) : (bus u).resp burstLength (tr u) = .null := by
  have hquiet : (tr e).virt.cmd = .idle := not_not.mp (hw.2 e hte heu)
  have hl := ((r.inv e).of_fsm hstate).2
  refine r.resp_of_done ?_ heu fun v hv hvu => hw.2 v (lt_trans hte hv) hvu
  rw [r.next, Bus.left_next hquiet, herr, hl, hdue]
  rfl

section Violation

variable {t : ℕ} (hcmd : Command tr t)
  (hviol : violation burstLength (bus (t + 1)).mmu ((bus (t + 1)).inputs (tr (t + 1))) = true)
include hcmd hviol

theorem fsm_start : ((bus (t + 2)).mmu.stateReg, (bus (t + 2)).mmu.burstReg) =
    if (tr t).virt.cmd = .rd then (.respRd, burstLength - 1) else (.waitWr, burstLength - 2) := by
  obtain ⟨-, hs, -⟩ := (r.inv (t + 1)).of_register (by rwa [r.virt_succ])
  rw [r.fsm_succ (t + 1)]
  simp only [fsmNext, hs, trigger, hviol, and_self, if_true, r.virt_succ]
  cases hk : (tr t).virt.cmd with
  | idle => exact absurd hk hcmd
  | rd => rfl
  | wr => rfl

omit hviol in
/-- What holds of a window up to the last error `e` in it holds of every window. -/
theorem window_of_last {e : ℕ} (hte : t < e) (hbusy : ∀ v, t + 1 < v → v < e → ¬ Command tr v)
    (hstate : (bus e).mmu.stateReg ≠ .idle) (hdue : Bus.errDue (bus e).mmu = 1)
    (herr : (bus e).resp burstLength (tr e) = .err) :
    Window tr t e ∧ ∀ u, Window tr t u → e < u → (bus u).resp burstLength (tr u) = .null := by
  refine ⟨⟨hte, ?_⟩, fun u hw heu => r.resp_after_last hte heu hw hstate hdue herr⟩
  intro v hv hve
  rcases Nat.eq_or_lt_of_le hv with rfl | hlt
  · exact (r.resp_succ hcmd).2
  · exact hbusy v hlt hve

/-- A forbidden read: `burstLength` errors from the second cycle on, then nothing. -/
theorem answered_read (hrd : (tr t).virt.cmd = .rd) :
    Window tr t (t + 1 + burstLength) ∧ ∀ u, Window tr t u → (bus u).resp burstLength (tr u) =
      if t + 2 ≤ u ∧ u ≤ t + 1 + burstLength then .err else .null := by
  have hlen := r.len
  have hstart := r.fsm_start hcmd hviol
  rw [if_pos hrd] at hstart
  obtain ⟨hs₀, hb₀⟩ := Prod.mk.inj hstart
  have hcount : ∀ {j}, j ≤ burstLength - 1 → (bus (t + 2 + j)).mmu.stateReg = .respRd ∧
      (bus (t + 2 + j)).mmu.burstReg = burstLength - 1 - j :=
    r.countdown (.inl rfl) hs₀ hb₀ (by omega)
  have herr : ∀ {j}, j ≤ burstLength - 1 →
      (bus (t + 2 + j)).resp burstLength (tr (t + 2 + j)) = .err := by
    intro j hj
    simp [Bus.resp, toVirt, (hcount hj).1]
  have hlast : t + 1 + burstLength = t + 2 + (burstLength - 1) := by omega
  obtain ⟨hs, hb⟩ := hcount (Nat.le_refl _)
  obtain ⟨hwindow, hafter⟩ := r.window_of_last hcmd (e := t + 1 + burstLength) (by omega)
    (fun v hv hve => by
      obtain ⟨j, rfl⟩ := Nat.exists_eq_add_of_le hv
      obtain ⟨hs, hb⟩ := hcount (j := j) (by omega)
      exact r.not_command_of_fsm (.inl ⟨hs, by rw [hb]; omega⟩))
    (by rw [hlast, hs]; exact Fsm.noConfusion) (by rw [hlast, Bus.errDue, hs, hb, Nat.sub_self])
    (by rw [hlast]; exact herr (Nat.le_refl _))
  refine ⟨hwindow, ?_⟩
  intro u hw
  rcases Nat.eq_or_lt_of_le hw.1 with rfl | hlt
  · rw [if_neg (by omega)]
    exact (r.resp_succ hcmd).1
  · rcases Nat.lt_or_ge (t + 1 + burstLength) u with hgt | hin
    · rw [if_neg (by omega)]
      exact hafter u hw hgt
    · rw [if_pos ⟨hlt, hin⟩]
      obtain ⟨j, rfl⟩ := Nat.exists_eq_add_of_le hlt
      exact herr (by omega)

/-- A forbidden write: one error, after all its words, then nothing. -/
theorem answered_write (hwr : (tr t).virt.cmd = .wr) :
    Window tr t (t + 1 + burstLength) ∧ ∀ u, Window tr t u → (bus u).resp burstLength (tr u) =
      if u = t + 1 + burstLength then .err else .null := by
  have hlen := r.len
  have hstart := r.fsm_start hcmd hviol
  rw [if_neg (by rw [hwr]; exact OcpCmd.noConfusion)] at hstart
  obtain ⟨hs₀, hb₀⟩ := Prod.mk.inj hstart
  have hcount : ∀ {j}, j ≤ burstLength - 2 → (bus (t + 2 + j)).mmu.stateReg = .waitWr ∧
      (bus (t + 2 + j)).mmu.burstReg = burstLength - 2 - j :=
    r.countdown (.inr rfl) hs₀ hb₀ (by omega)
  have hnull : ∀ {j}, j ≤ burstLength - 2 →
      (bus (t + 2 + j)).resp burstLength (tr (t + 2 + j)) = .null := by
    intro j hj
    have hs := (hcount hj).1
    have ho := ((r.inv (t + 2 + j)).of_fsm (by rw [hs]; exact Fsm.noConfusion)).1
    simp [Bus.resp, toVirt, hs, Bus.inputs, ho]
  have hresp : (bus (t + 1 + burstLength)).mmu.stateReg = .respWr := by
    obtain ⟨hs, hb⟩ := hcount (Nat.le_refl _)
    have hstep := r.fsm_succ (t + 2 + (burstLength - 2))
    rw [Nat.sub_self] at hb
    rw [fsmNext, hs, hb] at hstep
    rw [show t + 1 + burstLength = t + 2 + (burstLength - 2) + 1 by omega]
    exact (Prod.mk.inj hstep).1
  have herr : (bus (t + 1 + burstLength)).resp burstLength (tr (t + 1 + burstLength)) = .err := by
    simp [Bus.resp, toVirt, hresp]
  obtain ⟨hwindow, hafter⟩ := r.window_of_last hcmd (e := t + 1 + burstLength) (by omega)
    (fun v hv hve => by
      obtain ⟨j, rfl⟩ := Nat.exists_eq_add_of_le hv
      exact r.not_command_of_fsm (.inr (hcount (by omega)).1))
    (by rw [hresp]; exact Fsm.noConfusion) (by rw [Bus.errDue, hresp]) herr
  refine ⟨hwindow, ?_⟩
  intro u hw
  rcases Nat.lt_trichotomy u (t + 1 + burstLength) with hlt | rfl | hgt
  · rw [if_neg (Nat.ne_of_lt hlt)]
    rcases Nat.eq_or_lt_of_le hw.1 with rfl | hlt'
    · exact (r.resp_succ hcmd).1
    · obtain ⟨j, rfl⟩ := Nat.exists_eq_add_of_le hlt'
      exact hnull (by omega)
  · rw [if_pos rfl]
    exact herr
  · rw [if_neg (Nat.ne_of_gt hgt)]
    exact hafter u hw hgt

end Violation

end Run

section

variable {burstLength extAddrWidth : Nat} {y₀ : Bus} {tr : ℕ → BusCycle}

/-- A forbidden command is taken for a violation when the mode is still user mode. -/
theorem violation_of_forbidden {t : ℕ} (huser : (tr (t + 1)).superMode = false)
    (hforb : ForbiddenAt burstLength extAddrWidth y₀ tr t) :
    violation burstLength (busAt burstLength extAddrWidth y₀ tr (t + 1)).mmu
      ((busAt burstLength extAddrWidth y₀ tr (t + 1)).inputs (tr (t + 1))) = true := by
  have hsuper : ((busAt burstLength extAddrWidth y₀ tr (t + 1)).inputs (tr (t + 1))).superMode =
      false := huser
  rw [violation, hsuper, (forbidden_iff burstLength _).mpr hforb]
  rfl

variable (hlen : 2 ≤ burstLength) (hreset : Bus.IsReset y₀)
  (hleg : ∀ t, (busAt burstLength extAddrWidth y₀ tr t).Legal burstLength (tr t))
include hlen hreset hleg

/-- In every run in which the mode is held from the cycle of a command to the next, user mode
    is confined to what its segments allow. -/
theorem protected_of_modeHeld (hmode : ModeHeld tr) :
    Protected burstLength extAddrWidth y₀ tr := by
  have r : Run burstLength extAddrWidth tr (busAt burstLength extAddrWidth y₀ tr) :=
    ⟨hlen, hreset, fun _ => rfl, hleg⟩
  constructor
  · intro u hcmd
    rcases u with _ | _ | t
    · have hempty : physAt burstLength extAddrWidth y₀ tr 0 = y₀.mmu.buffer.headD idleRequest := rfl
      rw [hempty, hreset.mmu.buffer] at hcmd
      exact absurd rfl hcmd
    · have hidle : y₀.mmu.virtReg.cmd = .idle := by
        have := hreset.mmu.virtReg
        simp only [isRequest, Bool.or_eq_false_iff, bne_eq_false_iff_eq] at this
        exact this.1
      rw [physAt, r.phys_succ 0] at hcmd
      exact absurd (Bus.cmd_translated_of_idle _ _ hidle) hcmd
    · refine ⟨t, rfl, ?_, ?_⟩
      · rw [physAt, r.phys_succ (t + 1)] at hcmd ⊢
        simp only [translated] at hcmd ⊢
        split at hcmd
        · exact absurd rfl hcmd
        · rw [if_neg ‹_›]
          rfl
      · rw [physAt, r.phys_succ (t + 1)]
        rfl
  · intro t hsuper hforb
    rw [physAt, r.phys_succ (t + 1)]
    by_cases hcmd : Command tr t
    · exact if_pos (violation_of_forbidden ((hmode t hcmd).trans hsuper) hforb)
    · exact Bus.cmd_translated_of_idle _ _ (not_not.mp hcmd)
  · intro t hsuper hforb hrd
    have hcmd : Command tr t := by rw [Command, hrd]; exact OcpCmd.noConfusion
    exact r.answered_read hcmd (violation_of_forbidden ((hmode t hcmd).trans hsuper) hforb) hrd
  · intro t hsuper hforb hwr
    have hcmd : Command tr t := by rw [Command, hwr]; exact OcpCmd.noConfusion
    exact r.answered_write hcmd (violation_of_forbidden ((hmode t hcmd).trans hsuper) hforb) hwr

end

/-! ### Two runs -/

/-- After reset, with no permission in any segment. -/
def locked : Bus := ⟨Path.powerUp.mmu, 0, 0⟩

/-- A cycle in which the memory answers what it has to. -/
def busCycle (superMode : Bool) (virt : BurstMaster) : BusCycle :=
  ⟨⟨.idle, 0, 0⟩, superMode, false, virt, ⟨true, true, false, fun _ => 0⟩⟩

/-- User mode reads address 32 in cycle 0. -/
def userRead (t : ℕ) : BusCycle :=
  busCycle false (if t = 0 then Path.readOf 32 else idleRequest)

theorem locked_isReset : locked.IsReset := ⟨⟨rfl, rfl, rfl⟩, rfl, rfl⟩

theorem legal_of_single {burstLength extAddrWidth : ℕ} {tr : ℕ → BusCycle}
    (hsingle : ∀ t, t ≠ 0 → (tr t).virt.cmd = .idle) (t : ℕ) :
    (busAt burstLength extAddrWidth locked tr t).Legal burstLength (tr t) := by
  intro hcmd
  rcases t with _ | t
  · exact .inl rfl
  · exact absurd (hsingle (t + 1) (Nat.succ_ne_zero t)) hcmd

theorem userRead_protected :
    ForbiddenAt 4 21 locked userRead 0 ∧ respAt 4 21 locked userRead 5 = .err ∧
      Protected 4 21 locked userRead :=
  ⟨by simp [ForbiddenAt, Forbidden, userRead, busCycle, Path.readOf, segment, locked,
      Path.powerUp, Bus.next, Bus.inputs, next, tableNext],
    by decide +kernel,
    protected_of_modeHeld (by decide) locked_isReset
      (legal_of_single fun t ht => by simp [userRead, busCycle, ht, idleRequest])
      fun _ _ => rfl⟩

/-- The same read, with the mode raised in cycle 1. -/
def raisedRead (t : ℕ) : BusCycle :=
  busCycle (t == 1) (if t = 0 then Path.readOf 32 else idleRequest)

/-- The read reaches the memory. -/
theorem raisedRead_not_protected :
    locked.IsReset ∧ (∀ t, (busAt 4 21 locked raisedRead t).Legal 4 (raisedRead t)) ∧
      (raisedRead 0).superMode = false ∧ ForbiddenAt 4 21 locked raisedRead 0 ∧
      (physAt 4 21 locked raisedRead 2).cmd = .rd ∧ ¬ Protected 4 21 locked raisedRead := by
  have hforb : ForbiddenAt 4 21 locked raisedRead 0 := by
    simp [ForbiddenAt, Forbidden, raisedRead, busCycle, Path.readOf, segment, locked,
      Path.powerUp, Bus.next, Bus.inputs, next, tableNext]
  have hphys : (physAt 4 21 locked raisedRead 2).cmd = .rd := by decide +kernel
  refine ⟨locked_isReset,
    legal_of_single fun t ht => by simp [raisedRead, busCycle, ht, idleRequest],
    rfl, hforb, hphys, ?_⟩
  intro hprot
  have hidle := hprot.blocked 0 rfl hforb
  rw [hphys] at hidle
  exact OcpCmd.noConfusion hidle

end Patmos.MemoryManagement
