import Patmos.StackCacheTransfer

/-!
# The stack cache refines the stack model

The cycles in which the pipeline issues something: loads and stores, which are done in
that cycle, and the stack operations, which may start a transfer.  With the cycles of a
transfer they keep the invariant, and after every legal run the circuit holds the stack
of the model of `stacksim.c`.
-/

namespace Patmos.StackCache

open Clocked Ocp

namespace Sys

variable (words burstLength : Nat)

section Issue

variable {words burstLength} {y : Sys} {i : SysInputs} {mem₀ : Memory}

/-- The words spilled so far, when an operation leaves the model in `m`. -/
def spilledBy (y : Sys) (m : StackSim.State) (a : Nat) : Bool :=
  y.spilled a || (decide (m.memTop ≤ a) && decide (a < y.model.memTop))

section Idle

variable (hst : y.core.stateReg = .idleState) (hidle : Idle words y)

include hst hidle in
theorem slave_of_idle :
    y.slave.next burstLength (toMemory words y.core i.cpu) i.choice = y.slave := by
  refine Slave.next_of_noCmd hidle.phase ?_
  cases hena : i.cpu.enaIn <;> simp [toMemory, hst, hena]

variable (burstLength) in
include hst hidle in
theorem next_of_idle :
    next words burstLength y i =
      ⟨StackCache.next words burstLength y.core i.cpu (fromMemory words y i), y.slave,
        modelNext words y i,
        if i.cpu.cmd = .rd then
          some (StackSim.load words (y.model.scTop + i.cpu.addr / 4) y.model) else none,
        y.spilledBy (modelNext words y i)⟩ := by
  rw [next, slave_of_idle hst hidle]
  rfl

variable (h : Inv words burstLength mem₀ y)
include h

/-- A cycle that starts in `idleState` keeps the invariant when the operation does. -/
theorem Inv.of_issue {core : State} {model : StackSim.State} {expect : Option Word}
    (hnext : next words burstLength y i = ⟨core, y.slave, model, expect, y.spilledBy model⟩)
    (hpointers : Pointers words model) (hstack : core.stackTopReg = 4 * model.scTop)
    (htransfer : Transfer words burstLength ⟨core, y.slave, model, expect, y.spilledBy model⟩)
    (hexpect : ∀ v, expect = some v → core.responseToCPUReg = .dva ∧
      ∀ j, mbRdData words core j = v) :
    Inv words burstLength mem₀ (next words burstLength y i) := by
  rw [hnext]
  refine ⟨hpointers, hstack, htransfer, hexpect, fun a ha => h.unspilled a ?_⟩
  exact (Bool.or_eq_false_iff.mp ha).1

include hst in
theorem Inv.idle : Idle words y := by
  have htransfer := h.transfer
  simpa only [Transfer, hst] using htransfer

include hst hidle in
theorem inv_of_access (hsz : Sizes words burstLength) (hleg : Legal words y i)
    (hcmd : i.cpu.cmd ≠ .idle) : Inv words burstLength mem₀ (next words burstLength y i) := by
  obtain ⟨hop, hoff⟩ := hleg.access hcmd
  obtain ⟨hle, hsize, hbound⟩ := h.pointers
  have hfill : fills y.core (fromMemory words y i) = false := by simp [fills, hst]
  rw [hidle.memTop, h.stackTop] at hoff
  -- the entry of the addressed word
  have hrel : MemBlock.truncateIndex words (relAddr words y.core i.cpu) =
      (y.model.scTop + i.cpu.addr / 4) % words := by
    rw [relAddr, h.stackTop, Nat.mod_eq_of_lt (by omega), hsz.entry_eq,
      show (i.cpu.addr + 4 * y.model.scTop) / 4 = y.model.scTop + i.cpu.addr / 4 by omega]
  have hlt : (y.model.scTop + i.cpu.addr / 4) % words < words := Nat.mod_lt _ hsz.words_pos
  have hcore : StackCache.next words burstLength y.core i.cpu (fromMemory words y i) =
      { y.core with
        stateReg := .idleState
        memoryBlock := mbWrite words y.core i.cpu (fromMemory words y i)
        rdAddrReg := relAddr words y.core i.cpu
        responseToCPUReg := .dva } := by
    have hresp : (if i.cpu.cmd = .wr ∨ i.cpu.cmd = .rd then OcpResp.dva else .null) = .dva := by
      cases hc : i.cpu.cmd with
      | idle => exact absurd hc hcmd
      | wr | rd => simp
    cases hena : i.cpu.enaIn <;> simp [StackCache.next, control, mbRdAddr, hst, hop, hena, hresp]
  have hnext := next_of_idle (i := i) burstLength hst hidle
  rw [hcore] at hnext
  cases hc : i.cpu.cmd with
  | idle => exact absurd hc hcmd
  | wr =>
    have hmodel : modelNext words y i = StackSim.store words
        (y.model.scTop + i.cpu.addr / 4) i.cpu.byteEn i.cpu.data y.model := by
      simp [modelNext, hst, hc]
    have hblock : mbWrite words y.core i.cpu (fromMemory words y i) =
        Function.update y.core.memoryBlock ((y.model.scTop + i.cpu.addr / 4) % words)
          (merge i.cpu.byteEn i.cpu.data
            (y.core.memoryBlock ((y.model.scTop + i.cpu.addr / 4) % words))) := by
      simp only [mbWrite, hfill, hc, if_true, Bool.false_eq_true, if_false]
      exact MemBlock.writeBytes_of_index hrel hlt _ _ _
    rw [hblock, hmodel, hc, if_neg (by simp)] at hnext
    refine h.of_issue hnext ⟨hle, hsize, hbound⟩ h.stackTop ?_ (fun _ hc => by cases hc)
    simp only [Transfer]
    refine ⟨hidle.memTop, fun j hj => ?_, hidle.phase, hidle.mem⟩
    rw [hidle.cache _ hlt]
    change Function.update y.core.memoryBlock _ _ j = Function.update y.model.sc _ _ j
    by_cases hjt : j = (y.model.scTop + i.cpu.addr / 4) % words
    · rw [hjt, Function.update_self, Function.update_self]
    · rw [Function.update_of_ne hjt, Function.update_of_ne hjt]
      exact hidle.cache j hj
  | rd =>
    have hmodel : modelNext words y i = y.model := by
      cases hena : i.cpu.enaIn <;> simp [modelNext, issue, hst, hc, hop, hena]
    rw [mbWrite_eq_self (by simp [hc]) hfill, hmodel, hc, if_pos rfl] at hnext
    refine h.of_issue hnext h.pointers h.stackTop ?_ ?_
    · simp only [Transfer]
      exact ⟨hidle.memTop, hidle.cache, hidle.phase, hidle.mem⟩
    · rintro v ⟨⟩
      refine ⟨rfl, fun j => ?_⟩
      rw [mbRdData, MemBlock.read_of_index hrel hlt]
      exact hidle.cache _ hlt

omit h in
variable (burstLength) in
include hst hidle in
/-- A cycle without an access, with the registers that it can change. -/
theorem next_of_op (hcmd : i.cpu.cmd = .idle) (hena : i.cpu.enaIn = true) :
    next words burstLength y i =
      ⟨{ control words burstLength y.core i.cpu (fromMemory words y i) with
          memoryBlock := y.core.memoryBlock
          rdAddrReg := mbRdAddr words burstLength y.core i.cpu (fromMemory words y i)
          responseToCPUReg := .null },
        y.slave, issue words y i, none, y.spilledBy (issue words y i)⟩ := by
  have hfill : fills y.core (fromMemory words y i) = false := by simp [fills, hst]
  have hmodel : modelNext words y i = issue words y i := by simp [modelNext, hst, hcmd, hena]
  have hblock : mbWrite words y.core i.cpu (fromMemory words y i) = y.core.memoryBlock :=
    mbWrite_eq_self (by simp [hcmd]) hfill
  rw [next_of_idle burstLength hst hidle, hmodel]
  simp [StackCache.next, hena, hcmd, hblock]

include hidle in
/-- What is left of an operation when the controller stays in `idleState`. -/
theorem Inv.of_done {core : State} {model : StackSim.State}
    (hnext : next words burstLength y i = ⟨core, y.slave, model, none, y.spilledBy model⟩)
    (hstate : core.stateReg = .idleState) (hpointers : Pointers words model)
    (hstack : core.stackTopReg = 4 * model.scTop) (htop : core.memTopReg = 4 * model.memTop)
    (hblock : core.memoryBlock = y.core.memoryBlock) (hsc : model.sc = y.model.sc)
    (hmem : model.mem = y.model.mem) :
    Inv words burstLength mem₀ (next words burstLength y i) := by
  refine h.of_issue hnext hpointers hstack ?_ (fun _ hc => by cases hc)
  simp only [Transfer, hstate]
  exact ⟨htop, by rw [hblock, hsc]; exact hidle.cache, hidle.phase, hidle.mem.trans hmem.symm⟩

include hst hidle in
theorem inv_of_stall (hcmd : i.cpu.cmd = .idle) (hena : i.cpu.enaIn = false) :
    Inv words burstLength mem₀ (next words burstLength y i) := by
  have hfill : fills y.core (fromMemory words y i) = false := by simp [fills, hst]
  have hmodel : modelNext words y i = y.model := by simp [modelNext, hst, hcmd, hena]
  have hnext := next_of_idle (i := i) burstLength hst hidle
  rw [hmodel, if_neg (by simp [hcmd])] at hnext
  refine h.of_done hidle hnext ?_ h.pointers ?_ ?_ ?_ rfl rfl
  · simpa [StackCache.next, hena] using hst
  · simpa [StackCache.next, hena] using h.stackTop
  · simpa [StackCache.next, hena] using hidle.memTop
  · simpa [StackCache.next, hena] using mbWrite_eq_self (by simp [hcmd]) hfill

include hidle in
/-- The first cycle of a spill, of the words from the new top of memory up to the old
    one. -/
theorem Inv.of_startSpill (hsz : Sizes words burstLength) {reserve : Bool} {newTop : Nat}
    {model : StackSim.State}
    (hnext : next words burstLength y i =
      ⟨{ y.core with
          isReserveReg := reserve
          stackTopReg := 4 * model.scTop
          newMemTopReg := newTop
          transferAddrReg := burstStart burstLength (4 * model.memTop)
          stateReg := .holdSpillState
          rdAddrReg := index words (burstStart burstLength (4 * model.memTop))
          responseToCPUReg := .null },
        y.slave, model, none, y.spilledBy model⟩)
    (hle : model.memTop ≤ y.model.memTop) (hpointers : Pointers words model)
    (hsc : model.sc = y.model.sc)
    (hmem : ∀ a, model.mem a =
      if model.memTop ≤ a ∧ a < y.model.memTop then y.model.sc (a % words) else y.model.mem a)
    (hlimit : (if reserve then (4 * model.scTop + scacheSize words) % 2 ^ 32 else newTop) =
      4 * model.memTop) :
    Inv words burstLength mem₀ (next words burstLength y i) := by
  obtain ⟨-, hsize, hbound⟩ := h.pointers
  rw [hsz.burstStart_eq] at hnext
  refine h.of_issue hnext hpointers rfl ?_ (fun _ hc => by cases hc)
  simp only [Transfer]
  refine ⟨y.model.memTop, model.memTop / burstLength * burstLength,
    ⟨hle, by omega, hlimit, rfl, hsz.index_eq _, by rw [hsc]; exact hidle.cache, ?_, ?_, ?_⟩,
      hidle.memTop,
    hidle.phase, Nat.mul_mod_left _ _, (Nat.div_mul_le_self _ _).trans hle⟩
  · intro a h1 h2
    rw [hmem, hsc, if_pos ⟨h1, h2⟩]
  · -- the first burst starts below the spilled words
    intro a ha
    have hstart := Nat.div_mul_le_self model.memTop burstLength
    rw [hidle.mem, hmem, if_neg (by simp only at ha; omega)]
  · intro a h1 h2
    simp [spilledBy, h1, h2]

section Operations

variable {n : Nat} (hsz : Sizes words burstLength) (hcmd : i.cpu.cmd = .idle)
  (hena : i.cpu.enaIn = true) (hn : i.cpu.opOff = 4 * n)
include hsz hst hidle hcmd hena hn

theorem inv_of_res (hop : i.cpu.op = .res) (htop : n ≤ y.model.scTop) :
    Inv words burstLength mem₀ (next words burstLength y i) := by
  have hnext := next_of_op burstLength hst hidle hcmd hena
  obtain ⟨hle, hsz', hbound⟩ := h.pointers
  have hissue : issue words y i = StackSim.reserve words n y.model := by
    simp only [issue, hop, hn]
    rw [Nat.mul_div_cancel_left n (by omega)]
  have hstack : nextStackTop y.core i.cpu = 4 * (y.model.scTop - n) := by
    rw [nextStackTop, h.stackTop, hn]
    omega
  have hlimit : (4 * (y.model.scTop - n) + scacheSize words) % 2 ^ 32 =
      4 * (y.model.scTop - n + words) := by
    rw [scacheSize, Nat.mod_eq_of_lt (by omega)]
    omega
  have hfirst : resTransferAddr words burstLength y.core i.cpu =
      burstStart burstLength (4 * (y.model.scTop - n + words)) := by
    rw [resTransferAddr, hstack, hlimit]
  have hspill : needsSpill words y.core i.cpu =
      decide (y.model.scTop - n + words < y.model.memTop) := by
    rw [needsSpill, hstack, hidle.memTop, scacheSize]
    exact decide_eq_decide.mpr (by omega)
  simp only [control, mbRdAddr, hst, hop, hspill, hstack, hfirst, decide_eq_true_eq,
    hissue] at hnext
  obtain ⟨hmt, hst', hsc, hmem⟩ := @StackSim.spillOne_iterate words
    (y.model.memTop - (y.model.scTop - n) - words) { y.model with scTop := y.model.scTop - n }
    (show _ ≤ y.model.memTop by omega)
  by_cases hlt : y.model.scTop - n + words < y.model.memTop
  · have hmemTop : (StackSim.reserve words n y.model).memTop = y.model.scTop - n + words :=
      hmt.trans (show y.model.memTop - _ = _ by omega)
    have hscTop : (StackSim.reserve words n y.model).scTop = y.model.scTop - n := hst'
    rw [if_pos hlt, ← hmemTop, ← hscTop] at hnext
    refine h.of_startSpill hidle hsz hnext (by omega) ⟨by omega, by omega, by omega⟩ hsc ?_ ?_
    · intro a
      refine (hmem a).trans ?_
      rw [hmemTop, show y.model.memTop - (y.model.memTop - (y.model.scTop - n) - words) =
        y.model.scTop - n + words by omega]
    · rw [hscTop, hmemTop]
      exact hlimit
  · have hreserve : StackSim.reserve words n y.model =
        { y.model with scTop := y.model.scTop - n } := by
      simp only [StackSim.reserve, show y.model.memTop - (y.model.scTop - n) - words = 0 by omega]
      rfl
    rw [if_neg hlt, hreserve] at hnext
    exact h.of_done hidle hnext rfl ⟨show y.model.scTop - n ≤ y.model.memTop by omega,
      show y.model.memTop ≤ y.model.scTop - n + words by omega,
      show 4 * (y.model.scTop - n) + 4 * words < 2 ^ 32 by omega⟩ rfl hidle.memTop rfl rfl rfl

theorem inv_of_sspill (hop : i.cpu.op = .spill) (hsize : n ≤ y.model.memTop - y.model.scTop) :
    Inv words burstLength mem₀ (next words burstLength y i) := by
  have hnext := next_of_op burstLength hst hidle hcmd hena
  obtain ⟨hle, hsz', hbound⟩ := h.pointers
  have hissue : issue words y i = StackSim.spill words n y.model := by
    simp only [issue, hop, hn]
    rw [Nat.mul_div_cancel_left n (by omega)]
  obtain ⟨hmt, hst', hsc, hmem⟩ :=
    @StackSim.spillOne_iterate words n y.model (by omega)
  have hscTop : (StackSim.spill words n y.model).scTop = y.model.scTop := hst'
  have hmemTop : (StackSim.spill words n y.model).memTop = y.model.memTop - n := hmt
  have htop : nextNewMemTop y.core i.cpu = 4 * (StackSim.spill words n y.model).memTop := by
    rw [nextNewMemTop, hidle.memTop, hn, hmemTop]
    omega
  have hstack : y.core.stackTopReg = 4 * (StackSim.spill words n y.model).scTop := by
    rw [hscTop, h.stackTop]
  simp only [control, mbRdAddr, hst, hop, htop, hissue, hstack] at hnext
  refine h.of_startSpill hidle hsz hnext (by omega) ⟨by omega, by omega, by omega⟩ hsc ?_ rfl
  intro a
  rw [hmemTop]
  exact hmem a

omit hsz hst hcmd hena in
theorem stackAboveMem_eq :
    stackAboveMem y.core i.cpu = decide (y.model.memTop - y.model.scTop < n) := by
  obtain ⟨hle, hsize, hbound⟩ := h.pointers
  rw [stackAboveMem, hidle.memTop, h.stackTop, hn]
  exact decide_eq_decide.mpr (by omega)

theorem inv_of_ens (hop : i.cpu.op = .ens) (hsize : n ≤ words) :
    Inv words burstLength mem₀ (next words burstLength y i) := by
  have hnext := next_of_op burstLength hst hidle hcmd hena
  obtain ⟨hle, hsz', hbound⟩ := h.pointers
  have hissue : issue words y i = StackSim.ensure words n y.model := by
    simp only [issue, hop, hn]
    rw [Nat.mul_div_cancel_left n (by omega)]
  have habove := stackAboveMem_eq (i := i) hidle h hn
  have hinc : stackTopInc y.core i.cpu = 4 * (y.model.scTop + n) := by
    rw [stackTopInc, h.stackTop, hn, Nat.mod_eq_of_lt (by omega)]
    omega
  simp only [control, hst, hop, habove, hinc, hidle.memTop, hsz.burstStart_eq, decide_eq_true_eq,
    hissue] at hnext
  by_cases hlt : y.model.memTop - y.model.scTop < n
  · obtain ⟨hmt, hst', hmem, hin, hout⟩ := @StackSim.fillOne_iterate words
      (n - (y.model.memTop - y.model.scTop)) y.model (by omega)
    rw [show y.model.memTop + (n - (y.model.memTop - y.model.scTop)) = y.model.scTop + n by omega]
      at hmt hin hout
    have hmemTop : (StackSim.ensure words n y.model).memTop = y.model.scTop + n := hmt
    have hscTop : (StackSim.ensure words n y.model).scTop = y.model.scTop := hst'
    have hstart := Nat.div_mul_le_self y.model.memTop burstLength
    have hgrown : y.model.memTop ≤ (StackSim.ensure words n y.model).memTop := by omega
    rw [if_pos hlt, ← hmemTop] at hnext
    refine h.of_issue hnext ⟨by omega, by omega, by omega⟩ (h.stackTop.trans (by rw [hscTop])) ?_
      (fun _ hc => by cases hc)
    simp only [Transfer]
    refine ⟨y.model.memTop, y.model.memTop / burstLength * burstLength,
      ⟨hgrown, rfl, rfl, hidle.mem.trans hmem.symm, fun a h1 h2 => ?_,
        fun j hj hfree => ?_, .inl rfl⟩, hidle.phase, Nat.mul_mod_left _ _, hstart.trans hgrown⟩
    · exact (hin a h1 (hmemTop ▸ h2)).trans (congrFun hmem a).symm
    · -- entries that take no filled word are untouched on both sides
      refine (hidle.cache j hj).trans (Eq.symm (hout j fun a h1 h2 => ?_))
      exact hfree a h1 (hmemTop ▸ h2) (hstart.trans h1)
  · have hensure : StackSim.ensure words n y.model = y.model := by
      rw [StackSim.ensure, show n - (y.model.memTop - y.model.scTop) = 0 by omega]
      rfl
    rw [if_neg hlt, hensure] at hnext
    exact h.of_done hidle hnext rfl h.pointers h.stackTop rfl rfl rfl rfl

omit hsz in
theorem inv_of_free (hop : i.cpu.op = .free)
    (hfits : 4 * (y.model.scTop + n) + 4 * words < 2 ^ 32) :
    Inv words burstLength mem₀ (next words burstLength y i) := by
  have hnext := next_of_op burstLength hst hidle hcmd hena
  obtain ⟨hle, hsz', -⟩ := h.pointers
  have hissue : issue words y i = StackSim.free n y.model := by
    simp only [issue, hop, hn]
    rw [Nat.mul_div_cancel_left n (by omega)]
  have habove := stackAboveMem_eq (i := i) hidle h hn
  have hinc : stackTopInc y.core i.cpu = 4 * (y.model.scTop + n) := by
    rw [stackTopInc, h.stackTop, hn, Nat.mod_eq_of_lt (by omega)]
    omega
  have hmemTop : (StackSim.free n y.model).memTop = max y.model.memTop (y.model.scTop + n) := by
    simp only [StackSim.free]
    split <;> omega
  have hscTop : (StackSim.free n y.model).scTop = y.model.scTop + n := rfl
  simp only [control, hst, hop, habove, hinc, hidle.memTop, decide_eq_true_eq, hissue] at hnext
  refine h.of_done hidle hnext rfl ⟨by omega, by omega, by omega⟩ rfl ?_ rfl rfl rfl
  rw [hmemTop]
  simp only
  split <;> omega

end Operations

include hst

theorem inv_of_idle (hsz : Sizes words burstLength) (hleg : Legal words y i) :
    Inv words burstLength mem₀ (next words burstLength y i) := by
  have hidle := h.idle hst
  by_cases hcmd : i.cpu.cmd = .idle
  · cases hena : i.cpu.enaIn with
    | false => exact inv_of_stall hst hidle h hcmd hena
    | true =>
      have hlegal := hleg.op hst hena
      have hle := h.pointers.le
      cases hop : i.cpu.op with
      | none =>
        have hnext := next_of_op burstLength hst hidle hcmd hena
        simp only [issue, control, hst, hop] at hnext
        exact h.of_done hidle hnext rfl h.pointers h.stackTop hidle.memTop rfl rfl rfl
      | setSt | setMt => simp [LegalOp, hop] at hlegal
      | ens =>
        simp only [LegalOp, hop, scacheSize] at hlegal
        exact inv_of_ens (n := i.cpu.opOff / 4) hst hidle h hsz hcmd hena (by omega) hop
          (by omega)
      | free =>
        simp only [LegalOp, hop, scacheSize, h.stackTop] at hlegal
        exact inv_of_free (n := i.cpu.opOff / 4) hst hidle h hcmd hena (by omega) hop (by omega)
      | res =>
        simp only [LegalOp, hop, scacheSize, h.stackTop] at hlegal
        exact inv_of_res (n := i.cpu.opOff / 4) hst hidle h hsz hcmd hena (by omega) hop
          (by omega)
      | spill =>
        simp only [LegalOp, hop, h.stackTop, hidle.memTop] at hlegal
        exact inv_of_sspill (n := i.cpu.opOff / 4) hst hidle h hsz hcmd hena (by omega) hop
          (by omega)
  · exact inv_of_access hst hidle h hsz hleg hcmd

end Idle

theorem Inv.step (hsz : Sizes words burstLength) (h : Inv words burstLength mem₀ y)
    (hleg : Legal words y i) : Inv words burstLength mem₀ (next words burstLength y i) := by
  cases hst : y.core.stateReg with
  | idleState => exact inv_of_idle hst h hsz hleg
  | holdSpillState => exact inv_of_hold hsz h hleg hst
  | spillState => exact inv_of_spill hsz h hleg hst
  | waitSpillState => exact inv_of_waitSpill h hleg hst
  | fillState => exact inv_of_fill h hleg hst
  | waitFillState => exact inv_of_waitFill hsz h hleg hst
  | errorState =>
    have := h.transfer
    simp only [Transfer, hst] at this

end Issue

/-! ### Runs -/

/-- A controller in `idleState` with consistent pointers. -/
structure Ready (core : State) : Prop where
  idle : core.stateReg = .idleState
  stackTop : core.stackTopReg % 4 = 0
  memTop : core.memTopReg % 4 = 0
  le : core.stackTopReg ≤ core.memTopReg
  size : core.memTopReg ≤ core.stackTopReg + scacheSize words
  bound : core.stackTopReg + scacheSize words < 2 ^ 32

/-- The model starts with the contents of the circuit and of its memory. -/
def start (core : State) (mem : Memory) : Sys where
  core := core
  slave := ⟨.idle, mem⟩
  model := ⟨mem, core.memoryBlock, core.memTopReg / 4, core.stackTopReg / 4⟩
  expect := none
  spilled := fun _ => false

/-- The circuit and its memory hold the stack of the model. -/
structure Agrees (y : Sys) : Prop where
  le : y.core.stackTopReg ≤ y.core.memTopReg
  size : y.core.memTopReg - y.core.stackTopReg ≤ scacheSize words
  stackTop : y.core.stackTopReg = 4 * y.model.scTop
  memTop : y.core.memTopReg = 4 * y.model.memTop
  cache : ∀ a, y.model.scTop ≤ a → a < y.model.memTop →
    y.core.memoryBlock (a % words) = y.model.sc (a % words)
  mem : ∀ a, y.model.memTop ≤ a → y.slave.mem a = y.model.mem a

/-- What is observed after a run that started with the memory `mem₀`. -/
structure Refines (mem₀ : Memory) (y : Sys) : Prop where
  idle : y.core.stateReg = .idleState → Agrees words y
  unspilled : ∀ a, y.spilled a = false → y.slave.mem a = mem₀ a
  load : ∀ v, y.expect = some v →
    y.core.responseToCPUReg = .dva ∧ ∀ j : Inputs, mbRdData words y.core j = v

section Runs

variable {words burstLength}

theorem inv_start {core : State} (h : Ready words core) (mem : Memory) :
    Inv words burstLength mem (start core mem) := by
  obtain ⟨hidle, hs, hm, hle, hsize, hbound⟩ := h
  rw [scacheSize] at hsize hbound
  refine ⟨⟨?_, ?_, ?_⟩, ?_, ?_, ?_, ?_⟩
  · exact Nat.div_le_div_right hle
  · change core.memTopReg / 4 ≤ core.stackTopReg / 4 + words
    omega
  · change 4 * (core.stackTopReg / 4) + 4 * words < 2 ^ 32
    omega
  · change core.stackTopReg = 4 * (core.stackTopReg / 4)
    omega
  · simp only [Transfer, start, hidle]
    refine ⟨?_, fun _ _ => rfl, rfl, rfl⟩
    change core.memTopReg = 4 * (core.memTopReg / 4)
    omega
  · intro v hv
    exact absurd hv (by simp [start])
  · intro a _
    rfl

theorem Inv.refines {mem₀ : Memory} {y : Sys} (hpos : 0 < words)
    (h : Inv words burstLength mem₀ y) : Refines words mem₀ y := by
  refine ⟨?_, h.unspilled, ?_⟩
  · intro hst
    have hidle := h.idle hst
    obtain ⟨hle, hsize, -⟩ := h.pointers
    have hs := h.stackTop
    have hm := hidle.memTop
    refine ⟨by omega, ?_, hs, hm, ?_, ?_⟩
    · rw [scacheSize]
      omega
    · intro a _ _
      exact hidle.cache _ (Nat.mod_lt _ hpos)
    · intro a _
      rw [hidle.mem]
  · exact h.expect

/-- After every legal run the circuit, with its memory, refines the stack model. -/
theorem refines_of_legal (hsz : Sizes words burstLength) {core : State} (hcore : Ready words core)
    (mem : Memory) {is : List SysInputs}
    (hleg : Along (next words burstLength) (Legal words) (start core mem) is) :
    Refines words mem (run (next words burstLength) (start core mem) is) :=
  Inv.refines hsz.words_pos
    (inv_run (fun _ _ h hl => h.step hsz hl) (inv_start hcore mem) hleg)

instance (y : Sys) (i : SysInputs) : Decidable (LegalOp words y i) := by
  unfold LegalOp
  cases i.cpu.op <;> infer_instance

instance (y : Sys) (i : SysInputs) : Decidable (Legal words y i) :=
  decidable_of_iff (_ ∧ _ ∧ _ ∧ _)
    ⟨fun ⟨a, b, c, d⟩ => ⟨a, b, c, d⟩, fun ⟨a, b, c, d⟩ => ⟨a, b, c, d⟩⟩

/-- A cycle without an access, in which the memory accepts and responds. -/
def cycle (op : Op) (opOff : Nat) : SysInputs :=
  ⟨⟨true, op, 0, opOff, .idle, 0, fun _ => 0, noBytes, fun _ => 0⟩, ⟨true, true, false, fun _ => 0⟩⟩

def storeCycle (addr : Nat) (w : Word) : SysInputs :=
  ⟨⟨true, .none, 0, 0, .wr, addr, w, allBytes, fun _ => 0⟩, ⟨true, true, false, fun _ => 0⟩⟩

def loadCycle (addr : Nat) : SysInputs :=
  ⟨⟨true, .none, 0, 0, .rd, addr, fun _ => 0, allBytes, fun _ => 0⟩,
    ⟨true, true, false, fun _ => 0⟩⟩

/-- An idle controller over an empty stack that ends at `top`. -/
def emptyStack (top : Nat) : State :=
  ⟨.idleState, false, top, top, 0, 0, fun _ _ => 0, 0, .null⟩

/-- A word is stored, spilled by the next reserve, filled again and loaded. -/
def spillAndFill : List SysInputs :=
  [cycle .res 8, storeCycle 4 (fun _ => 7), cycle .res 4, cycle .none 0, cycle .none 0,
    cycle .none 0, cycle .free 4, cycle .ens 8] ++ List.replicate 6 (cycle .none 0) ++ [loadCycle 4]

theorem spillAndFill_refines :
    (run (next 2 2) (start (emptyStack 16) (fun _ _ => 0)) spillAndFill).expect =
        some (fun _ => 7) ∧
      Refines 2 (fun _ _ => 0)
        (run (next 2 2) (start (emptyStack 16) (fun _ _ => 0)) spillAndFill) :=
  ⟨by decide +kernel,
    refines_of_legal ⟨⟨1, rfl⟩, ⟨1, by decide, by decide, rfl⟩⟩
      ⟨rfl, rfl, rfl, le_rfl, by decide, by decide⟩ _ (by decide +kernel)⟩

end Runs

end Sys

end Patmos.StackCache
