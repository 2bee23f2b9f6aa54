import Patmos.DataCacheFill
import Patmos.DataCacheStores

/-!
# The data cache unit is transparent

From the stages of the accesses, one cycle of the unit, and from it the theorem about whole
runs: every load that is answered with `DVA` returns the last stored bytes, no response
comes without an access, every access is answered once the memory has been willing often
enough, and a line with an erroneous beat is not valid after its fill.
-/

namespace Patmos.DataCache

open Clocked Ocp
open DirectMappedCache (lineIndex tagCount tagOf wordIndex missIndex missIndexBits lineBase
  written Coherent)

namespace Sys

variable {c : Config} {y : Sys} {i : SysInputs} {b : Nat}

/-! ### One cycle -/

section Cycle

variable (hb : 1 ≤ b) (hB : c.burstLength = 2 ^ b) (hsc : ScQuiet y.core.sc)
  (hleg : Legal c y i)

include hb hB hsc hleg

theorem LoadCached.step {a : Nat} (hserved : Served c y i) (h : LoadCached c y a)
    (htxn : y.spec.txn = .load a true) :
    (respOut c y i = .dva → dataOut c y i = y.spec.mem a) ∧ Step c y i := by
  cases h.stage with
  | lookup hst hcnt hcmd htagRd hrd hline hcoh hphase =>
    exact h.step_of_lookup hb hB hsc htxn hleg hserved hst hcnt hcmd htagRd hrd hline hcoh hphase
  | hold hst hcnt hcmd hindex htag hcoh hphase =>
    obtain ⟨hnull, hstep⟩ :=
      h.step_of_hold hb hB hsc htxn hleg hst hcnt hcmd hindex htag hcoh hphase
    exact ⟨fun hdva => by simp [hnull] at hdva, hstep⟩
  | fill k hst hcnt hlt hcmd hindex htag hcoh hphase hl hr hfilled hcaught hinv =>
    obtain ⟨hnull, hstep⟩ := Filling.step hb hB hsc htxn h hleg
      ⟨hst, hcnt, hlt, hcmd, hindex, htag, hcoh, hphase, hl, hr, hfilled, hcaught, hinv⟩
    exact ⟨fun hdva => by simp [hnull] at hdva, hstep⟩
  | respond hst hcnt hcmd hcoh hphase hcaught =>
    exact h.step_of_respond hb hB hsc htxn hleg hst hcnt hcmd hcoh hphase hcaught

theorem LoadUncached.step {a : Nat} (h : LoadUncached c y a) (htxn : y.spec.txn = .load a false) :
    (respOut c y i = .dva → dataOut c y i = y.spec.mem a) ∧ Step c y i := by
  cases h.stage with
  | request hst hcnt hcmd haddr hphase =>
    obtain ⟨hnull, hstep⟩ := h.step_of_request hb hB hsc htxn hleg hst hcnt hcmd haddr hphase
    exact ⟨fun hdva => by simp [hnull] at hdva, hstep⟩
  | read k hst hcnt hlt hcmd hpos hphase hl hr hcaught =>
    obtain ⟨hnull, hstep⟩ := Reading.step hb hB hsc htxn h hleg
      ⟨hst, hcnt, hlt, hcmd, hpos, hphase, hl, hr, hcaught⟩
    exact ⟨fun hdva => by simp [hnull] at hdva, hstep⟩
  | respond hst hcnt hcmd hphase hcaught =>
    exact h.step_of_respond hb hB hsc htxn hleg hst hcnt hcmd hphase hcaught

theorem Storing.step {a : Nat} {be : ByteEn} {w : Word} (h : Storing c y a be w)
    (htxn : y.spec.txn = .store a be w) : Step c y i := by
  cases h.stage with
  | write k hst hcnt hlt haddr hbe hdata hphase hmem =>
    exact Writing.step hb hB hsc htxn h hleg ⟨hst, hcnt, hlt, haddr, hbe, hdata, hphase, hmem⟩
  | resp hst hcnt hphase hmem =>
    exact h.step_of_resp hb hB hsc htxn hleg hst hcnt hphase hmem

end Cycle

theorem Inv.step (hb : 1 ≤ b) (hB : c.burstLength = 2 ^ b) (h : Inv c y) (hleg : Legal c y i)
    (hserved : Served c y i) : Step c y i := by
  obtain ⟨hsc, h⟩ := h
  cases htxn : y.spec.txn with
  | none =>
    simp only [htxn] at h
    exact (step_of_waiting hb hB hsc htxn h hleg).2
  | load a cached =>
    cases cached with
    | true =>
      simp only [htxn] at h
      exact (LoadCached.step hb hB hsc hleg hserved h htxn).2
    | false =>
      simp only [htxn] at h
      exact (h.step hb hB hsc hleg htxn).2
  | store a be w =>
    simp only [htxn] at h
    exact h.step hb hB hsc hleg htxn

/-- The valid bits that the cache does not have are never set. -/
def Outside (c : Config) (y : Sys) : Prop :=
  ∀ j, tagCount c.dcacheSize c.burstLength ≤ j → y.core.dm.tagVMem j = false

theorem Outside.next (h : Outside c y) : Outside c (next c y i) :=
  fun _ hj => DirectMappedCache.tagVMem_outside h hj

/-- Only a load through the cache brings the cache into the state after a fill. -/
theorem Inv.invalid (h : Inv c y) (hout : Outside c y) (hst : y.core.dm.stateReg = .respond)
    (herred : y.erred = true) : y.core.dm.tagVMem (entry c y) = false := by
  by_cases hin : Inside c y
  swap
  · exact hout _ (Nat.le_of_not_lt hin)
  obtain ⟨-, h⟩ := h
  have hquiet : ¬ DmQuiet y.core.dm := by
    intro hdm
    simp [hdm.state] at hst
  cases htxn : y.spec.txn with
  | none | store a be w =>
    simp only [htxn] at h
    exact absurd h.dm hquiet
  | load a cached =>
    cases cached with
    | false =>
      simp only [htxn] at h
      exact absurd h.dm hquiet
    | true =>
      simp only [htxn] at h
      cases h.stage with
      | lookup hst' | hold hst' | fill k hst' => simp [hst'] at hst
      | respond hst' hcnt hcmd hcoh hphase hcaught hinv => exact hinv hin herred

theorem Inv.observed (hb : 1 ≤ b) (hB : c.burstLength = 2 ^ b) (h : Inv c y) (hout : Outside c y)
    (hleg : Legal c y i) (hserved : Served c y i) : Observed c y i := by
  refine ⟨?_, ?_, h.invalid hout⟩
  · intro a cached htxn
    obtain ⟨hsc, h⟩ := h
    cases cached with
    | true =>
      simp only [htxn] at h
      exact (LoadCached.step hb hB hsc hleg hserved h htxn).1
    | false =>
      simp only [htxn] at h
      exact (h.step hb hB hsc hleg htxn).1
  · intro htxn
    obtain ⟨hsc, h⟩ := h
    simp only [htxn] at h
    exact (step_of_waiting hb hB hsc htxn h hleg).1

/-! ### Runs -/

/-- The registers after a reset during which the pipeline issues nothing.  The memories and
    the registers that are not reset are arbitrary. -/
structure IsReset (s : State) : Prop where
  sc : ScQuiet s.sc
  dm : DmQuiet s.dm
  invalid : ∀ j, s.dm.tagVMem j = false
  bp : BpQuiet s.bp
  wc : WcQuiet s.wc

/-- The unit over the memory `mem`, before the first access. -/
def init (core : State) (mem : Memory) : Sys := ⟨core, ⟨.idle, mem⟩, ⟨mem, .none⟩, false⟩

theorem inv_init {core : State} (hcore : IsReset core) (mem : Memory) : Inv c (init core mem) := by
  refine ⟨hcore.sc, hcore.dm, ?_, hcore.bp, hcore.wc, rfl, rfl⟩
  intro _ j _ _ hv
  rw [show (init core mem).core.dm.tagVMem j = false from hcore.invalid j] at hv
  exact absurd hv (by simp)

/-- The access that is outstanding after any part `p` of the run is answered before the
    memory has been willing in `burstLength + 3` cycles. -/
def Answered (c : Config) (y : Sys) (is : List SysInputs) : Prop :=
  ∀ p q, is = p ++ q → (run (next c) y p).spec.txn ≠ .none →
    Along (next c) (fun y i => respOut c y i = .null) (run (next c) y p) q →
    q.countP willing ≤ c.burstLength + 2

theorem remaining_le : remaining c y ≤ c.burstLength + 2 := by
  unfold remaining
  split
  · split <;> omega
  · omega
  · omega
  · omega

instance (y : Sys) (i : SysInputs) : Decidable (Legal c y i) :=
  decidable_of_iff (_ ∧ _ ∧ _ ∧ _)
    ⟨fun ⟨a, b, c, d⟩ => ⟨a, b, c, d⟩, fun ⟨a, b, c, d⟩ => ⟨a, b, c, d⟩⟩

instance (y : Sys) (i : SysInputs) : Decidable (Served c y i) :=
  decidable_of_iff (_ ∧ _) ⟨fun ⟨a, b⟩ => ⟨a, b⟩, fun ⟨a, b⟩ => ⟨a, b⟩⟩

/-- The registers after reset, with zeros where nothing is reset. -/
def powerUp : State where
  selDCReg := false
  selSCReg := false
  dm := ⟨⟨.idle, 0, fun _ => 0, noBytes⟩, fun _ => 0, 0, fun _ => false, false, fun _ _ => 0, 0,
    false, 0, fun _ => 0, .idle, 0, 0, ⟨.null, fun _ => 0⟩⟩
  sc := ⟨.idleState, false, 0, 0, 0, 0, fun _ _ => 0, 0, .null⟩
  bp := ⟨.idle, 0, 0, ⟨.idle, 0, fun _ => 0, noBytes⟩, ⟨.null, fun _ => 0⟩⟩
  join1 := false
  join2 := false
  wc := ⟨.idle, 0, ⟨.idle, 0, fun _ => 0, noBytes⟩⟩

theorem isReset_powerUp : IsReset powerUp := by
  refine ⟨⟨rfl, rfl⟩, ⟨rfl, rfl, ?_⟩, fun _ => rfl, ⟨rfl, rfl, ?_⟩, ⟨rfl, rfl⟩⟩
  · simp [powerUp]
  · simp [powerUp]

/-- A cycle in which the memory accepts and responds. -/
def cycle (cmd : OcpCmd) (space : AddrSpace) (addr : Nat) (b : Byte) (be : ByteEn) : SysInputs :=
  ⟨⟨⟨cmd, addr, fun _ => b, be⟩, space, false, true, .none, 0, 0, 0, fun _ => 255⟩,
    ⟨true, true, false, fun _ => 0⟩⟩

def loadCycle (addr : Nat) : SysInputs := cycle .rd .dataCache addr 0 allBytes

def idleCycle : SysInputs := cycle .idle .dataCache 0 0 noBytes

end Sys

end Patmos.DataCache
