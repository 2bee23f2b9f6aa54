import Patmos.Clocked
import Patmos.Ocp
import Mathlib.Data.BitVec
import Mathlib.Tactic.IntervalCases

/-!
# The exception unit

`Exceptions` keeps a pending flag for each of the 32 exception sources.  The flags of
internal exceptions (`excPend`) are set by the memory stage, the flags of the 16 interrupt
lines (`intrPend`, sources 16 to 31) by the registered interrupt pins.  The memory stage
acknowledges an exception with `memexc.call`, which clears the flag of its source.  The
other registers are the status word, shifted by two bits on every call and return, the
interrupt mask, the source of the last exception and the vector table.

The flags are wires that several blocks override in one cycle, the last one winning: the
write of the register `pend`, the acknowledgement, and last the pins.

The second part follows a pulse on an interrupt pin from the cycle it is latched to the
call that serves it.  The third is about the ports: a program in user mode cannot change the
settings of the unit, and a pending interrupt that comes first is presented to the decode stage
with the handler that was written for it.
-/

namespace Patmos.Exceptions

open Ocp Clocked

/-- `OcpCoreMasterSignals`, less the byte enables, which the unit does not read. -/
structure CoreMaster where
  cmd : OcpCmd
  addr : BitVec 32
  data : BitVec 32

structure MemExc where
  call : Bool
  ret : Bool
  src : Fin 32
  exc : Bool
  excBase : BitVec 30
  excAddr : BitVec 30
deriving DecidableEq

structure Inputs where
  ena : Bool
  ocp : CoreMaster
  intrs : Fin 16 → Bool
  memexc : MemExc

/-- `intrsReg` are the registers in front of the latches, `excReg` and `intrReg` the
    registers of the signals `exc` and `intr`. -/
structure State where
  masterReg : CoreMaster
  statusReg : BitVec 32
  maskReg : BitVec 32
  sourceReg : BitVec 32
  localModeReg : Bool
  vec : Fin 32 → BitVec 32
  vecDup : Fin 32 → BitVec 32
  sleepReg : Bool
  excPendReg : Fin 32 → Bool
  intrPendReg : Fin 32 → Bool
  intrsReg : Fin 16 → Bool
  excBaseReg : BitVec 30
  excAddrReg : BitVec 30
  srcReg : Fin 32
  excReg : Bool
  intrReg : Bool

def intrEna (s : State) : Bool := s.statusReg.getLsbD 0

def superMode (s : State) : Bool := s.statusReg.getLsbD 1

/-- `masterReg.Addr(EXC_ADDR_WIDTH-1, 2)`. -/
def regAddr (m : CoreMaster) : BitVec 6 := m.addr.extractLsb' 2 6

/-- `masterReg.Addr(EXC_ADDR_WIDTH-2, 2)`. -/
def vecAddr (m : CoreMaster) : Fin 32 := (m.addr.extractLsb' 2 5).toFin

/-- The upper half of the address range is the vector table. -/
def isVec (m : CoreMaster) : Bool := m.addr.getLsbD 7

/-- A write of the register at `a` that `checked` lets through. -/
def writes (s : State) (a : BitVec 6) : Bool :=
  s.masterReg.cmd == .wr && regAddr s.masterReg == a && superMode s

def writesVec (s : State) : Bool := s.masterReg.cmd == .wr && isVec s.masterReg && superMode s

/-! ### Pending flags -/

/-- The exception source of an interrupt line. -/
def intrSrc (l : Fin 16) : Fin 32 := ⟨16 + l, by omega⟩

/-- The pin of source `k` was high in the last cycle. -/
def latched (s : State) (k : Fin 32) : Bool :=
  if h : 16 ≤ k.val then s.intrsReg ⟨k.val - 16, by omega⟩ else false

/-- `intrPend` after the block of the register `pend`. -/
def intrPendOcp (s : State) (k : Fin 32) : Bool :=
  if writes s 2 then s.intrPendReg k && s.masterReg.data.getLsbD k.val else s.intrPendReg k

/-- The acknowledgement of source `k`. -/
def acked (i : Inputs) (k : Fin 32) : Bool := i.memexc.call && i.memexc.src == k

def intrPend (s : State) (i : Inputs) (k : Fin 32) : Bool :=
  if latched s k then true else if acked i k then false else intrPendOcp s k

def excPend (s : State) (i : Inputs) (k : Fin 32) : Bool :=
  if i.memexc.exc && i.memexc.src == k then true
  else if acked i k then false else s.excPendReg k

/-- The source with the lowest number among those in `p`. -/
def lowest (p : Fin 32 → Bool) : Option (Fin 32) := (List.finRange 32).find? p

def asUInt (p : Fin 32 → Bool) : BitVec 32 :=
  (List.finRange 32).foldl (fun w k => if p k then w ||| BitVec.twoPow 32 k.val else w) 0

/-- Interrupts that are pending and not masked. -/
def unmasked (s : State) (i : Inputs) (k : Fin 32) : Bool :=
  intrPend s i k && s.maskReg.getLsbD k.val

/-- Internal exceptions take precedence over interrupts. -/
def src (s : State) (i : Inputs) : Fin 32 :=
  (lowest (excPend s i)).getD ((lowest (unmasked s i)).getD ⟨0, by decide⟩)

/-! ### Ports -/

/-- The write of `sleep` is answered when an exception or interrupt arrives. -/
def wakes (s : State) : Bool := s.sleepReg && (s.excReg || (s.intrReg && intrEna s))

/-- `io.ocp.S.Resp`. -/
def toOcpResp (s : State) : OcpResp :=
  if wakes s then .dva
  else
    match s.masterReg.cmd with
    | .idle => .null
    | .rd => .dva
    | .wr =>
      if (decide ((regAddr s.masterReg).toNat ≤ 5) || isVec s.masterReg) && !superMode s then .err
      else if writes s 4 then .null else .dva

/-- `io.ocp.S.Data`. -/
def toOcpData (s : State) : BitVec 32 :=
  if s.masterReg.cmd = .rd then
    if isVec s.masterReg then s.vec (vecAddr s.masterReg)
    else
      match (regAddr s.masterReg).toNat with
      | 0 => s.statusReg
      | 1 => s.maskReg
      | 2 => asUInt s.intrPendReg
      | 3 => s.sourceReg
      | 5 => if s.localModeReg then BitVec.twoPow 32 31 else 0
      | _ => 0
  else 0

def invalDCache (s : State) : Bool := writes s 5 && s.masterReg.data.getLsbD 0

def invalICache (s : State) : Bool := writes s 5 && s.masterReg.data.getLsbD 1

structure ExcDec where
  exc : Bool
  intr : Bool
  addr : BitVec 32
  src : Fin 32
  «local» : Bool
  excBase : BitVec 30
  excAddr : BitVec 30

def excdec (s : State) : ExcDec :=
  { exc := s.excReg
    intr := s.intrReg && intrEna s
    addr := s.vecDup s.srcReg
    src := s.srcReg
    «local» := s.localModeReg
    excBase := s.excBaseReg
    excAddr := s.excAddrReg }

/-! ### Registers -/

/-- Calls and returns change the status word only when the pipeline moves. -/
def statusNext (s : State) (i : Inputs) : BitVec 32 :=
  if i.memexc.ret && i.ena then s.statusReg >>> 2
  else if i.memexc.call && i.ena then (s.statusReg <<< 2) ||| 2#32
  else if writes s 0 then s.masterReg.data else s.statusReg

def sourceNext (s : State) (i : Inputs) : BitVec 32 :=
  if i.memexc.call && i.ena then BitVec.ofNat 32 i.memexc.src.val
  else if writes s 3 then s.masterReg.data else s.sourceReg

def vecNext (s : State) (v : Fin 32 → BitVec 32) : Fin 32 → BitVec 32 :=
  if writesVec s then Function.update v (vecAddr s.masterReg) s.masterReg.data else v

def next (s : State) (i : Inputs) : State :=
  { masterReg := i.ocp
    statusReg := statusNext s i
    maskReg := if writes s 1 then s.masterReg.data else s.maskReg
    sourceReg := sourceNext s i
    localModeReg := if writes s 5 then s.localModeReg ^^ s.masterReg.data.getLsbD 31
      else s.localModeReg
    vec := vecNext s s.vec
    vecDup := vecNext s s.vecDup
    sleepReg := if wakes s then false else if writes s 4 then true else s.sleepReg
    excPendReg := excPend s i
    intrPendReg := intrPend s i
    intrsReg := i.intrs
    excBaseReg := if i.memexc.exc then i.memexc.excBase else s.excBaseReg
    excAddrReg := if i.memexc.exc then i.memexc.excAddr else s.excAddrReg
    srcReg := src s i
    excReg := (List.finRange 32).any (excPend s i)
    intrReg := (List.finRange 32).any (unmasked s i) }

/-! ### One cycle of an interrupt flag -/

@[simp] theorem latched_intrSrc (s : State) (l : Fin 16) :
    latched s (intrSrc l) = s.intrsReg l := by
  simp [latched, intrSrc]

@[simp] theorem intrsReg_next (s : State) (i : Inputs) : (next s i).intrsReg = i.intrs := rfl

/-- The access in `masterReg` takes back a pending flag. -/
def ClearsPending (s : State) : Prop :=
  writes s 2 = true ∧ ∃ k : Fin 32, s.intrPendReg k = true ∧ s.masterReg.data.getLsbD k.val = false

theorem intrPendOcp_of_not_clears {s : State} (h : ¬ ClearsPending s) (k : Fin 32) :
    intrPendOcp s k = s.intrPendReg k := by
  unfold intrPendOcp
  cases hw : writes s 2 with
  | false => rfl
  | true =>
    cases hk : s.intrPendReg k with
    | false => rfl
    | true =>
      cases hd : s.masterReg.data.getLsbD k.val with
      | true => rfl
      | false => exact absurd ⟨hw, k, hk, hd⟩ h

/-- The pin wins over the acknowledgement. -/
theorem intrPend_of_latched {s : State} {l : Fin 16} (h : s.intrsReg l = true) (i : Inputs) :
    (next s i).intrPendReg (intrSrc l) = true := by
  change intrPend s i (intrSrc l) = true
  simp [intrPend, h]

theorem intrPend_of_not_acked {s : State} {i : Inputs} {l : Fin 16} (hclear : ¬ ClearsPending s)
    (hpend : s.intrPendReg (intrSrc l) = true) (hack : acked i (intrSrc l) = false) :
    (next s i).intrPendReg (intrSrc l) = true := by
  change intrPend s i (intrSrc l) = true
  simp [intrPend, hack, intrPendOcp_of_not_clears hclear, hpend]

/-! ### Pulses over a run -/

section Pulses

variable (s₀ : State) (tr : ℕ → Inputs)

/-- The cycle in which the instruction that is in the memory stage in cycle `t` entered it. -/
def firstPresented : ℕ → ℕ
  | 0 => 0
  | t + 1 => if (tr t).ena then t + 1 else firstPresented t

/-- In cycle `t` an exception call for line `l` is taken. -/
def Taken (l : Fin 16) (t : ℕ) : Prop :=
  (tr t).memexc.call = true ∧ (tr t).ena = true ∧ (tr t).memexc.src = intrSrc l

/-- What drives the unit: the memory stage holds its signals while the pipeline is stalled,
    and no access clears a pending flag. -/
structure Env : Prop where
  held : ∀ t, (tr t).ena = false → (tr (t + 1)).memexc = (tr t).memexc
  noClear : ∀ t, ¬ ClearsPending (stateAt next s₀ tr t)

/-- A pulse in cycle `p` is latched in cycle `p + 1`.  From the next cycle on its flag is set,
    until a call that entered the memory stage at or after the latching is taken. -/
def KeepsPulses : Prop :=
  ∀ (l : Fin 16) (p : ℕ), (tr p).intrs l = true → ∀ t, p + 1 < t →
    (∀ u, p + 1 ≤ u → u < t → Taken tr l u → firstPresented tr u < p + 1) →
      (stateAt next s₀ tr t).intrPendReg (intrSrc l) = true

/-- No exception call is stalled while the flag of its interrupt is set or being set. -/
def Unstalled (s : State) (i : Inputs) : Prop :=
  ∀ l : Fin 16, i.memexc.call = true → i.ena = false → i.memexc.src = intrSrc l →
    s.intrPendReg (intrSrc l) = false ∧ s.intrsReg l = false

variable {s₀ tr}

/-- The memory stage has not moved since the instruction in it entered. -/
theorem stalled_of_firstPresented {t v : ℕ} (hv : firstPresented tr t ≤ v) (hvt : v < t) :
    (tr v).ena = false := by
  induction t with
  | zero => exact absurd hvt (Nat.not_lt_zero v)
  | succ t ih =>
    rw [firstPresented] at hv
    cases he : (tr t).ena with
    | true =>
      rw [he] at hv
      exact absurd hvt (Nat.not_lt.mpr hv)
    | false =>
      rw [he] at hv
      rcases Nat.lt_succ_iff_lt_or_eq.mp hvt with hlt | rfl
      · exact ih hv hlt
      · exact he

/-- Signals are held from any cycle of a stall to its end. -/
theorem Env.memexc_eq (henv : Env s₀ tr) {t v : ℕ} (hv : firstPresented tr t ≤ v) (hvt : v ≤ t) :
    (tr t).memexc = (tr v).memexc := by
  induction t with
  | zero => rw [Nat.le_zero.mp hvt]
  | succ t ih =>
    rcases eq_or_lt_of_le hvt with rfl | hlt
    · rfl
    · have hle : v ≤ t := Nat.lt_succ_iff.mp hlt
      have hena : (tr t).ena = false :=
        stalled_of_firstPresented (le_trans hv hle) (Nat.lt_succ_self t)
      rw [henv.held t hena]
      refine ih ?_ hle
      rw [firstPresented, hena] at hv
      exact hv

/-- A pulse is kept in every run in which no call of its line is stalled over it. -/
theorem keepsPulses_of_unstalled (henv : Env s₀ tr)
    (hun : ∀ t, Unstalled (stateAt next s₀ tr t) (tr t)) : KeepsPulses s₀ tr := by
  intro l p hpulse t hpt hserved
  have hlatch : (stateAt next s₀ tr (p + 1)).intrsReg l = true := hpulse
  -- by induction on the cycles since the pin was latched
  induction t with
  | zero => exact absurd hpt (Nat.not_lt_zero _)
  | succ t ih =>
    rcases Nat.lt_succ_iff_lt_or_eq.mp hpt with hlt | rfl
    · have hpend := ih hlt fun u hu hut => hserved u hu (Nat.lt_succ_of_lt hut)
      apply intrPend_of_not_acked (henv.noClear t) hpend
      cases hack : acked (tr t) (intrSrc l) with
      | false => rfl
      | true =>
        obtain ⟨hcall, hsrc⟩ : (tr t).memexc.call = true ∧ (tr t).memexc.src = intrSrc l := by
          simpa [acked] using hack
        exfalso
        cases hena : (tr t).ena with
        | false =>
          have := (hun t l hcall hena hsrc).1
          rw [hpend] at this
          exact Bool.noConfusion this
        | true =>
          -- the call is older than the pulse, so it was stalled when the pin was latched
          have hold := hserved t (Nat.le_of_lt hlt) (Nat.lt_succ_self t) ⟨hcall, hena, hsrc⟩
          have hsame := henv.memexc_eq (Nat.le_of_lt hold) (Nat.le_of_lt hlt)
          have hstall := stalled_of_firstPresented (Nat.le_of_lt hold) hlt
          have := (hun (p + 1) l (hsame ▸ hcall) hstall (hsame ▸ hsrc)).2
          rw [hlatch] at this
          exact Bool.noConfusion this
    · exact intrPend_of_latched hlatch _

end Pulses

/-! ### Two runs -/

/-- After reset, with the registers that have no reset value at zero. -/
def powerUp : State :=
  { masterReg := ⟨.idle, 0, 0⟩, statusReg := 2, maskReg := 0, sourceReg := 0, localModeReg := false,
    vec := fun _ => 0, vecDup := fun _ => 0, sleepReg := false, excPendReg := fun _ => false,
    intrPendReg := fun _ => false, intrsReg := fun _ => false, excBaseReg := 0, excAddrReg := 0,
    srcReg := ⟨0, by decide⟩, excReg := false, intrReg := false }

/-- A cycle without an access: the enable, whether the pin of line 0 is high and whether the
    call of its exception is in the memory stage. -/
def line0 (ena pin call : Bool) : Inputs :=
  { ena := ena, ocp := ⟨.idle, 0, 0⟩, intrs := fun l => pin && l == 0,
    memexc := ⟨call, false, intrSrc 0, false, 0, 0⟩ }

def idleCycle : Inputs := line0 true false false

theorem not_clearsPending {is : List Inputs} (his : ∀ i ∈ is, i.ocp.cmd = .idle) (t : ℕ) :
    ¬ ClearsPending (stateAt next powerUp (thenIdle idleCycle is) t) := by
  have hidle : ∀ t, (thenIdle idleCycle is t).ocp.cmd = .idle := by
    intro t
    rcases thenIdle_cases idleCycle is t with hidle | hmem
    · rw [hidle]
      rfl
    · exact his _ hmem
  rintro ⟨hw, -⟩
  have hcmd : (stateAt next powerUp (thenIdle idleCycle is) t).masterReg.cmd = .idle := by
    cases t with
    | zero => rfl
    | succ t => exact hidle t
  simp [writes, hcmd] at hw

/-- A cycle with the call of exception 3 in the memory stage. -/
def trap (ena : Bool) : Inputs :=
  { line0 ena false false with memexc := ⟨true, false, ⟨3, by decide⟩, false, 0, 0⟩ }

/-- A call of another exception is stalled in cycle 2 and taken in cycle 3.  The pulse of cycle 0
    is served by the call of cycle 4; the pulse of cycle 4, latched in the next cycle, is kept. -/
def served : List Inputs :=
  [line0 true true false, line0 true false false, trap false, trap true, line0 true true true]

theorem served_keepsPulses :
    (stateAt next powerUp (thenIdle idleCycle served) 4).intrPendReg (intrSrc 0) = true ∧
      KeepsPulses powerUp (thenIdle idleCycle served) ∧
      (stateAt next powerUp (thenIdle idleCycle served) 7).intrPendReg (intrSrc 0) = true := by
  have hstall : ∀ t, (thenIdle idleCycle served t).ena = false → t = 2 := by
    intro t ht
    rcases t with _ | _ | _ | _ | _ | t
    all_goals first | rfl | cases ht
  have hkeeps : KeepsPulses powerUp (thenIdle idleCycle served) := by
    apply keepsPulses_of_unstalled
    · constructor
      · intro t ht
        rw [hstall t ht]
        rfl
      · exact not_clearsPending (by decide)
    · intro t l _ ht hsrc
      rw [hstall t ht] at hsrc
      -- the stalled call is not one of an interrupt
      have hval : 3 = 16 + l.val := congrArg Fin.val hsrc
      omega
  exact ⟨by decide +kernel, hkeeps, by decide +kernel⟩

/-- The call for the first pulse is in the memory stage from cycle 2 to cycle 4, stalled for
    two cycles, and the second pulse is latched in cycle 3. -/
def overtaken : List Inputs :=
  [line0 true true false, line0 true false false, line0 false true true, line0 false false true,
    line0 true false true]

/-- The stalled call clears the flag once more in cycle 4: no call has been presented for the
    second pulse, and nothing of it is left. -/
theorem overtaken_pulse_lost :
    Env powerUp (thenIdle idleCycle overtaken) ∧
      ¬ KeepsPulses powerUp (thenIdle idleCycle overtaken) := by
  refine ⟨⟨?_, not_clearsPending (by decide)⟩, ?_⟩
  · intro t ht
    rcases t with _ | _ | _ | _ | _ | t
    all_goals first | rfl | cases ht
  · intro hkeeps
    have hset := hkeeps 0 2 rfl 5 (by decide) (by
      intro u hu hut _
      interval_cases u <;> decide)
    exact absurd hset (by decide +kernel)

/-! ### User mode -/

section UserMode

/-- The registers that a program can write, apart from the pending flags and `sleep`. -/
def settings (s : State) :=
  (s.statusReg, s.maskReg, s.sourceReg, s.localModeReg, s.vec, s.vecDup)

/-- A write of a register or a vector is answered with `ERR`, and it neither clears a pending flag
    nor invalidates a cache.  The cycle that ends a sleep answers the write of `sleep`. -/
structure Denies (s : State) : Prop where
  resp : s.masterReg.cmd = .wr → (regAddr s.masterReg).toNat ≤ 5 ∨ isVec s.masterReg = true →
    wakes s = false → toOcpResp s = .err
  noClear : ¬ ClearsPending s
  dcache : invalDCache s = false
  icache : invalICache s = false

/-- No exception is entered and none is left. -/
def NoSwitch (i : Inputs) : Prop :=
  i.ena = true → i.memexc.call = false ∧ i.memexc.ret = false

variable {s : State} {i : Inputs}

theorem writes_of_user (h : superMode s = false) (a : BitVec 6) : writes s a = false := by
  simp [writes, h]

theorem denies_of_user (h : superMode s = false) : Denies s where
  resp hcmd haddr hwake := by simp [toOcpResp, hwake, hcmd, haddr, h]
  noClear hclear := by simp [ClearsPending, writes_of_user h] at hclear
  dcache := by simp [invalDCache, writes_of_user h]
  icache := by simp [invalICache, writes_of_user h]

theorem settings_next (h : superMode s = false) (hi : NoSwitch i) :
    settings (next s i) = settings s := by
  have hcall : (i.memexc.call && i.ena) = false ∧ (i.memexc.ret && i.ena) = false := by
    cases hena : i.ena with
    | false => simp
    | true => simp [hi hena]
  have hvec : writesVec s = false := by simp [writesVec, h]
  simp [settings, next, statusNext, sourceNext, vecNext, hcall, hvec, writes_of_user h]

theorem sleepReg_next (h : superMode s = false) (hsleep : s.sleepReg = false) :
    (next s i).sleepReg = false := by
  simp [next, hsleep, writes_of_user h]

/-- A program in user mode cannot change the settings of the unit, whatever it writes. -/
theorem settings_of_user {is : List Inputs} (huser : superMode s = false)
    (hi : Along next (fun _ i => NoSwitch i) s is) :
    settings (run next s is) = settings s ∧
      (s.sleepReg = false → (run next s is).sleepReg = false) ∧
      Along next (fun s _ => Denies s) s is := by
  have hmode : ∀ t, settings t = settings s → superMode t = false := by
    intro t ht
    rw [superMode, (Prod.mk.inj ht).1]
    exact huser
  have hstep : ∀ t i, (settings t = settings s ∧ (s.sleepReg = false → t.sleepReg = false)) →
      NoSwitch i → settings (next t i) = settings s ∧
        (s.sleepReg = false → (next t i).sleepReg = false) := fun t i h hi =>
    ⟨(settings_next (hmode t h.1) hi).trans h.1, fun hs => sleepReg_next (hmode t h.1) (h.2 hs)⟩
  obtain ⟨hsettings, hsleep⟩ := inv_run hstep ⟨rfl, id⟩ hi
  exact ⟨hsettings, hsleep, (hi.with_inv hstep ⟨rfl, id⟩).mono fun t _ h =>
    denies_of_user (hmode t h.1.1)⟩

end UserMode

/-- A cycle with an access and the pin of line 0. -/
def access (cmd : OcpCmd) (addr data : BitVec 32) (pin : Bool) : Inputs :=
  { line0 true pin false with ocp := ⟨cmd, addr, data⟩ }

/-- In user mode: a write of the mask, one of the vector of source 16, a read of the mask. -/
def userWrites : List Inputs :=
  [access .wr 4 1 false, access .wr 0xC0 0x100 true, access .rd 4 0 false]

theorem userWrites_denied :
    toOcpResp (run next { powerUp with statusReg := 0 } (userWrites.take 2)) = .err ∧
      settings (run next { powerUp with statusReg := 0 } userWrites) =
        settings { powerUp with statusReg := 0 } := by
  have h := @settings_of_user { powerUp with statusReg := 0 } userWrites (by decide)
    ⟨by intro; decide, by intro; decide, by intro; decide, trivial⟩
  exact ⟨h.2.2.2.2.1.resp (by decide) (by decide) (by decide), h.1⟩

/-! ### What the processor sees of a pending interrupt -/

section Presented

theorem getLsbD_foldl_twoPow (p : Fin 32 → Bool) (l : List (Fin 32)) (w : BitVec 32) (k : Fin 32) :
    (l.foldl (fun w k => if p k then w ||| BitVec.twoPow 32 k.val else w) w).getLsbD k.val =
      (w.getLsbD k.val || decide (k ∈ l) && p k) := by
  induction l generalizing w with
  | nil => simp
  | cons j l ih =>
    rw [List.foldl_cons, ih]
    by_cases hj : k = j
    · subst hj
      cases hp : p k <;> simp
    · have hne : k.val ≠ j.val := fun h => hj (Fin.ext h)
      cases hp : p j <;> simp [hj, hne]

@[simp] theorem getLsbD_asUInt (p : Fin 32 → Bool) (k : Fin 32) :
    (asUInt p).getLsbD k.val = p k := by
  rw [asUInt, getLsbD_foldl_twoPow]
  simp

theorem lowest_eq_some {p : Fin 32 → Bool} {k : Fin 32} (hk : p k = true)
    (hlow : ∀ j < k, p j = false) : lowest p = some k := by
  rw [lowest, List.find?_eq_some_iff_getElem]
  refine ⟨hk, k.val, by simp, by simp, fun j hj => ?_⟩
  simpa using hlow _ (by simpa [Fin.lt_def] using hj)

/-- The interrupt of line `l` is not masked, and nothing that is pending comes before it. -/
structure Foremost (s : State) (i : Inputs) (l : Fin 16) : Prop where
  mask : s.maskReg.getLsbD (intrSrc l).val = true
  noExc : ∀ k, excPend s i k = false
  noLower : ∀ k < intrSrc l, unmasked s i k = false

/-- The access in `masterReg` writes the vector of source `k`. -/
def WritesVec (k : Fin 32) (s : State) : Prop :=
  writesVec s = true ∧ vecAddr s.masterReg = k

instance (k : Fin 32) (s : State) : Decidable (WritesVec k s) := inferInstanceAs (Decidable (_ ∧ _))

/-- The decode stage is shown the interrupt of line `l`, with the address of its handler. -/
structure Presented (d : ExcDec) (l : Fin 16) (enabled : Bool) (handler : BitVec 32) : Prop where
  exc : d.exc = false
  intr : d.intr = enabled
  src : d.src = intrSrc l
  addr : d.addr = handler

section Cycle

variable {s : State} {i : Inputs} {l : Fin 16} {k : Fin 32}

theorem unmasked_of_foremost (hpend : (next s i).intrPendReg (intrSrc l) = true)
    (h : Foremost s i l) : unmasked s i (intrSrc l) = true := by
  have hset : intrPend s i (intrSrc l) = true := hpend
  rw [unmasked, hset, h.mask]
  rfl

theorem srcReg_of_foremost (hpend : (next s i).intrPendReg (intrSrc l) = true)
    (h : Foremost s i l) : (next s i).srcReg = intrSrc l := by
  have hnone : lowest (excPend s i) = none := by simp [lowest, h.noExc]
  have hsome := lowest_eq_some (unmasked_of_foremost hpend h) h.noLower
  change src s i = intrSrc l
  simp [src, hnone, hsome]

theorem flags_of_foremost (hpend : (next s i).intrPendReg (intrSrc l) = true)
    (h : Foremost s i l) : (next s i).excReg = false ∧ (next s i).intrReg = true := by
  refine ⟨by simp [next, h.noExc], ?_⟩
  exact List.any_eq_true.mpr ⟨intrSrc l, List.mem_finRange _, unmasked_of_foremost hpend h⟩

theorem vecNext_of_writes (h : WritesVec k s) (v : Fin 32 → BitVec 32) :
    vecNext s v k = s.masterReg.data := by
  simp [vecNext, h.1, h.2]

theorem vecNext_of_not_writes (h : ¬ WritesVec k s) (v : Fin 32 → BitVec 32) :
    vecNext s v k = v k := by
  unfold vecNext
  split
  · next hw => exact Function.update_of_ne (fun hk => h ⟨hw, hk.symm⟩) _ _
  · rfl

theorem isVec_eq (m : CoreMaster) : isVec m = (regAddr m).getLsbD 5 := by
  simp [isVec, regAddr]

/-- A read of the register `pend` returns the flags. -/
theorem toOcpData_pend (hcmd : s.masterReg.cmd = .rd) (haddr : regAddr s.masterReg = 2) :
    toOcpData s = asUInt s.intrPendReg := by
  have hno : isVec s.masterReg = false := by simp [isVec_eq, haddr]
  simp [toOcpData, hcmd, hno, haddr]

theorem toOcpData_vec (hcmd : s.masterReg.cmd = .rd) (hvec : isVec s.masterReg = true) :
    toOcpData s = s.vec (vecAddr s.masterReg) := by
  simp [toOcpData, hcmd, hvec]

end Cycle

variable {s₀ : State} {tr : ℕ → Inputs}

/-- Both copies of a vector hold the word that was written last. -/
theorem vec_of_written {k : Fin 32} {u t : ℕ} (hut : u ≤ t)
    (hw : WritesVec k (stateAt next s₀ tr u))
    (hlast : ∀ v, u < v → v ≤ t → ¬ WritesVec k (stateAt next s₀ tr v)) :
    (stateAt next s₀ tr (t + 1)).vec k = (stateAt next s₀ tr u).masterReg.data ∧
      (stateAt next s₀ tr (t + 1)).vecDup k = (stateAt next s₀ tr u).masterReg.data := by
  induction t, hut using Nat.le_induction with
  | base => exact ⟨vecNext_of_writes hw _, vecNext_of_writes hw _⟩
  | succ t hut ih =>
    have hno := hlast (t + 1) (Nat.lt_succ_of_le hut) (le_refl _)
    obtain ⟨hvec, hdup⟩ := ih fun v huv hvt => hlast v huv (Nat.le_succ_of_le hvt)
    exact ⟨(vecNext_of_not_writes hno _).trans hvec, (vecNext_of_not_writes hno _).trans hdup⟩

/-- A pending interrupt that comes first is presented to the decode stage, as soon as interrupts
    are enabled, with its number and with the handler that was written last.  A program that reads
    the register `pend` or the vector in that cycle finds the same. -/
theorem presented_of_pending {l : Fin 16} {u t : ℕ}
    (hpend : (stateAt next s₀ tr (t + 1)).intrPendReg (intrSrc l) = true)
    (hfirst : Foremost (stateAt next s₀ tr t) (tr t) l) (hut : u ≤ t)
    (hw : WritesVec (intrSrc l) (stateAt next s₀ tr u))
    (hlast : ∀ v, u < v → v ≤ t → ¬ WritesVec (intrSrc l) (stateAt next s₀ tr v)) :
    Presented (excdec (stateAt next s₀ tr (t + 1))) l (intrEna (stateAt next s₀ tr (t + 1)))
        (stateAt next s₀ tr u).masterReg.data ∧
      ((tr t).ocp.cmd = .rd → regAddr (tr t).ocp = 2 →
        (toOcpData (stateAt next s₀ tr (t + 1))).getLsbD (intrSrc l).val = true) ∧
      ((tr t).ocp.cmd = .rd → isVec (tr t).ocp = true → vecAddr (tr t).ocp = intrSrc l →
        toOcpData (stateAt next s₀ tr (t + 1)) = (stateAt next s₀ tr u).masterReg.data) := by
  obtain ⟨hvec, hdup⟩ := vec_of_written hut hw hlast
  obtain ⟨hexc, hintr⟩ := flags_of_foremost hpend hfirst
  have hsrc := srcReg_of_foremost hpend hfirst
  refine ⟨⟨hexc, ?_, hsrc, ?_⟩, ?_, ?_⟩
  · simp only [excdec, stateAt_succ, hintr, Bool.true_and]
  · simpa only [excdec, stateAt_succ, hsrc] using hdup
  · intro hcmd haddr
    rw [toOcpData_pend (s := stateAt next s₀ tr (t + 1)) hcmd haddr, getLsbD_asUInt, hpend]
  · intro hcmd hv haddr
    rw [toOcpData_vec (s := stateAt next s₀ tr (t + 1)) hcmd hv, ← hvec, ← haddr]
    rfl

end Presented

/-- The handler of line 0 is written, its mask bit is set while the pin is high, interrupts are
    enabled, and the flags are read. -/
def handler0 : List Inputs :=
  [access .wr 0xC0 0x100 false, access .wr 4 0x10000 true, access .wr 0 3 false,
    access .rd 8 0 false]

theorem handler0_presented :
    Presented (excdec (stateAt next powerUp (thenIdle idleCycle handler0) 4)) 0 true 0x100 ∧
      (toOcpData (stateAt next powerUp (thenIdle idleCycle handler0) 4)).getLsbD 16 = true := by
  have h := @presented_of_pending powerUp (thenIdle idleCycle handler0) 0 1 3 (by decide +kernel)
    ⟨by decide +kernel, by decide +kernel, by decide +kernel⟩ (by decide) (by decide +kernel) (by
      intro v huv hvt
      interval_cases v <;> decide +kernel)
  exact ⟨h.1, h.2.1 rfl (by decide)⟩

end Patmos.Exceptions
