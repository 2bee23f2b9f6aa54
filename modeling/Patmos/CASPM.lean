import Patmos.RoundRobin
import Patmos.Select
import Patmos.Served
import Patmos.Spm

/-!
# The scratchpad memory with compare-and-swap

`CASPM` has one scratchpad for all cores.  A core writes its expected value and its new value
into registers; a read is the compare-and-swap.  It waits for the core's slot, three cycles
long: in the first the word is addressed, in the second it is compared and addressed again, in
the third the new value is written, if it is, while the old word is the answer.

What the cores are promised is an object on which the operations are performed one after the
other.  The order is that of the cycles in which an operation takes effect: a write to a register
when it comes in, a compare-and-swap when it compares.
-/

namespace Patmos.CASPM

open Ocp Clocked RoundRobin Patmos.Sequential Served

/-! ### The circuit -/

inductive Fsm where
  | sIdle
  | sRead
  | sWrite
deriving DecidableEq, Repr

structure State (corecnt : Nat) where
  precnt : Nat
  cnt : Fin corecnt
  cmdRegs : Fin corecnt → OcpCmd
  addrRegs : Fin corecnt → Nat
  newvalRegs : Fin corecnt → Word
  bytenRegs : Fin corecnt → ByteEn
  expvalRegs : Fin corecnt → Word
  states : Fin corecnt → Fsm
  respReg : Fin corecnt → OcpResp
  spm : Spm.State

/-- The signals of the cores, and what an address outside of the scratchpad reads. -/
structure Cycle (corecnt : Nat) where
  cores : Fin corecnt → CacheMaster
  undef : Word

section Circuit

variable (size : Nat) {corecnt : Nat}

/-- An address as `addrRegs` keeps it. -/
def kept (addr : Nat) : Nat := addr % 2 ^ MemBlock.log2Up size

/-- `spm.io.M`. -/
def port (s : State corecnt) : CacheMaster :=
  ⟨s.cmdRegs s.cnt, s.addrRegs s.cnt, s.newvalRegs s.cnt, s.bytenRegs s.cnt⟩

/-- `spm.io.S.Data`. -/
def spmData (s : State corecnt) : Word := (Spm.out size s.spm).data

/-- The memory with the write that is on the port. -/
def memNext (s : State corecnt) : Memory := Spm.store size s.spm.mem (port s)

def stateNext (s : State corecnt) (m : CacheMaster) (i : Fin corecnt) : Fsm :=
  match s.states i with
  | .sIdle => if m.cmd = .rd then .sRead else .sIdle
  | .sRead => if s.cnt = i ∧ s.precnt = 0 then .sWrite else .sRead
  | .sWrite => .sIdle

def respNext (s : State corecnt) (m : CacheMaster) (i : Fin corecnt) : OcpResp :=
  match s.states i with
  | .sIdle => if m.cmd = .wr then .dva else .null
  | .sRead => .null
  | .sWrite => .dva

@[simps -fullyApplied]
def next (s : State corecnt) (c : Cycle corecnt) : State corecnt where
  precnt := if s.precnt = 2 then 0 else (s.precnt + 1) % 4
  cnt := if s.precnt ≠ 2 then s.cnt else succ s.cnt
  cmdRegs i := if s.states i = .sWrite ∧ spmData size s = s.expvalRegs i then .wr else .rd
  addrRegs i := if s.states i = .sIdle ∧ (c.cores i).cmd = .rd then kept size (c.cores i).addr
    else s.addrRegs i
  newvalRegs i := if s.states i = .sIdle ∧ (c.cores i).cmd = .wr ∧ (c.cores i).addr / 4 % 2 = 1
    then (c.cores i).data else s.newvalRegs i
  bytenRegs i := if s.states i = .sIdle ∧ (c.cores i).cmd = .rd then (c.cores i).byteEn
    else s.bytenRegs i
  expvalRegs i := if s.states i = .sIdle ∧ (c.cores i).cmd = .wr ∧ (c.cores i).addr / 4 % 2 ≠ 1
    then (c.cores i).data else s.expvalRegs i
  states i := stateNext s (c.cores i) i
  respReg i := respNext s (c.cores i) i
  spm := Spm.next size s.spm (Spm.wires (port s)) c.undef

end Circuit

/-! ### The object -/

structure Spec (corecnt : Nat) where
  mem : Memory
  expected : Fin corecnt → Word
  new : Fin corecnt → Word

/-- An operation of a core, and what it gets back: the word, for a read. -/
abbrev Op (corecnt : Nat) := Fin corecnt × CacheMaster

abbrev Result (corecnt : Nat) := Fin corecnt × Option Word

section Object

variable (size : Nat) {corecnt : Nat}

def exec (s : Spec corecnt) (o : Op corecnt) : Spec corecnt × Result corecnt :=
  match o.2.cmd with
  | .idle => (s, o.1, none)
  | .wr =>
    if o.2.addr / 4 % 2 = 1 then
      ({ s with new := Function.update s.new o.1 o.2.data }, o.1, none)
    else ({ s with expected := Function.update s.expected o.1 o.2.data }, o.1, none)
  | .rd =>
    ({ s with
        mem := if s.mem (Spm.wordAddr size o.2.addr) = s.expected o.1 then
            s.mem.write (Spm.wordAddr size o.2.addr) o.2.byteEn (s.new o.1)
          else s.mem },
      o.1, some (s.mem (Spm.wordAddr size o.2.addr)))

end Object

/-! ### Cores -/

/-- The memory with the outstanding command of each core. -/
structure Sys (corecnt : Nat) where
  caspm : State corecnt
  pend : Fin corecnt → Option CacheMaster

namespace Sys

section Next

variable (size : Nat) {corecnt : Nat}

@[simps -fullyApplied]
def next (y : Sys corecnt) (c : Cycle corecnt) : Sys corecnt where
  caspm := CASPM.next size y.caspm c
  pend := pendNext y.pend y.caspm.respReg c.cores

/-- A core has one command outstanding, the next one comes at the earliest with the answer, and
    a read is inside the memory. -/
structure Legal (y : Sys corecnt) (c : Cycle corecnt) : Prop where
  single : OneAtATime y.pend y.caspm.respReg c.cores
  inside : ∀ i, (c.cores i).cmd = .rd → Spm.wordAddr size (c.cores i).addr < size / 4

end Next

variable {corecnt : Nat}

/-- The registers with a reset value have it, and `respReg`, which is cleared in every cycle
    without a command, is clear. -/
structure IsReset (y : Sys corecnt) : Prop where
  precnt : y.caspm.precnt = 0
  cnt : y.caspm.cnt.val = 0
  cmdRegs : ∀ i, y.caspm.cmdRegs i = .rd
  states : ∀ i, y.caspm.states i = .sIdle
  respReg : ∀ i, y.caspm.respReg i = .null
  pend : ∀ i, y.pend i = none

/-- The operation of core `i` that takes effect in a cycle. -/
def act (y : Sys corecnt) (c : Cycle corecnt) (i : Fin corecnt) : Option CacheMaster :=
  match y.caspm.states i with
  | .sIdle => if (c.cores i).cmd = .wr then some (c.cores i) else none
  | .sRead => none
  | .sWrite => y.pend i

/-- The operations that take effect in a cycle. -/
def performed (y : Sys corecnt) (c : Cycle corecnt) : List (Op corecnt) :=
  (List.finRange corecnt).filterMap fun i => (y.act c i).map fun m => (i, m)

/-- The answer that core `i` sees. -/
def answer (size : Nat) (y : Sys corecnt) (i : Fin corecnt) : Option (Result corecnt) :=
  if y.caspm.respReg i = .null then none
  else (y.pend i).map fun m => (i, if m.cmd = .rd then some (spmData size y.caspm) else none)

/-- The operations that take effect, the answers that are seen and the commands that are sent. -/
def view (size corecnt : Nat) : View (Spec corecnt) (Op corecnt) (Result corecnt) (Sys corecnt)
    (Cycle corecnt) (Fin corecnt) CacheMaster where
  step := next size
  exec := exec size
  performed := performed
  answers y := (List.finRange corecnt).filterMap (y.answer size)
  sent i _ c := if (c.cores i).cmd = .idle then [] else [c.cores i]
  waiting i y := if y.caspm.states i = .sIdle then [] else (y.pend i).toList
  own i o := if o.1 = i then some o.2 else none

/-- The object when the circuit is reset. -/
def object (y : Sys corecnt) : Spec corecnt :=
  ⟨y.caspm.spm.mem, y.caspm.expvalRegs, y.caspm.newvalRegs⟩

section Invariant

variable (size : Nat)

/-- The command of core `i` in its registers. -/
structure Loaded (y : Sys corecnt) (i : Fin corecnt) (m : CacheMaster) : Prop where
  pend : y.pend i = some m
  rd : m.cmd = .rd
  addr : y.caspm.addrRegs i = kept size m.addr
  byteEn : y.caspm.bytenRegs i = m.byteEn
  inside : Spm.wordAddr size m.addr < size / 4

/-- Core `i` is in its slot, with its word on the data port. -/
structure InSlot (y : Sys corecnt) (i : Fin corecnt) (precnt : Nat) : Prop where
  cnt : y.caspm.cnt = i
  precnt : y.caspm.precnt = precnt
  rdAddrReg : y.caspm.spm.rdAddrReg = Spm.wordAddr size (y.caspm.addrRegs i)

/-- What core `i` is doing. -/
inductive Core (y : Sys corecnt) (i : Fin corecnt) : Prop where
  | idle (hstate : y.caspm.states i = .sIdle) (hresp : y.caspm.respReg i = .null)
      (hcmd : y.caspm.cmdRegs i = .rd) (hpend : y.pend i = none)
  | written (m : CacheMaster) (hstate : y.caspm.states i = .sIdle)
      (hresp : y.caspm.respReg i = .dva) (hcmd : y.caspm.cmdRegs i = .rd)
      (hpend : y.pend i = some m) (hwr : m.cmd = .wr)
  | read (m : CacheMaster) (hstate : y.caspm.states i = .sRead)
      (hresp : y.caspm.respReg i = .null) (hcmd : y.caspm.cmdRegs i = .rd)
      (hloaded : Loaded size y i m)
  | compare (m : CacheMaster) (hstate : y.caspm.states i = .sWrite)
      (hresp : y.caspm.respReg i = .null) (hcmd : y.caspm.cmdRegs i = .rd)
      (hloaded : Loaded size y i m) (hslot : InSlot size y i 1)
  | swapped (m : CacheMaster) (hstate : y.caspm.states i = .sIdle)
      (hresp : y.caspm.respReg i = .dva) (hloaded : Loaded size y i m) (hslot : InSlot size y i 2)

/-- The circuit stands for the object. -/
structure Rel (s : Spec corecnt) (y : Sys corecnt) : Prop where
  precnt : y.caspm.precnt ≤ 2
  expected : s.expected = y.caspm.expvalRegs
  new : s.new = y.caspm.newvalRegs
  mem : s.mem = memNext size y.caspm
  core : ∀ i, Core size y i

end Invariant

/-! ### One cycle -/

section Cycle

variable {size : Nat} {s : Spec corecnt} {y : Sys corecnt} {c : Cycle corecnt} {i j : Fin corecnt}
  {m : CacheMaster}

theorem wordAddr_kept (addr : Nat) :
    Spm.wordAddr size (kept size addr) = Spm.wordAddr size addr := by
  rw [Spm.wordAddr, kept, Nat.mod_mod, ← Spm.wordAddr]

/-- The scratchpad after the cycle has the write that was on the port. -/
theorem mem_next : (y.next size c).caspm.spm.mem = memNext size y.caspm :=
  Spm.mem_next_wires _ _ _

theorem Loaded.next (h : Loaded size y i m) (hlegal : Legal size y c)
    (hstate : y.caspm.states i ≠ .sIdle) (hresp : y.caspm.respReg i = .null) :
    Loaded size (y.next size c) i m := by
  refine ⟨hlegal.single.pendNext h.pend hresp, h.rd, ?_, ?_, h.inside⟩
  · simpa [Sys.next, CASPM.next, hstate] using h.addr
  · simpa [Sys.next, CASPM.next, hstate] using h.byteEn

theorem core_of_sIdle (hlegal : Legal size y c) (hstate : y.caspm.states i = .sIdle)
    (hfree : y.pend i = none ∨ y.caspm.respReg i ≠ .null) : Core size (y.next size c) i := by
  have hcmdRegs : (y.next size c).caspm.cmdRegs i = .rd := by
    simp [hstate]
  have hpend : (y.next size c).pend i = _ := pendNext_of_free hfree
  cases hcmd : (c.cores i).cmd with
  | idle =>
    refine .idle ?_ ?_ hcmdRegs (by simpa [hcmd] using hpend)
    · simp [stateNext, hstate, hcmd]
    · simp [respNext, hstate, hcmd]
  | wr =>
    refine .written (c.cores i) ?_ ?_ hcmdRegs (by simpa [hcmd] using hpend) hcmd
    · simp [stateNext, hstate, hcmd]
    · simp [respNext, hstate, hcmd]
  | rd =>
    refine .read (c.cores i) ?_ ?_ hcmdRegs
      ⟨by simpa [hcmd] using hpend, hcmd, ?_, ?_, hlegal.inside i hcmd⟩
    · simp [stateNext, hstate, hcmd]
    · simp [respNext, hstate, hcmd]
    · simp [hstate, hcmd]
    · simp [hstate, hcmd]

/-- The slot goes on, with the word of the core on the data port. -/
theorem inSlot_next (hcnt : y.caspm.cnt = i) (hprecnt : y.caspm.precnt < 2)
    (hstate : y.caspm.states i ≠ .sIdle) :
    InSlot size (y.next size c) i (y.caspm.precnt + 1) := by
  have hne : y.caspm.precnt ≠ 2 := ne_of_lt hprecnt
  constructor
  · simp [hne, hcnt]
  · simp only [Sys.next, CASPM.next, hne, if_false]
    omega
  · simp [Spm.next, Spm.wires, port, hstate, hcnt]

theorem core_of_sRead (hlegal : Legal size y c) (hstate : y.caspm.states i = .sRead)
    (hresp : y.caspm.respReg i = .null) (hloaded : Loaded size y i m) :
    Core size (y.next size c) i := by
  have hbusy : y.caspm.states i ≠ .sIdle := by simp [hstate]
  have hcmdRegs : (y.next size c).caspm.cmdRegs i = .rd := by
    simp [hstate]
  have hrespNext : (y.next size c).caspm.respReg i = .null := by
    simp [respNext, hstate]
  have hloadedNext := hloaded.next hlegal hbusy hresp
  by_cases hslot : y.caspm.cnt = i ∧ y.caspm.precnt = 0
  · refine .compare m ?_ hrespNext hcmdRegs hloadedNext ?_
    · simp [stateNext, hstate, hslot]
    · have hnext : InSlot size (y.next size c) i (y.caspm.precnt + 1) :=
        inSlot_next hslot.1 (by omega) hbusy
      rwa [hslot.2] at hnext
  · refine .read m ?_ hrespNext hcmdRegs hloadedNext
    simp [stateNext, hstate, hslot]

theorem core_of_sWrite (hlegal : Legal size y c) (hstate : y.caspm.states i = .sWrite)
    (hresp : y.caspm.respReg i = .null) (hloaded : Loaded size y i m)
    (hslot : InSlot size y i 1) : Core size (y.next size c) i := by
  have hbusy : y.caspm.states i ≠ .sIdle := by simp [hstate]
  refine .swapped m ?_ ?_ (hloaded.next hlegal hbusy hresp) ?_
  · simp [stateNext, hstate]
  · simp [respNext, hstate]
  · have hnext : InSlot size (y.next size c) i (y.caspm.precnt + 1) :=
      inSlot_next hslot.cnt (by rw [hslot.precnt]; omega) hbusy
    rwa [hslot.precnt] at hnext

theorem Core.next (h : Core size y i) (hlegal : Legal size y c) : Core size (y.next size c) i := by
  cases h with
  | idle hstate _ _ hpend => exact core_of_sIdle hlegal hstate (Or.inl hpend)
  | written m hstate hresp _ _ _ =>
    exact core_of_sIdle hlegal hstate (Or.inr (by simp [hresp]))
  | read m hstate hresp _ hloaded => exact core_of_sRead hlegal hstate hresp hloaded
  | compare m hstate hresp _ hloaded hslot =>
    exact core_of_sWrite hlegal hstate hresp hloaded hslot
  | swapped m hstate hresp _ _ => exact core_of_sIdle hlegal hstate (Or.inr (by simp [hresp]))

/-- A core that compares is in its slot, with its word on the data port. -/
structure Comparing (size : Nat) (s : Spec corecnt) (y : Sys corecnt) (i : Fin corecnt)
    (m : CacheMaster) : Prop where
  loaded : Loaded size y i m
  slot : InSlot size y i 1
  resp : y.caspm.respReg i = .null
  data : spmData size y.caspm = s.mem (Spm.wordAddr size m.addr)

variable (h : Rel size s y) (hlegal : Legal size y c)

include h in
theorem Rel.comparing (hstate : y.caspm.states i = .sWrite) : ∃ m, Comparing size s y i m := by
  cases h.core i with
  | idle hidle _ _ _ | written m hidle _ _ _ _ | swapped m hidle _ _ _ => simp [hstate] at hidle
  | read m hread _ _ _ => simp [hstate] at hread
  | compare m _ hresp hcmd hloaded hslot =>
    refine ⟨m, hloaded, hslot, hresp, ?_⟩
    have hquiet : memNext size y.caspm = y.caspm.spm.mem := by
      simp [memNext, Spm.store, port, hslot.cnt, hcmd]
    rw [h.mem, hquiet, spmData, Spm.out, hslot.rdAddrReg, hloaded.addr, wordAddr_kept]
    exact MemBlock.read_of_lt hloaded.inside _

/-! #### Operations of the same cycle -/

theorem mem_performed {o : Op corecnt} : o ∈ y.performed c ↔ y.act c o.1 = some o.2 := by
  simp only [performed, List.mem_filterMap, List.mem_finRange, true_and, Option.map_eq_some_iff]
  constructor
  · rintro ⟨i, m, hact, rfl⟩
    exact hact
  · intro hact
    exact ⟨o.1, o.2, hact, rfl⟩

theorem pairwise_performed {r : Op corecnt → Op corecnt → Prop}
    (h : ∀ o o', y.act c o.1 = some o.2 → y.act c o'.1 = some o'.2 → o.1 ≠ o'.1 → r o o') :
    (y.performed c).Pairwise r := by
  rw [performed, List.pairwise_filterMap]
  refine (List.nodup_finRange corecnt).imp ?_
  intro i j hne o ho o' ho'
  obtain ⟨m, hm, rfl⟩ := Option.map_eq_some_iff.mp ho
  obtain ⟨m', hm', rfl⟩ := Option.map_eq_some_iff.mp ho'
  exact h _ _ hm hm' hne

theorem nodup_performed : (y.performed c).Nodup := by
  apply pairwise_performed
  intro o o' _ _ hne heq
  exact hne (congrArg Prod.fst heq)

include h in
/-- Only the core that compares reads. -/
theorem Rel.state_of_act (hact : y.act c i = some m) (hrd : m.cmd ≠ .wr) :
    y.caspm.states i = .sWrite ∧ Comparing size s y i m := by
  cases hstate : y.caspm.states i with
  | sIdle =>
    simp only [act, hstate, Option.ite_none_right_eq_some, Option.some.injEq] at hact
    exact absurd (hact.2 ▸ hact.1) hrd
  | sRead => simp [act, hstate] at hact
  | sWrite =>
    obtain ⟨m', hm'⟩ := h.comparing hstate
    simp only [act, hstate, hm'.loaded.pend, Option.some.injEq] at hact
    exact ⟨rfl, hact ▸ hm'⟩

theorem exec_fst_mem_of_wr {o : Op corecnt} (h : o.2.cmd = .wr) :
    (exec size s o).1.mem = s.mem := by
  simp only [exec, h]
  split <;> rfl

/-- The registers of core `i`. -/
def regs (i : Fin corecnt) (t : Spec corecnt) : Word × Word := (t.expected i, t.new i)

theorem exec_regs_of_ne {o : Op corecnt} (h : o.1 ≠ i) :
    regs i (exec size s o).1 = regs i s := by
  unfold exec
  split
  · rfl
  · split
    · exact Prod.ext rfl (Function.update_of_ne h.symm _ _)
    · exact Prod.ext (Function.update_of_ne h.symm _ _) rfl
  · rfl

theorem exec_regs_congr {t : Spec corecnt} (h : regs i t = regs i s) :
    regs i (exec size t (i, m)).1 = regs i (exec size s (i, m)).1 := by
  obtain ⟨hexp, hnew⟩ := Prod.mk.inj h
  unfold exec
  split
  · exact h
  · split
    · simp [regs, hexp]
    · simp [regs, hnew]
  · exact h

theorem exec_snd_of_mem {o : Op corecnt} {t : Spec corecnt} (h : o.2.cmd = .rd → t.mem = s.mem) :
    (exec size t o).2 = (exec size s o).2 := by
  unfold exec
  split
  · rfl
  · split <;> rfl
  · rename_i hrd
    rw [h hrd]

include h in
theorem Rel.undisturbed : (y.performed c).Pairwise (Undisturbed (exec size)) := by
  apply pairwise_performed
  intro o o' ho ho' hne t
  apply exec_snd_of_mem
  intro hrd'
  apply exec_fst_mem_of_wr
  by_contra hwr
  -- two cores that read would both be in their slot
  have hcnt := (h.state_of_act ho hwr).2.slot.cnt
  have hcnt' := (h.state_of_act ho' (by simp [hrd'])).2.slot.cnt
  exact hne (hcnt.symm.trans hcnt')

include h hlegal in
/-- The answer of the next cycle is the result of the operation. -/
theorem Rel.answer_next (i : Fin corecnt) :
    (y.next size c).answer size i = (y.act c i).map fun m => (exec size s (i, m)).2 := by
  cases hstate : y.caspm.states i with
  | sIdle =>
    by_cases hcmd : (c.cores i).cmd = .wr
    · have hresult : (exec size s (i, c.cores i)).2 = (i, none) := by
        simp only [exec, hcmd]
        split <;> rfl
      simp [answer, act, hstate, hcmd, respNext, hresult, pendNext]
    · simp [answer, act, hstate, hcmd, respNext]
  | sRead => simp [answer, act, hstate, respNext]
  | sWrite =>
    obtain ⟨m, hm⟩ := h.comparing hstate
    have hpend : (y.next size c).pend i = some m := hlegal.single.pendNext hm.loaded.pend hm.resp
    have hresp : (y.next size c).caspm.respReg i = .dva := by
      simp [respNext, hstate]
    have hdata : spmData size (y.next size c).caspm = s.mem (Spm.wordAddr size m.addr) := by
      have haddr : (y.next size c).caspm.spm.rdAddrReg = Spm.wordAddr size m.addr := by
        rw [← wordAddr_kept, ← hm.loaded.addr, ← hm.slot.cnt]
        rfl
      rw [spmData, Spm.out, mem_next, ← h.mem, haddr]
      exact MemBlock.read_of_lt hm.loaded.inside _
    rw [answer, hresp, hpend, hdata]
    simp [act, hstate, hm.loaded.pend, hm.loaded.rd, exec]

include h hlegal in
theorem Rel.results_performed :
    results (exec size) s (y.performed c) = (view size corecnt).answers (y.next size c) := by
  rw [results_of_pairwise h.undisturbed, performed, List.map_filterMap, view]
  apply List.filterMap_congr
  intro i _
  rw [h.answer_next hlegal, Option.map_map]
  rfl

/-! #### The object after the cycle -/

theorem regs_after_of_none (hact : y.act c i = none) :
    regs i (after (exec size) s (y.performed c)) = regs i s := by
  apply after_of_quiet
  intro o ho t
  apply exec_regs_of_ne
  rintro rfl
  rw [mem_performed, hact] at ho
  cases ho

theorem regs_after_of_some (hact : y.act c i = some m) :
    regs i (after (exec size) s (y.performed c)) = regs i (exec size s (i, m)).1 := by
  have hmem : (i, m) ∈ y.performed c := mem_performed.mpr hact
  refine after_of_mem nodup_performed hmem ?_ fun _ _ => exec_regs_congr
  intro o ho hne t
  apply exec_regs_of_ne
  rintro rfl
  rw [mem_performed, hact, Option.some.injEq] at ho
  exact hne (Prod.ext rfl ho.symm)

include h in
theorem Rel.regs_next (i : Fin corecnt) :
    regs i (after (exec size) s (y.performed c)) =
      ((y.next size c).caspm.expvalRegs i, (y.next size c).caspm.newvalRegs i) := by
  have hsame : regs i s = (y.caspm.expvalRegs i, y.caspm.newvalRegs i) := by
    rw [regs, h.expected, h.new]
  cases hstate : y.caspm.states i with
  | sIdle =>
    by_cases hcmd : (c.cores i).cmd = .wr
    · have hact : y.act c i = some (c.cores i) := by simp [act, hstate, hcmd]
      rw [regs_after_of_some hact]
      by_cases hbit : (c.cores i).addr / 4 % 2 = 1
      · simp [exec, regs, hcmd, hbit, hstate, h.expected]
      · simp [exec, regs, hcmd, hbit, hstate, h.new]
    · have hact : y.act c i = none := by simp [act, hstate, hcmd]
      rw [regs_after_of_none hact, hsame]
      simp [hcmd]
  | sRead =>
    have hact : y.act c i = none := by simp [act, hstate]
    rw [regs_after_of_none hact, hsame]
    simp [hstate]
  | sWrite =>
    obtain ⟨m, hm⟩ := h.comparing hstate
    have hact : y.act c i = some m := by simp [act, hstate, hm.loaded.pend]
    have hkeep : regs i (exec size s (i, m)).1 = regs i s := by simp [exec, hm.loaded.rd, regs]
    rw [regs_after_of_some hact, hkeep, hsame]
    simp [hstate]

include h in
theorem Rel.mem_of_quiet (hquiet : ∀ i, y.caspm.states i ≠ .sWrite) :
    (after (exec size) s (y.performed c)).mem = memNext size (y.next size c).caspm := by
  have hkeep : (after (exec size) s (y.performed c)).mem = s.mem := by
    refine after_of_quiet fun o ho t => exec_fst_mem_of_wr ?_
    by_contra hwr
    exact hquiet o.1 (h.state_of_act (mem_performed.mp ho) hwr).1
  have hcmd : ∀ i, (y.next size c).caspm.cmdRegs i = .rd := by
    intro i
    simp [hquiet i]
  have hport : memNext size (y.next size c).caspm = (y.next size c).caspm.spm.mem := by
    rw [memNext, Spm.store, port, hcmd, if_neg OcpCmd.noConfusion]
  rw [hkeep, h.mem, hport, mem_next]

include h in
/-- The other operations of the cycle leave alone what a compare-and-swap reads and writes. -/
theorem Rel.mem_after (hact : y.act c i = some m) (hm : Comparing size s y i m) :
    (after (exec size) s (y.performed c)).mem = (exec size s (i, m)).1.mem := by
  let v : Spec corecnt → Memory × Word × Word := fun t => (t.mem, regs i t)
  have hmem : (i, m) ∈ y.performed c := mem_performed.mpr hact
  have hothers : ∀ o ∈ y.performed c, o ≠ (i, m) → ∀ t, v (exec size t o).1 = v t := by
    intro o ho hne t
    rw [mem_performed] at ho
    have hcore : o.1 ≠ i := by
      rintro rfl
      rw [hact, Option.some.injEq] at ho
      exact hne (Prod.ext rfl ho.symm)
    have hwr : o.2.cmd = .wr := by
      by_contra hwr
      exact hcore ((h.state_of_act ho hwr).2.slot.cnt.symm.trans hm.slot.cnt)
    exact Prod.ext (exec_fst_mem_of_wr hwr) (exec_regs_of_ne hcore)
  have hown : ∀ t t', v t = v t' → v (exec size t (i, m)).1 = v (exec size t' (i, m)).1 := by
    intro t t' heq
    obtain ⟨hmemEq, hregs⟩ := Prod.mk.inj heq
    obtain ⟨hexp, hnew⟩ := Prod.mk.inj hregs
    simp [v, exec, hm.loaded.rd, regs, hmemEq, hexp, hnew]
  exact congrArg Prod.fst (after_of_mem nodup_performed hmem hothers hown)

include h in
theorem Rel.mem_of_compare (hstate : y.caspm.states i = .sWrite) :
    (after (exec size) s (y.performed c)).mem = memNext size (y.next size c).caspm := by
  obtain ⟨m, hm⟩ := h.comparing hstate
  have hact : y.act c i = some m := by simp [act, hstate, hm.loaded.pend]
  have hswap : (after (exec size) s (y.performed c)).mem = (exec size s (i, m)).1.mem :=
    h.mem_after hact hm
  have hcnt : (y.next size c).caspm.cnt = i := by
    simp [hm.slot.precnt, hm.slot.cnt]
  have hmemNext : (y.next size c).caspm.spm.mem = s.mem := mem_next.trans h.mem.symm
  have haddr : (y.next size c).caspm.addrRegs i = kept size m.addr := by
    simpa [Sys.next, CASPM.next, hstate] using hm.loaded.addr
  have hbyteEn : (y.next size c).caspm.bytenRegs i = m.byteEn := by
    simpa [Sys.next, CASPM.next, hstate] using hm.loaded.byteEn
  have hnew : (y.next size c).caspm.newvalRegs i = s.new i := by
    simp [hstate, h.new]
  have hcmd : (y.next size c).caspm.cmdRegs i =
      if s.mem (Spm.wordAddr size m.addr) = s.expected i then .wr else .rd := by
    simp [hstate, hm.data, h.expected]
  rw [hswap, memNext, Spm.store, port, hcnt, hcmd, hmemNext, haddr, hbyteEn, hnew, wordAddr_kept]
  simp only [exec, hm.loaded.rd]
  by_cases heq : s.mem (Spm.wordAddr size m.addr) = s.expected i
  · rw [if_pos heq, if_pos heq, if_pos rfl, MemBlock.writeBytes_of_lt hm.loaded.inside]
    rfl
  · rw [if_neg heq, if_neg heq, if_neg OcpCmd.noConfusion]

include h hlegal in
theorem Rel.next : Rel size (after (exec size) s (y.performed c)) (y.next size c) := by
  have hprecnt := h.precnt
  refine ⟨?_, ?_, ?_, ?_, fun i => (h.core i).next hlegal⟩
  · simp only [Sys.next, CASPM.next]
    split <;> omega
  · funext i
    exact congrArg Prod.fst (h.regs_next i)
  · funext i
    exact congrArg Prod.snd (h.regs_next i)
  · by_cases hbusy : ∃ i, y.caspm.states i = .sWrite
    · obtain ⟨i, hstate⟩ := hbusy
      exact h.mem_of_compare hstate
    · exact h.mem_of_quiet fun i hstate => hbusy ⟨i, hstate⟩

theorem IsReset.rel (h : IsReset y) : Rel size y.object y := by
  refine ⟨by rw [h.precnt]; exact Nat.zero_le 2, rfl, rfl, ?_, ?_⟩
  · simp [memNext, Spm.store, port, h.cmdRegs, object]
  · intro i
    exact .idle (h.states i) (h.respReg i) (h.cmdRegs i) (h.pend i)

/-! #### Commands -/

theorem own_performed (size : Nat) (y : Sys corecnt) (c : Cycle corecnt) (i : Fin corecnt) :
    (y.performed c).filterMap ((view size corecnt).own i) = (y.act c i).toList := by
  rw [performed, List.filterMap_filterMap, Select.filterMap_of_one (k := i)]
  · cases y.act c i <;> simp [view]
  · intro j hj
    cases y.act c j <;> simp [view, hj]

include h hlegal in
/-- A command takes effect at once or waits, and then takes effect once. -/
theorem Rel.sent_next (i : Fin corecnt) :
    (view size corecnt).waiting i y ++ (view size corecnt).sent i y c =
      (y.performed c).filterMap ((view size corecnt).own i) ++
        (view size corecnt).waiting i (y.next size c) := by
  rw [own_performed]
  cases h.core i with
  | idle hstate _ _ _ | written _ hstate _ _ _ _ | swapped _ hstate _ _ _ =>
    cases hcmd : (c.cores i).cmd with
    | idle | wr | rd => simp [view, act, hstate, hcmd, stateNext, pendNext]
  | read m hstate hresp _ hloaded =>
    have hcmd := hlegal.single.silent hloaded.pend hresp
    have hpend : (y.next size c).pend i = some m := hlegal.single.pendNext hloaded.pend hresp
    have hbusy : (y.next size c).caspm.states i ≠ .sIdle := by
      simp only [Sys.next, CASPM.next, stateNext, hstate]
      split <;> exact Fsm.noConfusion
    simp only [view, if_neg hbusy, hpend, hloaded.pend]
    simp [act, hstate, hcmd]
  | compare m hstate hresp _ hloaded hslot =>
    have hcmd := hlegal.single.silent hloaded.pend hresp
    simp [view, act, hstate, hcmd, stateNext]

theorem serves (size corecnt : Nat) : (view size corecnt).Serves (Rel size) (Legal size) where
  rel h hlegal := h.next hlegal
  answers h hlegal := h.results_performed hlegal
  sent h hlegal i := h.sent_next hlegal i

/-! #### Progress -/

/-- The cycles until the slot of core `i` begins. -/
def wait (y : Sys corecnt) (i : Fin corecnt) : Nat :=
  if y.caspm.precnt = 0 then 3 * dist y.caspm.cnt i
  else 3 - y.caspm.precnt + 3 * dist (succ y.caspm.cnt) i

/-- How many more cycles core `i` sees no answer. -/
def remaining (i : Fin corecnt) (y : Sys corecnt) : Nat :=
  match y.caspm.states i with
  | .sIdle => 0
  | .sRead => 2 + y.wait i
  | .sWrite => 1

theorem wait_next (hprecnt : y.caspm.precnt ≤ 2)
    (hslot : ¬ (y.caspm.cnt = i ∧ y.caspm.precnt = 0)) :
    (y.next size c).wait i + 1 = y.wait i := by
  rcases lt_or_ge y.caspm.precnt 2 with hlt | hge
  · have hne : y.caspm.precnt ≠ 2 := ne_of_lt hlt
    have hcnt : (y.next size c).caspm.cnt = y.caspm.cnt := by simp [hne]
    have hpre : (y.next size c).caspm.precnt = y.caspm.precnt + 1 := by
      simp only [Sys.next, CASPM.next, hne, if_false]
      omega
    unfold wait
    rw [hcnt, hpre, if_neg (Nat.succ_ne_zero _)]
    by_cases hzero : y.caspm.precnt = 0
    · have hdist := dist_succ fun hcore : y.caspm.cnt = i => hslot ⟨hcore, hzero⟩
      rw [if_pos hzero, hzero]
      omega
    · rw [if_neg hzero]
      omega
  · have htwo : y.caspm.precnt = 2 := Nat.le_antisymm hprecnt hge
    have hcnt : (y.next size c).caspm.cnt = succ y.caspm.cnt := by simp [htwo]
    have hpre : (y.next size c).caspm.precnt = 0 := by simp [htwo]
    rw [wait, wait, hcnt, hpre, htwo]
    simp
    omega

theorem wait_le (hprecnt : y.caspm.precnt ≤ 2) : y.wait i ≤ 3 * corecnt - 1 := by
  have hhere := dist_lt y.caspm.cnt i
  have hnext := dist_lt (succ y.caspm.cnt) i
  unfold wait
  split <;> omega

include h in
theorem Rel.remaining_next (hpend : y.pend i ≠ none) (hresp : y.caspm.respReg i = .null) :
    remaining i (y.next size c) + 1 ≤ remaining i y := by
  cases h.core i with
  | idle _ _ _ hnone => exact absurd hnone hpend
  | written m _ hdva _ _ _ | swapped m _ hdva _ _ => simp [hresp] at hdva
  | compare m hstate _ _ _ _ => simp [remaining, hstate, stateNext]
  | read m hstate _ _ _ =>
    by_cases hslot : y.caspm.cnt = i ∧ y.caspm.precnt = 0
    · have hwrite : (y.next size c).caspm.states i = .sWrite := by
        simp [stateNext, hstate, hslot]
      simp only [remaining, hstate, hwrite]
      omega
    · have hread : (y.next size c).caspm.states i = .sRead := by
        simp [stateNext, hstate, hslot]
      have hwait : (y.next size c).wait i + 1 = y.wait i := wait_next h.precnt hslot
      simp only [remaining, hstate, hread]
      omega

theorem remaining_le (hprecnt : y.caspm.precnt ≤ 2) : remaining i y ≤ 3 * corecnt + 1 := by
  have hpos := i.pos
  have hwait : y.wait i ≤ 3 * corecnt - 1 := wait_le hprecnt
  unfold remaining
  split <;> omega

end Cycle

/-! ### Every run -/

section Runs

variable {size : Nat} {y : Sys corecnt}

theorem IsReset.history (h : IsReset y) {cs : List (Cycle corecnt)}
    (hlegal : Along (next size) (Legal size) y cs) :
    (view size corecnt).History (Rel size) y.object y cs (run (next size) y cs) := by
  apply (serves size corecnt).history h.rel
  · exact List.filterMap_eq_nil_iff.mpr fun i _ => if_pos (h.respReg i)
  · exact fun i => if_pos (h.states i)
  · exact hlegal

end Runs

/-! ### A run -/

instance (size : Nat) (y : Sys corecnt) (c : Cycle corecnt) : Decidable (Legal size y c) :=
  decidable_of_iff (_ ∧ _) ⟨fun ⟨a, b⟩ => ⟨a, b⟩, fun ⟨a, b⟩ => ⟨a, b⟩⟩

/-- After reset, with numbered words. -/
def powerUp [NeZero corecnt] : Sys corecnt :=
  ⟨⟨0, 0, fun _ => .rd, fun _ => 0, fun _ _ => 0, fun _ => noBytes, fun _ _ => 0,
    fun _ => .sIdle, fun _ => .null, ⟨0, numbered, 0, fun _ => 0⟩⟩, fun _ => none⟩

end Sys

end Patmos.CASPM
