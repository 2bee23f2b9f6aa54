import Patmos.RoundRobin
import Patmos.Select
import Patmos.Served
import Patmos.Spm

/-!
# The shared scratchpad memory

Every core has a `NodeSPM`, which registers a command, shows it to the memory in the slot of the
core and answers in the next cycle; the memory sees the bitwise OR of what all nodes show.  The
nodes count the slots in lock step, each with a counter of its own.

The cores are promised a memory on which their commands are executed one after the other, each in a
slot of its core between its issue and its answer.
-/

namespace Patmos.SharedSPM

open Ocp Clocked Patmos.Sequential Served

/-! ### The circuit -/

inductive Fsm where
  | idle
  | rd
  | wr
deriving DecidableEq, Repr

/-- The registers of `NodeSPM`; `respReg` is the one behind `dvaRepl`. -/
structure Node where
  state : Fsm
  cnt : Nat
  masterReg : CacheMaster
  respReg : OcpResp

structure State (nrCores : Nat) where
  nodes : Fin nrCores → Node
  spm : Spm.State

/-- The signals of the cores, and what an address outside of the memory reads. -/
structure Cycle (nrCores : Nat) where
  cores : Fin nrCores → CacheMaster
  undef : Word

section Circuit

variable {nrCores : Nat}

def cntNext (nrCores cnt : Nat) : Nat :=
  if cnt = nrCores - 1 then 0 else (cnt + 1) % 2 ^ MemBlock.log2Up nrCores

/-- `enable` of node `id`. -/
def enable (id : Fin nrCores) (x : Node) : Bool := x.cnt == id.val

/-- `io.toMem.M` of node `id`. -/
def toMem (id : Fin nrCores) (x : Node) : Spm.Master :=
  if enable id x then Spm.wires x.masterReg else Spm.Master.zero

def nodeNext (id : Fin nrCores) (x : Node) (m : CacheMaster) : Node :=
  let x₀ : Node := { x with cnt := cntNext nrCores x.cnt, respReg := .null }
  match x.state with
  | .idle =>
    match m.cmd with
    | .wr => { x₀ with state := .wr, masterReg := m }
    | .rd => { x₀ with state := .rd, masterReg := m }
    | .idle => x₀
  | .rd | .wr =>
    if enable id x then
      { x₀ with
        state := .idle, masterReg := { x.masterReg with cmd := .idle }, respReg := .dva }
    else x₀

/-- `spm.io.M`. -/
def merged (s : State nrCores) : Spm.Master :=
  (List.finRange nrCores).foldl (fun m i => m.or (toMem i (s.nodes i))) Spm.Master.zero

def next (size : Nat) (s : State nrCores) (c : Cycle nrCores) : State nrCores where
  nodes i := nodeNext i (s.nodes i) (c.cores i)
  spm := Spm.next size s.spm (merged s) c.undef

end Circuit

/-! ### The memory of the cores -/

/-- A command of a core. -/
abbrev Command (nrCores : Nat) := Fin nrCores × CacheMaster

/-- A command with the word that an address outside of the memory reads, and what the core gets
    back: the word, for a read. -/
abbrev Op (nrCores : Nat) := Command nrCores × Word

abbrev Result (nrCores : Nat) := Fin nrCores × Option Word

/-- A command is executed. -/
def exec (size : Nat) {nrCores : Nat} (mem : Memory) (o : Op nrCores) : Memory × Result nrCores :=
  (Spm.store size mem o.1.2, o.1.1,
    if o.1.2.cmd = .rd then some (Spm.load size mem o.1.2 o.2) else none)

/-! ### Cores -/

/-- The memory with the outstanding command of each core. -/
structure Sys (nrCores : Nat) where
  shared : State nrCores
  pend : Fin nrCores → Option CacheMaster

namespace Sys

variable {nrCores : Nat}

/-- The node of core `i`. -/
def node (y : Sys nrCores) (i : Fin nrCores) : Node := y.shared.nodes i

def next (size : Nat) (y : Sys nrCores) (c : Cycle nrCores) : Sys nrCores where
  shared := SharedSPM.next size y.shared c
  pend := pendNext y.pend (fun i => (y.node i).respReg) c.cores

/-- A core has one command outstanding, and the next one comes at the earliest with the answer. -/
def Legal (y : Sys nrCores) (c : Cycle nrCores) : Prop :=
  OneAtATime y.pend (fun i => (y.node i).respReg) c.cores

/-- The registers with a reset value have it, and `masterReg`, which has none, has no command. -/
structure IsReset (y : Sys nrCores) : Prop where
  state : ∀ i, (y.node i).state = .idle
  cnt : ∀ i, (y.node i).cnt = 0
  masterReg : ∀ i, (y.node i).masterReg.cmd = .idle
  respReg : ∀ i, (y.node i).respReg = .null
  pend : ∀ i, y.pend i = none

/-- The command of core `i` that is executed in a cycle. -/
def act (y : Sys nrCores) (i : Fin nrCores) : Option (Command nrCores) :=
  if enable i (y.node i) ∧ (y.node i).masterReg.cmd ≠ .idle then some (i, (y.node i).masterReg)
  else none

/-- The answer that core `i` sees. -/
def answer (size : Nat) (y : Sys nrCores) (i : Fin nrCores) : Option (Result nrCores) :=
  if (y.node i).respReg = .null then none
  else (y.pend i).map fun m =>
    (i, if m.cmd = .rd then some (Spm.out size y.shared.spm).data else none)

/-- The commands that are executed and sent, and the answers that are seen. -/
def view (size nrCores : Nat) : View Memory (Op nrCores) (Result nrCores) (Sys nrCores)
    (Cycle nrCores) (Fin nrCores) CacheMaster where
  step := next size
  exec := exec size
  performed y c := ((List.finRange nrCores).filterMap y.act).map fun m => (m, c.undef)
  answers y := (List.finRange nrCores).filterMap (y.answer size)
  sent i _ c := if (c.cores i).cmd = .idle then [] else [c.cores i]
  waiting i y := if (y.node i).state = .idle then [] else (y.pend i).toList
  own i o := if o.1.1 = i then some o.1.2 else none

/-- What the memory sees in a cycle: no two nodes show anything but zeros, the merge is what the one
    node shows, and it is the command of the core whose slot it is. -/
structure Exclusive (y : Sys nrCores) : Prop where
  single : ∀ i j, toMem i (y.node i) ≠ Spm.Master.zero →
    toMem j (y.node j) ≠ Spm.Master.zero → i = j
  merge : ∀ i, toMem i (y.node i) ≠ Spm.Master.zero → merged y.shared = toMem i (y.node i)
  slot : ∀ i o, y.act i = some o → enable i (y.node i) = true ∧ merged y.shared = Spm.wires o.2
  quiet : (∀ i, y.act i = none) → (merged y.shared).cmd = Spm.code .idle

/-- A run is one of the memory: the commands that were executed in the cycles `cs` are, core by
    core, the commands that were sent, less one that may wait; executed one after the other they
    have the answers that the cores see up to the cycle after `cs`, and lead to the memory of that
    cycle. -/
structure Linearizable (size : Nat) (y : Sys nrCores) (cs : List (Cycle nrCores)) : Prop where
  exclusive : Along (next size) (fun y _ => y.Exclusive) y cs
  commands : ∀ i, (view size nrCores).commands i y cs =
    (((view size nrCores).ops y cs).filter fun o => o.1.1 = i).map (fun o => o.1.2) ++
      (view size nrCores).waiting i (run (next size) y cs)
  responses : ∀ c, (view size nrCores).given y (cs ++ [c]) =
    results (exec size) y.shared.spm.mem ((view size nrCores).ops y cs)
  memory : (run (next size) y cs).shared.spm.mem =
    after (exec size) y.shared.spm.mem ((view size nrCores).ops y cs)
  /-- A command is answered within `nrCores + 1` cycles. -/
  answered : ∀ p q i, cs = p ++ q → (run (next size) y p).pend i ≠ none →
    Along (next size) (fun y _ => (y.node i).respReg = .null) (run (next size) y p) q →
    q.length ≤ nrCores

/-! ### The invariant -/

/-- What core `i` is doing. -/
inductive Core (y : Sys nrCores) (i : Fin nrCores) : Prop where
  | idle (hstate : (y.node i).state = .idle) (hcmd : (y.node i).masterReg.cmd = .idle)
      (hresp : (y.node i).respReg = .null) (hpend : y.pend i = none)
  | waiting (m : CacheMaster) (hstate : (y.node i).state ≠ .idle) (hreg : (y.node i).masterReg = m)
      (hresp : (y.node i).respReg = .null) (hpend : y.pend i = some m) (hcmd : m.cmd ≠ .idle)
  | answered (m : CacheMaster) (hstate : (y.node i).state = .idle)
      (hcmd : (y.node i).masterReg.cmd = .idle) (hresp : (y.node i).respReg = .dva)
      (hpend : y.pend i = some m)

/-- The slot counters agree. -/
structure LockStep (y : Sys nrCores) : Prop where
  lt : ∀ i, (y.node i).cnt < nrCores
  eq : ∀ i j, (y.node i).cnt = (y.node j).cnt

/-- The circuit stands for the memory. -/
structure Rel (mem : Memory) (y : Sys nrCores) : Prop where
  mem : mem = y.shared.spm.mem
  cnt : LockStep y
  core : ∀ i, Core y i

section Cycle

variable {size : Nat} {mem : Memory} {y : Sys nrCores} {c : Cycle nrCores} {i j : Fin nrCores}
  {m : CacheMaster}

/-! #### Slots -/

theorem cntNext_eq {cnt : Nat} (h : cnt < nrCores) :
    cntNext nrCores cnt = if cnt = nrCores - 1 then 0 else cnt + 1 := by
  unfold cntNext
  split
  · rfl
  · have hpow := MemBlock.le_pow_log2Up nrCores
    exact Nat.mod_eq_of_lt (by omega)

theorem pend_next (y : Sys nrCores) (c : Cycle nrCores) :
    (y.next size c).pend = pendNext y.pend (fun i => (y.node i).respReg) c.cores := rfl

theorem node_next (y : Sys nrCores) (c : Cycle nrCores) (i : Fin nrCores) :
    (y.next size c).node i = nodeNext i (y.node i) (c.cores i) := rfl

theorem cnt_nodeNext (x : Node) : (nodeNext i x m).cnt = cntNext nrCores x.cnt := by
  unfold nodeNext
  split
  · split <;> rfl
  · split <;> rfl
  · split <;> rfl

theorem LockStep.next (h : LockStep y) : LockStep (y.next size c) := by
  constructor
  · intro i
    rw [node_next, cnt_nodeNext, cntNext_eq (h.lt i)]
    have := h.lt i
    split <;> omega
  · intro i j
    rw [node_next, node_next, cnt_nodeNext, cnt_nodeNext, h.eq i j]

theorem LockStep.eq_of_enable (h : LockStep y) (hi : enable i (y.node i) = true)
    (hj : enable j (y.node j) = true) : i = j := by
  apply Fin.ext
  rw [← beq_iff_eq.mp hi, ← beq_iff_eq.mp hj]
  exact h.eq i j

theorem enable_of_toMem (h : toMem i (y.node i) ≠ Spm.Master.zero) :
    enable i (y.node i) = true := by
  by_contra hslot
  exact h (if_neg hslot)

theorem LockStep.merged_of_enable (h : LockStep y) (hi : enable i (y.node i) = true) :
    merged y.shared = Spm.wires (y.node i).masterReg := by
  have hothers : ∀ j, j ≠ i → toMem j (y.node j) = Spm.Master.zero := by
    intro j hne
    by_contra hshown
    exact hne (h.eq_of_enable (enable_of_toMem hshown) hi)
  have hmerged : merged y.shared = toMem i (y.node i) :=
    Select.foldl_of_one Spm.Master.zero_or Spm.Master.or_zero hothers
  rw [hmerged, toMem, if_pos hi]

/-- It is always the slot of one core, if there is one. -/
theorem LockStep.exists_enable (h : LockStep y) (i : Fin nrCores) :
    ∃ k, enable k (y.node k) = true := by
  refine ⟨⟨(y.node i).cnt, h.lt i⟩, ?_⟩
  exact beq_iff_eq.mpr (h.eq _ i)

theorem LockStep.exclusive (h : LockStep y) : y.Exclusive := by
  constructor
  · intro i j hi hj
    exact h.eq_of_enable (enable_of_toMem hi) (enable_of_toMem hj)
  · intro i hi
    have hslot := enable_of_toMem hi
    rw [h.merged_of_enable hslot, toMem, if_pos hslot]
  · intro i o ho
    unfold act at ho
    split at ho
    · rename_i hslot
      cases ho
      exact ⟨hslot.1, h.merged_of_enable hslot.1⟩
    · cases ho
  · intro hnone
    rcases Nat.eq_zero_or_pos nrCores with rfl | hpos
    · rfl
    · obtain ⟨k, hk⟩ := h.exists_enable ⟨0, hpos⟩
      have hidle : (y.node k).masterReg.cmd = .idle := by
        by_contra hcmd
        have hact := hnone k
        rw [act, if_pos ⟨hk, hcmd⟩] at hact
        cases hact
      rw [h.merged_of_enable hk, Spm.wires, hidle]

/-! #### Cores -/

theorem core_of_idle (hstate : (y.node i).state = .idle)
    (hreg : (y.node i).masterReg.cmd = .idle)
    (hfree : y.pend i = none ∨ (y.node i).respReg ≠ .null) : Core (y.next size c) i := by
  have hpend : pendNext y.pend (fun i => (y.node i).respReg) c.cores i = _ := pendNext_of_free hfree
  cases hcmd : (c.cores i).cmd with
  | idle =>
    refine .idle ?_ ?_ ?_ (hpend.trans (by simp [hcmd]))
    · simp [node_next, nodeNext, hstate, hcmd]
    · simp [node_next, nodeNext, hstate, hcmd, hreg]
    · simp [node_next, nodeNext, hstate, hcmd]
  | wr | rd =>
    refine .waiting (c.cores i) ?_ ?_ ?_ (hpend.trans (by simp [hcmd])) (by simp [hcmd])
    · simp [node_next, nodeNext, hstate, hcmd]
    · simp [node_next, nodeNext, hstate, hcmd]
    · simp [node_next, nodeNext, hstate, hcmd]

theorem nodeNext_of_wait {x : Node} (hstate : x.state ≠ .idle) (hslot : enable i x = false) :
    nodeNext i x m = { x with cnt := cntNext nrCores x.cnt, respReg := .null } := by
  cases hx : x.state with
  | idle => exact absurd hx hstate
  | rd | wr => simp [nodeNext, hx, hslot]

theorem nodeNext_of_slot {x : Node} (hstate : x.state ≠ .idle) (hslot : enable i x = true) :
    nodeNext i x m =
      ⟨.idle, cntNext nrCores x.cnt, { x.masterReg with cmd := .idle }, .dva⟩ := by
  cases hx : x.state with
  | idle => exact absurd hx hstate
  | rd | wr => simp [nodeNext, hx, hslot]

theorem Core.next (h : Core y i) (hlegal : Legal y c) : Core (y.next size c) i := by
  cases h with
  | idle hstate hcmd _ hpend => exact core_of_idle hstate hcmd (Or.inl hpend)
  | answered m hstate hcmd hresp _ =>
    exact core_of_idle hstate hcmd (Or.inr (by simp [hresp]))
  | waiting m hstate hreg hresp hpend hcmd =>
    have hpendNext : (y.next size c).pend i = _ := OneAtATime.pendNext hlegal hpend hresp
    cases hslot : enable i (y.node i) with
    | false =>
      refine .waiting m ?_ ?_ ?_ hpendNext hcmd
      · rw [node_next, nodeNext_of_wait hstate hslot]
        exact hstate
      · rw [node_next, nodeNext_of_wait hstate hslot]
        exact hreg
      · rw [node_next, nodeNext_of_wait hstate hslot]
    | true =>
      refine .answered m ?_ ?_ ?_ hpendNext
      · rw [node_next, nodeNext_of_slot hstate hslot]
      · rw [node_next, nodeNext_of_slot hstate hslot]
      · rw [node_next, nodeNext_of_slot hstate hslot]

/-- Only a core that waits executes its command, which is the outstanding one. -/
theorem Rel.of_act (h : Rel mem y) {o : Command nrCores} (hact : y.act i = some o) :
    ∃ m, o = (i, m) ∧ enable i (y.node i) = true ∧ (y.node i).state ≠ .idle ∧
      (y.node i).respReg = .null ∧ y.pend i = some m ∧ (y.node i).masterReg = m ∧
        m.cmd ≠ .idle := by
  unfold act at hact
  split at hact
  · rename_i hslot
    cases hact
    cases h.core i with
    | idle _ hcmd _ _ | answered _ _ hcmd _ _ => exact absurd hcmd hslot.2
    | waiting m hstate hreg hresp hpend hcmd =>
      exact ⟨m, by rw [hreg], hslot.1, hstate, hresp, hpend, hreg, hcmd⟩
  · cases hact

/-! #### The operation of a cycle -/

theorem act_of_ne (h : LockStep y) (hi : enable i (y.node i) = true) (hj : j ≠ i) :
    y.act j = none := by
  rw [act, if_neg]
  rintro ⟨hslot, -⟩
  exact hj (h.eq_of_enable hslot hi)

theorem performed_of_enable (h : LockStep y) (hi : enable i (y.node i) = true) :
    (view size nrCores).performed y c = (y.act i).toList.map fun m => (m, c.undef) :=
  congrArg (List.map _) (Select.filterMap_of_one fun _ hj => act_of_ne h hi hj)

theorem performed_of_none (hnone : ∀ i, y.act i = none) :
    (view size nrCores).performed y c = [] :=
  List.map_eq_nil_iff.mpr (List.filterMap_eq_nil_iff.mpr fun i _ => hnone i)

/-- The memory executes the command of the core whose slot it is. -/
theorem Rel.mem_next (h : Rel mem y) (c : Cycle nrCores) :
    after (exec size) mem ((view size nrCores).performed y c) = (y.next size c).shared.spm.mem := by
  have hspm : (y.next size c).shared.spm = Spm.next size y.shared.spm (merged y.shared) c.undef :=
    rfl
  rw [hspm]
  by_cases hnone : ∀ i, y.act i = none
  · have hidle : (merged y.shared).cmd ≠ Spm.code .wr := by
      rw [h.cnt.exclusive.quiet hnone]
      decide
    rw [performed_of_none hnone, after_nil, Spm.mem_next_of_ne _ hidle]
    exact h.mem
  · obtain ⟨i, hi⟩ := not_forall.mp hnone
    obtain ⟨o, ho⟩ := Option.ne_none_iff_exists'.mp hi
    obtain ⟨hslot, hmerged⟩ := h.cnt.exclusive.slot i o ho
    rw [performed_of_enable h.cnt hslot, ho, hmerged, Spm.mem_next_wires, ← h.mem]
    rfl

/-- A core without a command that is executed sees no answer in the next cycle. -/
theorem Rel.answer_of_none (h : Rel mem y) (hact : y.act i = none) :
    (y.next size c).answer size i = none := by
  have hnull : ((y.next size c).node i).respReg = .null := by
    rw [node_next]
    cases h.core i with
    | idle hstate _ _ _ | answered _ hstate _ _ _ =>
      rw [nodeNext, hstate]
      cases (c.cores i).cmd <;> rfl
    | waiting m hstate hreg _ _ hcmd =>
      cases hslot : enable i (y.node i) with
      | false => rw [nodeNext_of_wait hstate hslot]
      | true =>
        rw [act, if_pos ⟨hslot, hreg ▸ hcmd⟩] at hact
        cases hact
  rw [answer, if_pos hnull]

theorem Rel.answer_of_some (h : Rel mem y) (hlegal : Legal y c) {o : Command nrCores}
    (hact : y.act i = some o) :
    (y.next size c).answer size i = some (exec size mem (o, c.undef)).2 := by
  obtain ⟨m, rfl, hslot, hstate, hresp, hpend, hreg, hcmd⟩ := h.of_act hact
  have hdva : ((y.next size c).node i).respReg = .dva := by
    rw [node_next, nodeNext_of_slot hstate hslot]
  have hpendNext : (y.next size c).pend i = some m := OneAtATime.pendNext hlegal hpend hresp
  have hspm : (y.next size c).shared.spm = Spm.next size y.shared.spm (Spm.wires m) c.undef := by
    rw [← (h.cnt.exclusive.slot i _ hact).2]
    rfl
  rw [answer, hdva, if_neg OcpResp.noConfusion, hpendNext, Option.map_some, hspm, exec]
  by_cases hrd : m.cmd = .rd
  · rw [if_pos hrd, if_pos hrd, Spm.data_next_wires _ hrd, h.mem]
  · rw [if_neg hrd, if_neg hrd]

theorem Rel.results_performed (h : Rel mem y) (hlegal : Legal y c) :
    results (exec size) mem ((view size nrCores).performed y c) =
      (view size nrCores).answers (y.next size c) := by
  by_cases hnone : ∀ i, y.act i = none
  · rw [performed_of_none hnone, results_nil]
    exact (List.filterMap_eq_nil_iff.mpr fun i _ => h.answer_of_none (hnone i)).symm
  · obtain ⟨i, hi⟩ := not_forall.mp hnone
    obtain ⟨o, ho⟩ := Option.ne_none_iff_exists'.mp hi
    have hslot := (h.cnt.exclusive.slot i o ho).1
    have hanswers : (view size nrCores).answers (y.next size c) =
        ((y.next size c).answer size i).toList :=
      Select.filterMap_of_one fun j hj => h.answer_of_none (act_of_ne h.cnt hslot hj)
    rw [hanswers, performed_of_enable h.cnt hslot, ho, h.answer_of_some hlegal ho]
    rfl

/-! #### Commands -/

theorem own_performed (h : LockStep y) (i : Fin nrCores) :
    ((view size nrCores).performed y c).filterMap ((view size nrCores).own i) =
      ((y.act i).map Prod.snd).toList := by
  have hone : ∀ j o, y.act j = some o → o.1 = j := by
    intro j o ho
    unfold act at ho
    split at ho <;> cases ho
    rfl
  obtain ⟨k, hk⟩ := h.exists_enable i
  rw [performed_of_enable h hk]
  by_cases hki : k = i
  · subst hki
    cases ho : y.act k with
    | none => rfl
    | some o => simp [view, hone k o ho]
  · rw [act_of_ne h hk (Ne.symm hki)]
    cases ho : y.act k with
    | none => rfl
    | some o => simp [view, hone k o ho, hki]

/-- A command waits, and then it is executed once. -/
theorem Rel.sent_next (h : Rel mem y) (hlegal : Legal y c) (i : Fin nrCores) :
    (view size nrCores).waiting i y ++ (view size nrCores).sent i y c =
      ((view size nrCores).performed y c).filterMap ((view size nrCores).own i) ++
        (view size nrCores).waiting i (y.next size c) := by
  rw [own_performed h.cnt i]
  have hfree : (y.node i).state = .idle → (y.node i).masterReg.cmd = .idle →
      (view size nrCores).waiting i y ++ (view size nrCores).sent i y c =
        ((y.act i).map Prod.snd).toList ++ (view size nrCores).waiting i (y.next size c) := by
    intro hstate hreg
    cases hcmd : (c.cores i).cmd with
    | idle => simp [view, act, hstate, hreg, hcmd, node_next, nodeNext]
    | wr | rd =>
      have hpend : (y.next size c).pend i = some (c.cores i) := by simp [next, pendNext, hcmd]
      simp [view, act, hstate, hreg, hcmd, node_next, nodeNext, hpend]
  cases h.core i with
  | idle hstate hcmd _ _ | answered _ hstate hcmd _ _ => exact hfree hstate hcmd
  | waiting m hstate hreg hresp hpend hcmd =>
    have hsilent := OneAtATime.silent hlegal hpend hresp
    have hpendNext : (y.next size c).pend i = _ := OneAtATime.pendNext hlegal hpend hresp
    cases hslot : enable i (y.node i) with
    | false =>
      simp [view, act, hslot, hsilent, hstate, hpend, hpendNext, node_next,
        nodeNext_of_wait hstate hslot]
    | true =>
      simp [view, act, hslot, hsilent, hstate, hpend, hreg, hcmd, node_next,
        nodeNext_of_slot hstate hslot]

theorem serves (size nrCores : Nat) :
    (view size nrCores).Serves (Rel) (Legal) where
  rel h hlegal := ⟨h.mem_next _, h.cnt.next, fun i => (h.core i).next hlegal⟩
  answers h hlegal := h.results_performed hlegal
  sent h hlegal i := h.sent_next hlegal i

/-! #### Progress -/

/-- The core whose slot it is, by the counter of node `i`. -/
def LockStep.slot (h : LockStep y) (i : Fin nrCores) : Fin nrCores := ⟨(y.node i).cnt, h.lt i⟩

theorem LockStep.slot_next (h : LockStep y) (hnext : LockStep (y.next size c)) :
    hnext.slot i = RoundRobin.succ (h.slot i) := by
  apply Fin.ext
  change ((y.next size c).node i).cnt = _
  rw [node_next, cnt_nodeNext, cntNext_eq (h.lt i), RoundRobin.val_succ]
  rfl

/-- How many more cycles core `i` sees no answer. -/
def remaining (i : Fin nrCores) (y : Sys nrCores) : Nat :=
  if (y.node i).state = .idle then 0
  else if h : (y.node i).cnt < nrCores then RoundRobin.dist ⟨(y.node i).cnt, h⟩ i + 1 else 0

theorem LockStep.remaining_eq (h : LockStep y) (hstate : (y.node i).state ≠ .idle) :
    remaining i y = RoundRobin.dist (h.slot i) i + 1 := by
  rw [remaining, if_neg hstate, dif_pos (h.lt i)]
  rfl

theorem remaining_le (h : LockStep y) : remaining i y ≤ nrCores := by
  by_cases hstate : (y.node i).state = .idle
  · rw [remaining, if_pos hstate]
    exact Nat.zero_le _
  · rw [h.remaining_eq hstate]
    exact RoundRobin.dist_lt _ _

theorem Rel.remaining_next (h : Rel mem y) (hpend : y.pend i ≠ none)
    (hresp : (y.node i).respReg = .null) : remaining i (y.next size c) + 1 ≤ remaining i y := by
  cases h.core i with
  | idle _ _ _ hnone => exact absurd hnone hpend
  | answered _ _ _ hdva _ =>
    rw [hresp] at hdva
    cases hdva
  | waiting m hstate _ _ _ _ =>
    cases hslot : enable i (y.node i) with
    | true =>
      have hdone : ((y.next size c).node i).state = .idle := by
        rw [node_next, nodeNext_of_slot hstate hslot]
      rw [h.cnt.remaining_eq hstate, remaining, if_pos hdone]
      omega
    | false =>
      have hne : h.cnt.slot i ≠ i := fun heq => by
        rw [enable, show (y.node i).cnt = i.val from congrArg Fin.val heq,
          beq_self_eq_true] at hslot
        cases hslot
      have hkeep : ((y.next size c).node i).state ≠ .idle := by
        rw [node_next, nodeNext_of_wait hstate hslot]
        exact hstate
      rw [h.cnt.remaining_eq hstate, h.cnt.next.remaining_eq hkeep, h.cnt.slot_next h.cnt.next,
        RoundRobin.dist_succ hne]

end Cycle

/-! ### Every run -/

section Runs

variable {size : Nat} {y : Sys nrCores}

theorem IsReset.rel (h : IsReset y) : Rel y.shared.spm.mem y := by
  refine ⟨rfl, ⟨?_, ?_⟩, ?_⟩
  · intro i
    rw [h.cnt i]
    exact i.pos
  · intro i j
    rw [h.cnt i, h.cnt j]
  · intro i
    exact .idle (h.state i) (h.masterReg i) (h.respReg i) (h.pend i)

theorem IsReset.history (h : IsReset y) {cs : List (Cycle nrCores)}
    (hlegal : Along (next size) (Legal) y cs) :
    (view size nrCores).History (Rel) y.shared.spm.mem y cs (run (next size) y cs) := by
  apply (serves size nrCores).history h.rel
  · exact List.filterMap_eq_nil_iff.mpr fun i _ => if_pos (h.respReg i)
  · exact fun i => if_pos (h.state i)
  · exact hlegal

/-- **The shared scratchpad is linearizable**: every run is one of the memory. -/
theorem linearizable_of_legal (hreset : y.IsReset) {cs : List (Cycle nrCores)}
    (hlegal : Along (next size) (Legal) y cs) : Linearizable size y cs := by
  have hcs := hreset.history hlegal
  refine ⟨?_, ?_, ?_, hcs.rel.mem.symm, ?_⟩
  · have hinv := hlegal.with_inv (I := LockStep) (fun _ _ h _ => h.next) hreset.rel.cnt
    exact hinv.mono fun _ _ h => h.1.exclusive
  · intro i
    rw [hcs.commands i, ← filterMap_own]
    rfl
  · intro c
    rw [View.given, emitted_concat]
    exact hcs.answers
  · rintro p q i rfl hpend hnull
    rw [← List.countP_true]
    refine countP_le_of_waits (I := fun z => ∃ mem, Rel mem z) (W := fun z => z.pend i ≠ none)
      (remaining i) (fun _ => true) ?_ ?_ ?_ ⟨_, hreset.rel⟩ hlegal hpend hnull
    · rintro z ⟨mem, hmem⟩
      exact remaining_le hmem.cnt
    · rintro z c ⟨mem, hmem⟩ hl
      exact ⟨_, (serves size nrCores).rel hmem hl⟩
    · rintro z c ⟨mem, hmem⟩ hpend - hresp
      rw [pend_next]
      exact ⟨pendNext_of_wait hpend hresp, hmem.remaining_next hpend hresp⟩

end Runs

/-! ### A run -/

instance (y : Sys nrCores) (c : Cycle nrCores) : Decidable (Legal y c) :=
  inferInstanceAs (Decidable (OneAtATime _ _ _))

/-- Three cores and four words, after reset. -/
def powerUp : Sys 3 :=
  ⟨⟨fun _ => ⟨.idle, 0, nothing, .null⟩, ⟨0, fun _ _ => 0, 0, fun _ => 0⟩⟩, fun _ => none⟩

/-- All cores write to the second word, the first core in its lowest byte only, and read it when
    they are answered. -/
def backToBack : List (Cycle 3) :=
  let wr (i : Fin 3) : CacheMaster :=
    ⟨.wr, 4, fun _ => BitVec.ofNat 8 (i.val + 7), ![true, i.val ≠ 0, i.val ≠ 0, i.val ≠ 0]⟩
  let rd : CacheMaster := ⟨.rd, 4, fun _ => 0, allBytes⟩
  ([wr, fun _ => nothing, ![nothing, rd, nothing], ![nothing, nothing, rd],
    ![rd, nothing, nothing]] ++ List.replicate 4 fun _ => nothing).map fun cores =>
      ⟨cores, fun _ => 255⟩

theorem backToBack_linearizable :
    (((view 16 3).given powerUp backToBack).map fun r => (r.1, r.2.map fun w => (w 0, w 1))) =
        [(1, none), (2, none), (0, none), (1, some (7, 9)), (2, some (7, 9)), (0, some (7, 9))] ∧
      Linearizable 16 powerUp backToBack := by
  have hreset : powerUp.IsReset :=
    ⟨fun _ => rfl, fun _ => rfl, fun _ => rfl, fun _ => rfl, fun _ => rfl⟩
  exact ⟨by decide +kernel, linearizable_of_legal hreset (by decide +kernel)⟩

end Sys

end Patmos.SharedSPM
