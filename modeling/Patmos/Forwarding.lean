import Patmos.Clocked
import Patmos.Select
import Mathlib.Data.BitVec
import Mathlib.Data.Fin.VecNotation

/-!
# The register file and the forwarding of results

The part of the pipeline that decides which value a register operand has: the register file
with its registered inputs, the forwarding multiplexers of the execute stage, and the
registers of the decode, execute and memory stages that feed them.  `PIPE_COUNT` is a
parameter, `p`; every issue slot has two operands, `(slot, false)` for `2*i` and
`(slot, true)` for `2*i+1`.

A bundle is fetched, decoded, executed and leaves the memory stage in successive enabled
cycles.  Its operands are selected while it is decoded and held while it executes; the
results of the two bundles ahead of it are then in the execute and the memory stage.  The
register file is written from the memory stage in every cycle, also in a stalled one, when
the data may still be wrong.

What the operands have to be is said by executing the bundles one at a time: `Program.regs`
is the register file before a bundle, `Program.operand` the value of an operand.
-/

namespace Patmos.Forwarding

open Clocked Select

variable {p : ℕ}

abbrev RegAddr := Fin 32

abbrev Data := BitVec 32

structure Result where
  addr : RegAddr
  data : Data
  valid : Bool

/-- `rsAddr(i) === addr && valid`. -/
def Result.hits (w : Result) (r : RegAddr) : Bool := r == w.addr && w.valid

/-- The fields of `DecEx` that select operands and destinations. -/
structure Bundle (p : ℕ) where
  rsAddr : Fin p → Bool → RegAddr
  immOp : Fin p → Bool
  immVal : Fin p → Data
  rdAddr : Fin p → RegAddr
  wrRd : Fin p → Bool
  load : Bool

/-! ### The register file -/

structure RegisterFile (p : ℕ) where
  rf : RegAddr → Data
  addrReg : Fin p → Bool → RegAddr
  wrReg : Fin p → Result
  fwReg : Fin p → Bool → Fin p → Bool

namespace RegisterFile

/-- `io.rfRead.rsData`: the stored word, overridden by the word written in the same cycle as
    the address was registered; register 0 reads zero. -/
def rsData (s : RegisterFile p) (i : Fin p) (side : Bool) : Data :=
  if s.addrReg i side = 0 then 0
  else pick (s.fwReg i side) (fun k => (s.wrReg k).data) (s.rf (s.addrReg i side))

/-- The write ports, from the last slot to the first. -/
def write (rf : RegAddr → Data) (rfWrite : Fin p → Result) : RegAddr → Data :=
  storeFirst (fun k => (rfWrite k).valid) (fun k => (rfWrite k).addr) (fun k => (rfWrite k).data) rf

/-- The write ports do not wait for the enable. -/
def next (s : RegisterFile p) (ena : Bool) (rsAddr : Fin p → Bool → RegAddr)
    (rfWrite : Fin p → Result) : RegisterFile p :=
  { rf := write s.rf rfWrite
    addrReg := if ena then rsAddr else s.addrReg
    wrReg := if ena then rfWrite else s.wrReg
    fwReg := if ena then fun i side k => (rfWrite k).hits (rsAddr i side) else s.fwReg }

end RegisterFile

/-! ### The execute stage -/

/-- `fwReg` with the slot of `fwSrcReg`: the operand comes from the register file (`b000`),
    from a result of the memory stage (`b010`) or of the execute stage (`b001`), or it is the
    immediate (`b100`). -/
inductive Fw (p : ℕ) where
  | rf
  | mem (k : Fin p)
  | ex (k : Fin p)
  | imm

structure Execute (p : ℕ) where
  exReg : Bundle p
  rsData : Fin p → Bool → Data
  fwReg : Fin p → Bool → Fw p
  memResultDataReg : Fin p → Data
  exResultDataReg : Fin p → Data

/-- The precomputed selection: later blocks override earlier ones. -/
def forward (decex : Bundle p) (memResult exResult : Fin p → Result) (i : Fin p) (side : Bool) :
    Fw p :=
  let fromMem := pick (fun k => (memResult k).hits (decex.rsAddr i side)) .mem .rf
  let fromEx := pick (fun k => (exResult k).hits (decex.rsAddr i side)) .ex fromMem
  if side && decex.immOp i then .imm else fromEx

/-- `op`. -/
def Execute.op (s : Execute p) (i : Fin p) (side : Bool) : Data :=
  match s.fwReg i side with
  | .ex k => s.exResultDataReg k
  | .mem k => s.memResultDataReg k
  | .imm => s.exReg.immVal i
  | .rf => s.rsData i side

/-! ### The stages together -/

/-- `memRd` and `memLoad` are `memReg.rd` and `memReg.mem.load`. -/
structure Pipe (p : ℕ) where
  rfile : RegisterFile p
  decReg : Bundle p
  ex : Execute p
  memRd : Fin p → Result
  memLoad : Bool

/-- What the rest of the pipeline supplies in a cycle: the enable, the bundle in the fetch
    stage, which slots of the bundle in the execute stage take effect, the results computed
    for them, and the word on the data port of the memory stage. -/
structure Cycle (p : ℕ) where
  ena : Bool
  fetched : Bundle p
  doExecute : Fin p → Bool
  exData : Fin p → Data
  dout : Data

/-- `io.exmem.rd`, which is also `exResult`. -/
def exResult (s : Pipe p) (c : Cycle p) (k : Fin p) : Result :=
  ⟨s.ex.exReg.rdAddr k, c.exData k, s.ex.exReg.wrRd k && c.doExecute k⟩

/-- `io.memwb.rd`, which is also `memResult` and `rfWrite`: a load has its data from the
    port. -/
def memResult (s : Pipe p) (c : Cycle p) (k : Fin p) : Result :=
  { s.memRd k with data := if s.memLoad && k.val == 0 then c.dout else (s.memRd k).data }

def next [NeZero p] (s : Pipe p) (c : Cycle p) : Pipe p :=
  { rfile := s.rfile.next c.ena c.fetched.rsAddr (memResult s c)
    decReg := if c.ena then c.fetched else s.decReg
    ex := if c.ena then
        { exReg := s.decReg
          rsData := s.rfile.rsData
          fwReg := forward s.decReg (memResult s c) (exResult s c)
          memResultDataReg := fun k => (memResult s c k).data
          exResultDataReg := fun k => (exResult s c k).data }
      else s.ex
    memRd := if c.ena then exResult s c else s.memRd
    memLoad := if c.ena then s.ex.exReg.load && c.doExecute 0 else s.memLoad }

/-! ### One bundle at a time -/

/-- The value of register `r` after the results `wr`, when it was `d`. -/
def after (wr : Fin p → Result) (r : RegAddr) (d : Data) : Data :=
  pick (fun k => (wr k).hits r) (fun k => (wr k).data) d

/-- A sequence of bundles, which slots of them take effect, and the results they produce. -/
structure Program (p : ℕ) where
  bundle : ℕ → Bundle p
  exec : ℕ → Fin p → Bool
  result : ℕ → Fin p → Data

namespace Program

variable (P : Program p)

/-- What bundle `n` writes. -/
def writes (n : ℕ) (k : Fin p) : Result :=
  ⟨(P.bundle n).rdAddr k, P.result n k, (P.bundle n).wrRd k && P.exec n k⟩

/-- The registers before bundle `n`. -/
def regs (rf : RegAddr → Data) : ℕ → RegAddr → Data
  | 0, r => rf r
  | n + 1, r => after (P.writes n) r (regs rf n r)

def operand (rf : RegAddr → Data) (n : ℕ) (i : Fin p) (side : Bool) : Data :=
  if side && (P.bundle n).immOp i then (P.bundle n).immVal i
  else if (P.bundle n).rsAddr i side = 0 then 0 else P.regs rf n ((P.bundle n).rsAddr i side)

/-- The slots of a bundle write different registers, and none writes register 0. -/
structure WellFormed : Prop where
  distinct : ∀ n j k, (P.writes n j).valid = true → (P.writes n k).valid = true →
    (P.writes n j).addr = (P.writes n k).addr → j = k
  noZero : ∀ n k, (P.writes n k).valid = true → (P.writes n k).addr ≠ 0

/-- The operand reads the destination of a load in the bundle before. -/
def LoadUse (n : ℕ) (i : Fin p) (side : Bool) : Prop :=
  ∃ m k, n = m + 1 ∧ (P.bundle m).load = true ∧ k.val = 0 ∧
    (P.writes m k).hits ((P.bundle n).rsAddr i side) = true

end Program

/-- The number of bundles that have left the fetch stage before cycle `t`. -/
def issued (tr : ℕ → Cycle p) : ℕ → ℕ
  | 0 => 0
  | t + 1 => if (tr t).ena then issued tr t + 1 else issued tr t

/-- The cycles run the program: what counts are the signals in enabled cycles.  The bubbles
    that reset leaves in the execute stage do not take effect. -/
structure Drives (P : Program p) (tr : ℕ → Cycle p) : Prop where
  fetched : ∀ t, (tr t).ena = true → (tr t).fetched = P.bundle (issued tr t)
  bubble : ∀ t, (tr t).ena = true → issued tr t < 2 → ∀ k, (tr t).doExecute k = false
  executed : ∀ t n, (tr t).ena = true → issued tr t = n + 2 → (tr t).doExecute = P.exec n
  computed : ∀ t n k, (tr t).ena = true → issued tr t = n + 2 →
    ((P.bundle n).load = true → k.val ≠ 0) → (tr t).exData k = P.result n k
  loaded : ∀ t n k, (tr t).ena = true → issued tr t = n + 3 → (P.bundle n).load = true →
    k.val = 0 → (tr t).dout = P.result n k

/-! ### Results applied to a register -/

section After

variable {wr wr' : Fin p → Result} {r : RegAddr} {d : Data}

theorem after_of_noHit (h : ∀ k, (wr k).hits r = false) : after wr r d = d := pick_of_noHit h

/-- Only results for the register count. -/
theorem after_congr (hhit : ∀ k, (wr k).hits r = (wr' k).hits r)
    (hdata : ∀ k, (wr' k).hits r = true → (wr k).data = (wr' k).data) :
    after wr r d = after wr' r d := pick_congr hhit hdata

theorem after_of_hit {k : Fin p} (hk : (wr k).hits r = true)
    (hone : ∀ j, (wr j).hits r = true → j = k) : after wr r d = (wr k).data := pick_of_one hk hone

/-- The old value counts only where no result hits. -/
theorem after_start {d' : Data} (hone : ∀ j k, (wr j).hits r = true → (wr k).hits r = true → j = k)
    (h : (∀ k, (wr k).hits r = false) → d = d') : after wr r d = after wr r d' := by
  by_cases hhit : ∃ k, (wr k).hits r = true
  · obtain ⟨k, hk⟩ := hhit
    rw [after_of_hit hk fun j hj => hone j k hj hk, after_of_hit hk fun j hj => hone j k hj hk]
  · have hnone : ∀ k, (wr k).hits r = false := fun k => Bool.eq_false_iff.mpr fun hk => hhit ⟨k, hk⟩
    rw [h hnone]

/-- When the slots write different registers, the order of the write ports does not matter. -/
theorem write_eq_after {rf : RegAddr → Data}
    (hone : ∀ j k, (wr j).hits r = true → (wr k).hits r = true → j = k) :
    RegisterFile.write rf wr r = after wr r (rf r) := by
  have hhits : (fun k => (wr k).valid && decide (r = (wr k).addr)) = fun k => (wr k).hits r := by
    funext k
    rw [Result.hits, Bool.and_comm, beq_eq_decide]
  unfold RegisterFile.write after
  rw [storeFirst_apply, hhits]
  exact pickFirst_eq_pick hone

/-- The multiplexers apply the results of the memory stage, then those of the execute stage,
    to the word from the register file. -/
theorem op_forward (s : Pipe p) (c : Cycle p) (rsData : Fin p → Bool → Data) (i : Fin p)
    (side : Bool) (himm : (side && s.decReg.immOp i) = false) :
    Execute.op
        { exReg := s.decReg
          rsData := rsData
          fwReg := forward s.decReg (memResult s c) (exResult s c)
          memResultDataReg := fun k => (memResult s c k).data
          exResultDataReg := fun k => (exResult s c k).data } i side =
      after (exResult s c) (s.decReg.rsAddr i side)
        (after (memResult s c) (s.decReg.rsAddr i side) (rsData i side)) := by
  let value : Fw p → Data
    | .ex k => (exResult s c k).data
    | .mem k => (memResult s c k).data
    | .imm => s.decReg.immVal i
    | .rf => rsData i side
  change value (forward s.decReg (memResult s c) (exResult s c) i side) = _
  unfold forward
  rw [himm, if_neg Bool.false_ne_true, map_pick value, map_pick value]
  rfl

theorem write_of_noHit {rf : RegAddr → Data} (h : ∀ k, (wr k).hits r = false) :
    RegisterFile.write rf wr r = rf r := by
  rw [write_eq_after, after_of_noHit h]
  intro j k hj
  rw [h j] at hj
  cases hj

theorem hits_iff {w : Result} : w.hits r = true ↔ r = w.addr ∧ w.valid = true := by
  rw [Result.hits, Bool.and_eq_true, beq_iff_eq]

theorem hits_of_invalid {w : Result} (h : w.valid = false) : w.hits r = false := by
  rw [Result.hits, h, Bool.and_false]

end After

/-! ### The stages and the program -/

/-- The results `wr` of a stage are for the destinations of the bundle that takes the program
    from `m` bundles to `m'` bundles; the data may still be missing. -/
structure Stage (P : Program p) (wr : Fin p → Result) (m m' : ℕ) : Prop where
  none : m' = m → ∀ k, (wr k).valid = false
  some : m' = m ∨ m' = m + 1
  addr : m' = m + 1 → ∀ k, (wr k).addr = (P.writes m k).addr
  valid : m' = m + 1 → ∀ k, (wr k).valid = (P.writes m k).valid

section Stages

variable {P : Program p} {wr : Fin p → Result} {m m' : ℕ} {r : RegAddr}

/-- A write that hits is one of the instruction of the stage. -/
theorem Stage.writes_of_hits (hst : Stage P wr m m') {k : Fin p} (hk : (wr k).hits r = true) :
    (P.writes m k).valid = true ∧ (P.writes m k).addr = r := by
  rw [hits_iff] at hk
  rcases hst.some with heq | hsucc
  · rw [hst.none heq k] at hk
    exact Bool.noConfusion hk.2
  · rw [hst.addr hsucc, hst.valid hsucc] at hk
    exact ⟨hk.2, hk.1.symm⟩

theorem Stage.one (hst : Stage P wr m m') (hP : P.WellFormed) (j k : Fin p)
    (hj : (wr j).hits r = true) (hk : (wr k).hits r = true) : j = k := by
  obtain ⟨hvalid, haddr⟩ := hst.writes_of_hits hj
  obtain ⟨hvalid', haddr'⟩ := hst.writes_of_hits hk
  exact hP.distinct m j k hvalid hvalid' (haddr.trans haddr'.symm)

theorem Stage.noZero (hst : Stage P wr m m') (hP : P.WellFormed) (k : Fin p) :
    (wr k).hits 0 = false := by
  apply Bool.eq_false_iff.mpr
  intro hk
  obtain ⟨hvalid, haddr⟩ := hst.writes_of_hits hk
  exact hP.noZero m k hvalid haddr

/-- A stage with the right data for register `r` takes it to its next value. -/
theorem Stage.after_eq (hst : Stage P wr m m') (rf : RegAddr → Data)
    (hdata : m' = m + 1 → ∀ k, (P.writes m k).hits r = true → (wr k).data = P.result m k) :
    after wr r (P.regs rf m r) = P.regs rf m' r := by
  rcases hst.some with heq | hsucc
  · rw [heq]
    exact after_of_noHit fun k => hits_of_invalid (hst.none heq k)
  · rw [hsucc]
    refine after_congr ?_ (hdata hsucc)
    intro k
    rw [Result.hits, Result.hits, hst.addr hsucc, hst.valid hsucc]

end Stages

/-- With `c` bundles fetched, the bundles `c - 1`, `c - 2` and `c - 3` are in the decode, the
    execute and the memory stage.  The register file holds what the bundles before them have
    written, but for the destinations of the memory stage, where a stalled cycle may have
    written already. -/
structure Inv (P : Program p) [NeZero p] (rf : RegAddr → Data) (c : ℕ) (s : Pipe p) : Prop where
  stored : ∀ r, (∀ k, (s.memRd k).hits r = false) → s.rfile.rf r = P.regs rf (c - 3) r
  bypass : 1 ≤ c → ∀ i side k, s.rfile.fwReg i side k = true →
    (s.rfile.wrReg k).data = P.regs rf (c - 3) (s.rfile.addrReg i side)
  dec : ∀ n, c = n + 1 → s.decReg = P.bundle n ∧ s.rfile.addrReg = (P.bundle n).rsAddr
  ex : ∀ n, c = n + 2 → s.ex.exReg = P.bundle n
  op : ∀ n i side, c = n + 2 → ¬ P.LoadUse n i side → s.ex.op i side = P.operand rf n i side
  memNone : c < 3 → ∀ k, (s.memRd k).valid = false
  mem : ∀ n k, c = n + 3 → (s.memRd k).addr = (P.writes n k).addr ∧
    (s.memRd k).valid = (P.writes n k).valid ∧
    (((P.bundle n).load = true → k.val ≠ 0) → (s.memRd k).data = P.result n k)
  memLoad : ∀ n, c = n + 3 → s.memLoad = ((P.bundle n).load && P.exec n 0)

/-- The signals of one cycle run the program when `c` bundles have been fetched. -/
structure DrivesCycle (P : Program p) (c : ℕ) (i : Cycle p) : Prop where
  fetched : i.fetched = P.bundle c
  bubble : c < 2 → ∀ k, i.doExecute k = false
  executed : ∀ n, c = n + 2 → i.doExecute = P.exec n
  computed : ∀ n k, c = n + 2 → ((P.bundle n).load = true → k.val ≠ 0) → i.exData k = P.result n k
  loaded : ∀ n k, c = n + 3 → (P.bundle n).load = true → k.val = 0 → i.dout = P.result n k

section Step

variable {P : Program p} [NeZero p] {rf : RegAddr → Data} {c : ℕ} {s : Pipe p} {i : Cycle p}

/-- A stalled cycle moves nothing but the words at the destinations of the memory stage. -/
theorem Inv.stalled (hinv : Inv P rf c s) (hena : i.ena = false) : Inv P rf c (next s i) := by
  have hnext : next s i = { s with rfile := { s.rfile with
      rf := RegisterFile.write s.rfile.rf (memResult s i) } } := by
    simp [next, RegisterFile.next, hena]
  rw [hnext]
  refine { hinv with stored := ?_ }
  intro r hr
  have hnone : ∀ k, (memResult s i k).hits r = false := hr
  exact (write_of_noHit hnone).trans (hinv.stored r hr)

theorem Inv.exStage (hinv : Inv P rf c s) (hdrv : DrivesCycle P c i) :
    Stage P (exResult s i) (c - 2) (c - 1) := by
  have hsome : c - 1 = c - 2 ∨ c - 1 = c - 2 + 1 := by omega
  refine ⟨?_, hsome, ?_, ?_⟩
  · intro heq k
    simp [exResult, hdrv.bubble (by omega) k]
  · intro hsucc k
    have hc : c = c - 2 + 2 := by omega
    simp [exResult, hinv.ex _ hc, Program.writes]
  · intro hsucc k
    have hc : c = c - 2 + 2 := by omega
    simp [exResult, hinv.ex _ hc, hdrv.executed _ hc, Program.writes]

theorem Inv.memStage (hinv : Inv P rf c s) : Stage P (memResult s i) (c - 3) (c - 2) := by
  have hsome : c - 2 = c - 3 ∨ c - 2 = c - 3 + 1 := by omega
  refine ⟨?_, hsome, ?_, ?_⟩
  · intro heq k
    exact hinv.memNone (by omega) k
  · intro hsucc k
    exact (hinv.mem (c - 3) k (by omega)).1
  · intro hsucc k
    exact (hinv.mem (c - 3) k (by omega)).2.1

/-- What leaves the memory stage is what its bundle writes. -/
theorem Inv.data_memResult (hinv : Inv P rf c s) (hdrv : DrivesCycle P c i) {n : ℕ}
    (hc : c = n + 3) {k : Fin p} (hvalid : (P.writes n k).valid = true) :
    (memResult s i k).data = P.result n k := by
  have hexec : P.exec n k = true := ((Bool.and_eq_true _ _).mp hvalid).2
  unfold memResult
  rw [hinv.memLoad n hc]
  cases hload : (P.bundle n).load with
  | false => exact (hinv.mem n k hc).2.2 fun h => by rw [hload] at h; cases h
  | true =>
    by_cases hk : k.val = 0
    · have hk0 : k = 0 := Fin.ext (by simpa using hk)
      rw [← hk0, hexec, hk]
      exact hdrv.loaded n k hc hload hk
    · have hne : (k.val == 0) = false := beq_eq_false_iff_ne.mpr hk
      rw [hne, Bool.and_false]
      exact (hinv.mem n k hc).2.2 fun _ => hk

/-- After the results of the memory stage a register has the value it has before the bundle
    in the execute stage. -/
theorem Inv.after_mem (hinv : Inv P rf c s) (hP : P.WellFormed) (hdrv : DrivesCycle P c i)
    {r : RegAddr} {d : Data}
    (hd : (∀ k, (s.memRd k).hits r = false) → d = P.regs rf (c - 3) r) :
    after (memResult s i) r d = P.regs rf (c - 2) r := by
  have hst := hinv.memStage (i := i)
  rw [after_start (fun j k => hst.one hP j k) hd]
  apply hst.after_eq
  intro hsucc k hk
  exact hinv.data_memResult hdrv (by omega) (hits_iff.mp hk).2

/-- An enabled cycle selects the operands of the bundle that enters the execute stage. -/
theorem Inv.op_next (hinv : Inv P rf c s) (hP : P.WellFormed) (hdrv : DrivesCycle P c i)
    (hena : i.ena = true) {n : ℕ} (hc : c = n + 1) {slot : Fin p} {side : Bool}
    (huse : ¬ P.LoadUse n slot side) : (next s i).ex.op slot side = P.operand rf n slot side := by
  obtain ⟨hdec, haddr⟩ := hinv.dec n hc
  have hex : (next s i).ex = ⟨s.decReg, s.rfile.rsData,
      forward s.decReg (memResult s i) (exResult s i), fun k => (memResult s i k).data,
      fun k => (exResult s i k).data⟩ := by
    simp [next, hena]
  rw [hex, Program.operand]
  cases himm : side && (P.bundle n).immOp slot with
  | true => simp [Execute.op, forward, hdec, himm]
  | false =>
    rw [op_forward s i s.rfile.rsData slot side (by rw [hdec]; exact himm), hdec,
      if_neg Bool.false_ne_true]
    by_cases hzero : (P.bundle n).rsAddr slot side = 0
    · rw [if_pos hzero, hzero, after_of_noHit ((hinv.exStage hdrv).noZero hP),
        after_of_noHit (hinv.memStage.noZero hP), RegisterFile.rsData, haddr, if_pos hzero]
    · rw [if_neg hzero]
      -- the word from the register file is good unless the memory stage overrides it
      have hrf : (∀ k, (s.memRd k).hits ((P.bundle n).rsAddr slot side) = false) →
          s.rfile.rsData slot side = P.regs rf (c - 3) ((P.bundle n).rsAddr slot side) := by
        intro hnone
        have hstored := hinv.stored _ hnone
        have hbypass := hinv.bypass (by omega) slot side
        rw [haddr] at hbypass
        rw [RegisterFile.rsData, haddr, if_neg hzero, hstored]
        exact pick_of_same hbypass
      rw [hinv.after_mem hP hdrv hrf, (hinv.exStage hdrv).after_eq rf, hc]
      · rfl
      · intro hsucc k hk
        have hc2 : c = c - 2 + 2 := by omega
        refine hdrv.computed _ k hc2 fun hload hk0 => huse ⟨c - 2, k, ?_, hload, hk0, hk⟩
        omega

/-- An enabled cycle moves every bundle by one stage. -/
theorem Inv.enabled (hinv : Inv P rf c s) (hP : P.WellFormed) (hdrv : DrivesCycle P c i)
    (hena : i.ena = true) : Inv P rf (c + 1) (next s i) := by
  have hone : ∀ r j k, (memResult s i j).hits r = true → (memResult s i k).hits r = true → j = k :=
    fun r j k => (hinv.memStage (i := i)).one hP j k
  have hstored : ∀ r, RegisterFile.write s.rfile.rf (memResult s i) r = P.regs rf (c - 2) r := by
    intro r
    rw [write_eq_after (hone r)]
    exact hinv.after_mem hP hdrv (hinv.stored r)
  have hsub : c + 1 - 3 = c - 2 := by omega
  constructor
  · intro r _
    rw [hsub]
    exact hstored r
  · intro _ slot side k hfw
    simp only [next, RegisterFile.next, hena, if_true] at hfw ⊢
    rw [hsub, ← hstored, write_eq_after (hone _)]
    exact (after_of_hit hfw fun j hj => hone _ j k hj hfw).symm
  · intro n hn
    obtain rfl : c = n := by omega
    simp [next, RegisterFile.next, hena, hdrv.fetched]
  · intro n hn
    have hc : c = n + 1 := by omega
    simp [next, hena, (hinv.dec n hc).1]
  · intro n slot side hn huse
    exact hinv.op_next hP hdrv hena (by omega) huse
  · intro hlt k
    simp [next, hena, exResult, hdrv.bubble (by omega) k]
  · intro n k hn
    have hc : c = n + 2 := by omega
    have hmem : (next s i).memRd k = exResult s i k := by simp [next, hena]
    rw [hmem, exResult, hinv.ex n hc, hdrv.executed n hc]
    exact ⟨rfl, rfl, hdrv.computed n k hc⟩
  · intro n hn
    have hc : c = n + 2 := by omega
    simp [next, hena, hinv.ex n hc, hdrv.executed n hc]

end Step

/-! ### Runs -/

section Runs

variable {P : Program p} [NeZero p] {s₀ : Pipe p} {tr : ℕ → Cycle p}

/-- `memReg.flush()` at reset. -/
def Reset (s : Pipe p) : Prop := ∀ k, (s.memRd k).valid = false

theorem Reset.inv (hreset : Reset s₀) : Inv P s₀.rfile.rf 0 s₀ := by
  constructor
  · intro r _
    rfl
  · intro h
    exact absurd h (by decide)
  · intro n hn
    exact absurd hn (Nat.succ_ne_zero n).symm
  · intro n hn
    exact absurd hn (Nat.succ_ne_zero (n + 1)).symm
  · intro n slot side hn
    exact absurd hn (Nat.succ_ne_zero (n + 1)).symm
  · intro _
    exact hreset
  · intro n k hn
    exact absurd hn (Nat.succ_ne_zero (n + 2)).symm
  · intro n hn
    exact absurd hn (Nat.succ_ne_zero (n + 2)).symm

omit [NeZero p] in
theorem Drives.cycle (hdrv : Drives P tr) {t : ℕ} (hena : (tr t).ena = true) :
    DrivesCycle P (issued tr t) (tr t) :=
  ⟨hdrv.fetched t hena, hdrv.bubble t hena, fun n => hdrv.executed t n hena,
    fun n k => hdrv.computed t n k hena, fun n k => hdrv.loaded t n k hena⟩

theorem inv_stateAt (hP : P.WellFormed) (hreset : Reset s₀) (hdrv : Drives P tr) (t : ℕ) :
    Inv P s₀.rfile.rf (issued tr t) (stateAt next s₀ tr t) := by
  induction t with
  | zero => exact hreset.inv
  | succ t ih =>
    rw [stateAt_succ, issued]
    cases hena : (tr t).ena with
    | false => exact ih.stalled hena
    | true => exact ih.enabled hP (hdrv.cycle hena) hena

/-- In every cycle in which bundle `n` is in the execute stage, stalled or not, its operands
    are those of the execution of one bundle at a time. -/
theorem op_eq_operand (hP : P.WellFormed) (hreset : Reset s₀) (hdrv : Drives P tr) {t n : ℕ}
    (hn : issued tr t = n + 2) {slot : Fin p} {side : Bool} (huse : ¬ P.LoadUse n slot side) :
    (stateAt next s₀ tr t).ex.op slot side = P.operand s₀.rfile.rf n slot side :=
  (inv_stateAt hP hreset hdrv t).op n slot side hn huse

end Runs

/-! ### Running a program -/

/-- A cycle of the program with the given enable when `c` bundles have been fetched; in a
    stalled cycle nothing of it is there. -/
def Program.cycle [NeZero p] (P : Program p) (ena : Bool) (c : ℕ) : Cycle p :=
  { ena := ena
    fetched := if ena then P.bundle c else P.bundle 0
    doExecute := fun k => ena && decide (2 ≤ c) && P.exec (c - 2) k
    exData := fun k => if ena then P.result (c - 2) k else 0
    dout := if ena then P.result (c - 3) 0 else 0 }

/-- The number of enabled cycles before cycle `t`. -/
def enabled (ena : ℕ → Bool) : ℕ → ℕ
  | 0 => 0
  | t + 1 => if ena t then enabled ena t + 1 else enabled ena t

/-- The program under a stall pattern. -/
def Program.cycles [NeZero p] (P : Program p) (ena : ℕ → Bool) (t : ℕ) : Cycle p :=
  P.cycle (ena t) (enabled ena t)

section Cycles

variable [NeZero p] (P : Program p) (ena : ℕ → Bool)

theorem issued_cycles (t : ℕ) : issued (P.cycles ena) t = enabled ena t := by
  induction t with
  | zero => rfl
  | succ t ih => rw [issued, enabled, ih]; rfl

/-- Every program runs under every stall pattern. -/
theorem drives_cycles : Drives P (P.cycles ena) := by
  have hena : ∀ {t}, ((P.cycles ena) t).ena = true → ena t = true := id
  constructor
  · intro t h
    rw [issued_cycles]
    simp [Program.cycles, Program.cycle, hena h]
  · intro t h hc k
    rw [issued_cycles] at hc
    simp [Program.cycles, Program.cycle, hc]
  · intro t n h hc
    rw [issued_cycles] at hc
    funext k
    simp [Program.cycles, Program.cycle, hena h, hc]
  · intro t n k h hc _
    rw [issued_cycles] at hc
    simp [Program.cycles, Program.cycle, hena h, hc]
  · intro t n k h hc _ hk
    rw [issued_cycles] at hc
    have hk0 : k = 0 := Fin.ext (by simpa using hk)
    simp [Program.cycles, Program.cycle, hena h, hc, hk0]

end Cycles

/-- Slot 0 of every bundle reads and writes register 1, slot 1 writes register 2; bundle `n`
    writes `n + 1`. -/
def counter : Program 2 :=
  { bundle := fun _ => ⟨fun _ _ => 1, fun _ => false, fun _ => 0, ![1, 2],
      fun _ => true, false⟩
    exec := fun _ _ => true
    result := fun n _ => BitVec.ofNat 32 (n + 1) }

def cleared : Pipe 2 :=
  { rfile := ⟨fun _ => 0, fun _ _ => 0, fun _ => ⟨0, 0, false⟩, fun _ _ _ => false⟩
    decReg := counter.bundle 0
    ex := ⟨counter.bundle 0, fun _ _ => 0, fun _ _ => .rf, fun _ => 0, fun _ => 0⟩
    memRd := fun _ => ⟨0, 0, false⟩
    memLoad := false }

/-- With every other cycle stalled, bundle 3 is in the execute stage in cycle 9 and reads what
    bundle 2 has written. -/
theorem counter_operand :
    issued (counter.cycles fun t => t % 2 == 0) 9 = 3 + 2 ∧
      (stateAt next cleared (counter.cycles fun t => t % 2 == 0) 9).ex.op 0 false = 3 := by
  have hP : counter.WellFormed := by
    constructor
    · intro n j k _ _ h
      have key : ∀ j k : Fin 2, (![1, 2] j : RegAddr) = ![1, 2] k →
          j = k := by decide
      exact key j k h
    · intro n k _
      have key : ∀ k : Fin 2, (![1, 2] k : RegAddr) ≠ 0 := by decide
      exact key k
  have hissued : issued (counter.cycles fun t => t % 2 == 0) 9 = 3 + 2 := by decide
  refine ⟨hissued, ?_⟩
  rw [op_eq_operand hP (fun _ => rfl) (drives_cycles counter _) hissued]
  · decide
  · rintro ⟨m, k, _, hload, _⟩
    cases hload

end Patmos.Forwarding
