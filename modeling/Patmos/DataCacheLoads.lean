import Patmos.DataCacheSys

/-!
# Cycles of the data cache unit: free cycles and cached loads

A cycle in which nothing is outstanding, or in which the outstanding access is answered,
is free: the next command is registered by the units that it concerns.  In the other
cycles the pipeline waits and one of the units makes progress with the memory.  This
module has the free cycles, what does not change while the pipeline waits, and one lemma
for each stage of a load through the cache but the fill.
-/

namespace Patmos.DataCache

open Clocked Ocp
open DirectMappedCache (lineIndex tagCount tagOf wordIndex missIndex missIndexBits lineBase
  written Coherent)

namespace Sys

variable {c : Config} {y : Sys} {i : SysInputs} {b : Nat}

/-- What the direct-mapped cache sends to the memory. -/
abbrev dmToSlave (c : Config) (y : Sys) (i : SysInputs) : BurstMaster :=
  DirectMappedCache.toSlave c.dcacheSize c.burstLength y.core.dm (dmInputs i.cpu)

/-- What the direct-mapped cache answers. -/
abbrev dmToMaster (c : Config) (y : Sys) (i : SysInputs) : CoreSlave :=
  DirectMappedCache.toMaster c.dcacheSize c.burstLength y.core.dm (dmInputs i.cpu)

/-! ### The parts that are not used -/

theorem sc_cmd {s : StackCache.State} (h : ScQuiet s) {words : Nat} (j : StackCache.Inputs) :
    (StackCache.toMemory words s j).cmd = .idle := by
  cases hena : j.enaIn <;> simp [StackCache.toMemory, h.state, hena]

theorem scInputs_cmd (hleg : Legal c y i) : (scInputs i.cpu).cmd = .idle := by
  by_cases hcmd : i.cpu.master.cmd = .idle
  · simp [scInputs, hcmd]
  · have hspace := hleg.space hcmd
    simp [scInputs, selSC, hspace]

theorem ScQuiet.next (h : ScQuiet y.core.sc) (hleg : Legal c y i) :
    ScQuiet (next c y i).core.sc := by
  constructor
  · exact StackCache.stateReg_of_none h.state hleg.op
  · exact StackCache.responseToCPUReg_of_idle (scInputs_cmd hleg)

theorem dm_cmd_of_quiet (h : DmQuiet y.core.dm) : (dmToSlave c y i).cmd = .idle := by
  simp [DirectMappedCache.toSlave, DirectMappedCache.miss_of_cmd h.cmd, h.state]

theorem dm_resp_of_quiet (h : DmQuiet y.core.dm) : (dmToMaster c y i).resp = .null := by
  simp [DirectMappedCache.toMaster, DirectMappedCache.hit_of_cmd h.cmd, h.state]

theorem bp_cmd {s : NullCache.State} (h : s.masterReg.cmd ≠ .rd) {burstLength : Nat} :
    (NullCache.toSlave burstLength s).cmd = .idle := by
  simp [NullCache.toSlave, h]

theorem bp_resp {s : NullCache.State} (h : s.stateReg ≠ .readResp) :
    (NullCache.toMaster s).resp = .null := by
  simp [NullCache.toMaster, h]

/-! ### The joins -/

section Joins

variable (hsc : ScQuiet y.core.sc)

include hsc

/-- Without a read request nothing reaches the memory through the joins. -/
theorem bus_of_idle (hdm : (dmToSlave c y i).cmd = .idle)
    (hbp : (NullCache.toSlave c.burstLength y.core.bp).cmd = .idle) :
    (bus2 c y.core i.cpu).cmd = .idle ∧ (next c y i).core.join1 = y.core.join1 ∧
      (next c y i).core.join2 = y.core.join2 := by
  have hcmd : (StackCache.toMemory c.scacheWords y.core.sc (scInputs i.cpu)).cmd = .idle :=
    sc_cmd hsc _
  have hbus : (bus1 c y.core i.cpu).cmd = .idle := BurstJoin.toJoined_of_idle hdm hbp
  exact ⟨BurstJoin.toJoined_of_idle hcmd hbus, BurstJoin.selRight_of_idle hdm hbp,
    BurstJoin.selRight_of_idle hcmd hbus⟩

/-- The stack cache leaves the bus to the command of the two others. -/
theorem bus_of_ne {m : BurstMaster} (hbus : bus1 c y.core i.cpu = m) (hne : m.cmd ≠ .idle) :
    bus2 c y.core i.cpu = m ∧ (next c y i).core.join2 = true := by
  subst hbus
  have hcmd : (StackCache.toMemory c.scacheWords y.core.sc (scInputs i.cpu)).cmd = .idle :=
    sc_cmd hsc _
  exact ⟨BurstJoin.toJoined_of_right hcmd hne, BurstJoin.selRight_of_right hcmd hne⟩

theorem bus_of_dm (hdm : (dmToSlave c y i).cmd = .rd) :
    bus2 c y.core i.cpu = dmToSlave c y i ∧
      (next c y i).core.join1 = false ∧ (next c y i).core.join2 = true := by
  have hne : (dmToSlave c y i).cmd ≠ .idle := by simp [hdm]
  obtain ⟨hbus, hjoin⟩ := bus_of_ne hsc (BurstJoin.toJoined_of_left hne) hne
  exact ⟨hbus, BurstJoin.selRight_of_left hne, hjoin⟩

theorem bus_of_bp (hdm : (dmToSlave c y i).cmd = .idle)
    (hbp : (NullCache.toSlave c.burstLength y.core.bp).cmd = .rd) :
    bus2 c y.core i.cpu = NullCache.toSlave c.burstLength y.core.bp ∧
      (next c y i).core.join1 = true ∧ (next c y i).core.join2 = true := by
  have hne : (NullCache.toSlave c.burstLength y.core.bp).cmd ≠ .idle := by simp [hbp]
  obtain ⟨hbus, hjoin⟩ := bus_of_ne hsc (BurstJoin.toJoined_of_right hdm hne) hne
  exact ⟨hbus, BurstJoin.selRight_of_right hdm hne, hjoin⟩

end Joins

theorem toSlave_of_ne (h : y.core.wc.state ≠ .write) :
    toSlave c y.core i.cpu = bus2 c y.core i.cpu := by
  simp [toSlave, WriteNoBuffer.toSlave, h]

/-! ### Free cycles -/

/-- Nothing is outstanding after this cycle but what is registered in it; `G` is the memory
    with all stores. -/
structure Free (c : Config) (y : Sys) (i : SysInputs) (G : Memory) : Prop where
  sc : ScQuiet y.core.sc
  dm : DirectMappedCache.FreeCycle c.dcacheSize c.burstLength y.core.dm (dmInputs i.cpu)
  dmCnt : y.core.dm.burstCntReg = 0
  coherent : Coherent c.dcacheSize c.burstLength y.core.dm G none
  bp : y.core.bp.stateReg = .idle ∨ y.core.bp.stateReg = .readResp
  bpCnt : y.core.bp.burstCntReg = 0
  bpCmd : y.core.bp.masterReg.cmd ≠ .rd
  wc : y.core.wc.state = .idle ∨
    y.core.wc.state = .writeResp ∧ (fromSlave c y i).resp ≠ .null
  wcCnt : y.core.wc.cntReg = 0
  slave : (next c y i).slave = ⟨.idle, G⟩
  finished : y.spec.finish (respOut c y i) = ⟨G, .none⟩

section Free

variable {G : Memory} (hb : 1 ≤ b) (hB : c.burstLength = 2 ^ b) (h : Free c y i G)

include h in
theorem Free.bp_next :
    (next c y i).core.bp = { y.core.bp with stateReg := .idle, masterReg := bpMaster i.cpu } := by
  refine NullCache.next_of_free ?_ h.bpCmd
  rcases h.bp with hst | hst <;> simp [hst]

include h in
theorem Free.wc_next :
    (next c y i).core.wc =
      { state := if (wcMaster i.cpu).cmd = .wr then .write else .idle
        cntReg := 0
        writeMasterReg := wcMaster i.cpu } := by
  rw [← h.wcCnt]
  exact WriteNoBuffer.next_of_free h.wc

include h in
theorem Free.spec_next : (next c y i).spec = Spec.issue ⟨G, .none⟩ i.cpu := by
  change Spec.next _ _ _ = _
  simp only [Spec.next, h.finished, if_true]

include h in
theorem Free.dm_next : (next c y i).core.dm.stateReg = .idle ∧
    (next c y i).core.dm.burstCntReg = 0 ∧ (next c y i).core.dm.masterReg = dmMaster i.cpu := by
  have heq : (next c y i).core.dm = _ := DirectMappedCache.next_of_free h.dm
  rw [heq]
  exact ⟨rfl, h.dmCnt, rfl⟩

/-! What the units hold when a command does not concern them. -/

include h in
theorem Free.dmQuiet (hcmd : (dmMaster i.cpu).cmd ≠ .rd) : DmQuiet (next c y i).core.dm := by
  obtain ⟨hst, hcnt, hreg⟩ := h.dm_next
  exact ⟨hst, hcnt, by rw [hreg]; exact hcmd⟩

include h in
theorem Free.bpQuiet (hcmd : (bpMaster i.cpu).cmd ≠ .rd) : BpQuiet (next c y i).core.bp := by
  rw [h.bp_next]
  exact ⟨rfl, h.bpCnt, hcmd⟩

include h in
theorem Free.wcQuiet (hcmd : (wcMaster i.cpu).cmd ≠ .wr) : WcQuiet (next c y i).core.wc := by
  rw [h.wc_next]
  exact ⟨if_neg hcmd, rfl⟩

/-! Whatever the pipeline issues, its access starts in the first stage. -/

include h in
theorem Free.waiting (hcmd : i.cpu.master.cmd = .idle) (hspec : (next c y i).spec = ⟨G, .none⟩) :
    Waiting c (next c y i) := by
  have hdmCmd : (dmMaster i.cpu).cmd = .idle := by simp [dmMaster, gate, hcmd]
  refine ⟨h.dmQuiet (by simp [hdmCmd]), ?_, h.bpQuiet (by simp [bpMaster, gate, hcmd]),
    h.wcQuiet (by simp [wcMaster, gate, hcmd]), by rw [h.slave], by rw [h.slave, hspec]⟩
  rw [hspec]
  exact h.coherent.free h.dm (by simp [dmInputs, hdmCmd])

include h in
theorem Free.loadCached (hcmd : i.cpu.master.cmd = .rd)
    (hsel : selDC i.cpu = true) (hsc : selSC i.cpu = false)
    (hspec : (next c y i).spec = ⟨G, .load (i.cpu.master.addr / 4) true⟩) :
    LoadCached c (next c y i) (i.cpu.master.addr / 4) := by
  have hdmM : dmMaster i.cpu = i.cpu.master := by simp [dmMaster, hsel]
  have hdmI : (dmInputs i.cpu).master = i.cpu.master := hdmM
  have heq : (next c y i).core.dm = _ := DirectMappedCache.next_of_free h.dm
  obtain ⟨hst, hcnt, hreg⟩ := h.dm_next
  rw [hdmM] at hreg
  have hentry : entry c (next c y i) =
      lineIndex c.dcacheSize c.burstLength i.cpu.master.addr := by rw [entry, hreg]
  refine ⟨h.bpQuiet (by simp [bpMaster, gate, hsel]),
    h.wcQuiet (by simp [wcMaster, gate, hcmd, hsc]), ?_, ?_, ?_, ?_, ?_⟩
  · simp [next, DataCache.next, hcmd, hsel]
  · simp [next, DataCache.next, hcmd, hsc]
  · rw [h.slave, hspec]
  · rw [hreg]
  · refine .lookup hst hcnt ?_ ?_ ?_ ?_ ?_ ?_
    · rw [hreg, hcmd]
    · rw [hentry, heq, ← hdmI]
    · rw [hreg, heq, ← hdmI]
    · intro hin hv p hp
      rw [Inside, hentry] at hin
      rw [hentry, hspec]
      have hlookup := h.coherent.lookup h.dm (by rw [hdmI]; exact hin) hv hp
      rwa [hdmI] at hlookup
    · rw [hspec]
      exact h.coherent.free h.dm (by simp [hdmI, hcmd])
    · rw [h.slave]

include h in
theorem Free.loadUncached (hcmd : i.cpu.master.cmd = .rd) (hsel : selDC i.cpu = false)
    (hsc : selSC i.cpu = false)
    (hspec : (next c y i).spec = ⟨G, .load (i.cpu.master.addr / 4) false⟩) :
    LoadUncached c (next c y i) (i.cpu.master.addr / 4) := by
  have hdmCmd : (dmMaster i.cpu).cmd = .idle := by simp [dmMaster, gate, hcmd, hsel]
  have hbpM : bpMaster i.cpu = i.cpu.master := by simp [bpMaster, hsel, hsc]
  refine ⟨h.dmQuiet (by simp [hdmCmd]), ?_, h.wcQuiet (by simp [wcMaster, gate, hcmd, hsc]), ?_,
    ?_, ?_, ?_⟩
  · rw [hspec]
    exact h.coherent.free h.dm (by simp [dmInputs, hdmCmd])
  · simp [next, DataCache.next, hcmd, hsel]
  · simp [next, DataCache.next, hcmd, hsc]
  · rw [h.slave, hspec]
  · refine .request ?_ ?_ ?_ ?_ ?_
    · rw [h.bp_next]
    · rw [h.bp_next]
      exact h.bpCnt
    · rw [h.bp_next, hbpM, hcmd]
    · rw [h.bp_next, hbpM]
    · rw [h.slave]

include hb hB h in
theorem Free.storing (hcmd : i.cpu.master.cmd = .wr)
    (hsc : selSC i.cpu = false)
    (hspec : (next c y i).spec =
      ⟨G, .store (i.cpu.master.addr / 4) i.cpu.master.byteEn i.cpu.master.data⟩) :
    Storing c (next c y i) (i.cpu.master.addr / 4) i.cpu.master.byteEn i.cpu.master.data := by
  have hdmM : dmMaster i.cpu = i.cpu.master := by simp [dmMaster, hcmd]
  have hdmI : (dmInputs i.cpu).master = i.cpu.master := hdmM
  have hwcM : wcMaster i.cpu = i.cpu.master := by simp [wcMaster, hsc]
  have hpos : 0 < c.burstLength := by
    rw [hB]
    positivity
  have hbpCmd : (bpMaster i.cpu).cmd ≠ .rd := by
    cases hsel : selDC i.cpu <;> simp [bpMaster, gate, hcmd, hsel, hsc]
  refine ⟨h.dmQuiet (by simp [hdmM, hcmd]), ?_, h.bpQuiet hbpCmd, ?_⟩
  · rw [hspec]
    have hstore := h.coherent.store (m := dmS y.core (fromSlave c y i)) h.dm hb hB
      (by rw [hdmI, hcmd])
    rwa [hdmI] at hstore
  · refine .write 0 ?_ ?_ hpos ?_ ?_ ?_ ?_ ?_
    · rw [h.wc_next, hwcM]
      simp [hcmd]
    · rw [h.wc_next]
    · rw [h.wc_next, hwcM]
    · rw [h.wc_next, hwcM]
    · rw [h.wc_next, hwcM]
    · rw [h.slave, if_pos rfl]
    · rw [h.slave, hspec, if_neg (Nat.not_lt_zero _)]

include hb hB h in
theorem Free.inv (hleg : Legal c y i) : Inv c (next c y i) := by
  have hspec := h.spec_next
  refine ⟨h.sc.next hleg, ?_⟩
  cases hcmd : i.cpu.master.cmd with
  | idle =>
    have hissue : (next c y i).spec = ⟨G, .none⟩ := by
      rw [hspec]
      simp [Spec.issue, hcmd]
    simp only [hissue]
    exact h.waiting hcmd hissue
  | rd =>
    have hsc : selSC i.cpu = false := by simpa [selSC] using hleg.space (by simp [hcmd])
    have hissue : (next c y i).spec = ⟨G, .load (i.cpu.master.addr / 4) (selDC i.cpu)⟩ := by
      rw [hspec]
      simp [Spec.issue, hcmd]
    cases hsel : selDC i.cpu with
    | true =>
      rw [hsel] at hissue
      simp only [hissue]
      exact h.loadCached hcmd hsel hsc hissue
    | false =>
      rw [hsel] at hissue
      simp only [hissue]
      exact h.loadUncached hcmd hsel hsc hissue
  | wr =>
    have hsc : selSC i.cpu = false := by simpa [selSC] using hleg.space (by simp [hcmd])
    have hissue : (next c y i).spec =
        ⟨G, .store (i.cpu.master.addr / 4) i.cpu.master.byteEn i.cpu.master.data⟩ := by
      rw [hspec]
      simp [Spec.issue, hcmd]
    simp only [hissue]
    exact h.storing hb hB hcmd hsc hissue

end Free

/-! ### Waiting -/

/-- The memory is ready to accept and to respond. -/
def willing (i : SysInputs) : Bool := i.choice.accept && i.choice.go

/-- How many willing cycles the outstanding access needs at most before its answer. -/
def remaining (c : Config) (y : Sys) : Nat :=
  match y.slave.phase with
  | .idle =>
    if y.core.dm.stateReg = .respond ∨ y.core.bp.stateReg = .readResp then 0
    else c.burstLength + 2
  | .read _ k | .write _ k => c.burstLength + 1 - k
  | .resp => 0

/-- What one cycle establishes. -/
structure Step (c : Config) (y : Sys) (i : SysInputs) : Prop where
  inv : Inv c (next c y i)
  progress : respOut c y i = .null → y.spec.txn ≠ .none →
    remaining c (next c y i) + (willing i).toNat ≤ remaining c y

theorem Free.step {G : Memory} (hb : 1 ≤ b) (hB : c.burstLength = 2 ^ b) (h : Free c y i G)
    (hleg : Legal c y i) : Step c y i := by
  refine ⟨h.inv hb hB hleg, ?_⟩
  intro hnull htxn
  have hfin := h.finished
  rw [hnull] at hfin
  simp only [Spec.finish, if_true] at hfin
  rw [hfin] at htxn
  exact absurd rfl htxn

section Wait

variable (hleg : Legal c y i) (hnull : respOut c y i = .null) (htxn : y.spec.txn ≠ .none)

include hleg hnull htxn

theorem cmd_of_wait : i.cpu.master.cmd = .idle := by
  refine hleg.busy ?_
  rw [hnull]
  exact htxn

omit hleg in
theorem spec_of_wait : (next c y i).spec = y.spec := by
  change Spec.next _ _ _ = _
  simp only [Spec.next, hnull, Spec.finish, if_true]
  exact if_neg htxn

theorem sel_of_wait : (next c y i).core.selDCReg = y.core.selDCReg ∧
    (next c y i).core.selSCReg = y.core.selSCReg := by
  have hcmd := cmd_of_wait hleg hnull htxn
  simp [next, DataCache.next, hcmd]

theorem dmMaster_of_wait : (dmInputs i.cpu).master.cmd = .idle := by
  have hcmd := cmd_of_wait hleg hnull htxn
  simp [dmInputs, dmMaster, gate, hcmd]

/-- A cache that is not concerned stays coherent. -/
theorem dm_of_wait {G : Memory} (hdm : DmQuiet y.core.dm)
    (hcoh : Coherent c.dcacheSize c.burstLength y.core.dm G none) :
    DmQuiet (next c y i).core.dm ∧
      Coherent c.dcacheSize c.burstLength (next c y i).core.dm G none := by
  have hcmd := dmMaster_of_wait hleg hnull htxn
  have hfree : DirectMappedCache.FreeCycle c.dcacheSize c.burstLength y.core.dm (dmInputs i.cpu) :=
    ⟨Or.inl hdm.state, DirectMappedCache.miss_of_cmd hdm.cmd⟩
  have heq : (next c y i).core.dm = _ := DirectMappedCache.next_of_free hfree
  refine ⟨⟨?_, ?_, ?_⟩, hcoh.free hfree (by simp [hcmd])⟩
  · rw [heq]
  · rw [heq]; exact hdm.cnt
  · rw [heq]; simp [hcmd]

theorem bp_of_wait (hbp : BpQuiet y.core.bp) : BpQuiet (next c y i).core.bp := by
  have hcmd := cmd_of_wait hleg hnull htxn
  have heq : (next c y i).core.bp = { y.core.bp with masterReg := bpMaster i.cpu } := by
    change NullCache.next _ _ _ _ = _
    simp [NullCache.next, hbp.state, hbp.cmd]
  constructor
  · rw [heq]; exact hbp.state
  · rw [heq]; exact hbp.cnt
  · rw [heq]; simp [bpMaster, gate, hcmd]

theorem wc_of_wait (hwc : WcQuiet y.core.wc) : WcQuiet (next c y i).core.wc := by
  have hcmd := cmd_of_wait hleg hnull htxn
  constructor
  · change (WriteNoBuffer.next _ _ _ _).state = _
    simp [WriteNoBuffer.next, hwc.state, wcMaster, gate, hcmd]
  · change (WriteNoBuffer.next _ _ _ _).cntReg = _
    simp [WriteNoBuffer.next, hwc.state, hwc.cnt]

end Wait

/-! ### Responses -/

theorem wc_resp_of_quiet (h : WcQuiet y.core.wc) (m : BurstSlave) :
    WriteNoBuffer.toWriteMaster y.core.wc m = .null := by
  simp [WriteNoBuffer.toWriteMaster, h.state]

theorem resp_of_dm (hsc : ScQuiet y.core.sc) (hbp : y.core.bp.stateReg ≠ .readResp)
    (hwc : WcQuiet y.core.wc) : respOut c y i = (dmToMaster c y i).resp := by
  rw [respOut, resp, hsc.resp, bp_resp hbp, wc_resp_of_quiet hwc]
  simp

theorem resp_of_others (hsc : ScQuiet y.core.sc) (hdm : DmQuiet y.core.dm) : respOut c y i =
    (NullCache.toMaster y.core.bp).resp.or
      (WriteNoBuffer.toWriteMaster y.core.wc (fromSlave c y i)) := by
  rw [respOut, resp, hsc.resp, dm_resp_of_quiet hdm]
  simp

theorem slave_of_noCmd (hphase : y.slave.phase = .idle)
    (hcmd : (toSlave c y.core i.cpu).cmd = .idle) :
    (next c y i).slave = ⟨.idle, y.slave.mem⟩ := by
  refine (Slave.next_of_noCmd hphase hcmd).trans ?_
  rw [← hphase]

/-! ### Beats of a read -/

section Beats

variable {base k : Nat} (hphase : y.slave.phase = .read base k)

include hphase

theorem resp_of_read : (fromSlave c y i).resp = Slave.respOf i.choice := by
  simp [fromSlave, Slave.out, hphase]

theorem resp_of_read_wait (hgo : i.choice.go = false) : (fromSlave c y i).resp = .null := by
  simp [resp_of_read hphase, Slave.respOf, hgo]

theorem resp_ne_of_read (hgo : i.choice.go = true) : (fromSlave c y i).resp ≠ .null := by
  cases herr : i.choice.err <;> simp [resp_of_read hphase, Slave.respOf, hgo, herr]

theorem data_of_read (hgo : i.choice.go = true) (hok : (fromSlave c y i).resp ≠ .err) :
    (fromSlave c y i).data = y.slave.mem (base + k) := by
  have herr : i.choice.err = false := by
    by_contra herr
    apply hok
    simp [resp_of_read hphase, Slave.respOf, hgo, herr]
  simp [fromSlave, Slave.out, hphase, hgo, herr]

theorem mem_of_read : (next c y i).slave.mem = y.slave.mem := by
  change (y.slave.next c.burstLength _ _).mem = _
  cases hgo : i.choice.go with
  | false => rw [Slave.next_of_read_wait hphase hgo]
  | true => rw [Slave.next_of_read hphase hgo]

/-- A beat brings the answer one cycle nearer. -/
theorem remaining_of_read (hlt : k < c.burstLength)
    (hlast : i.choice.go = true → k + 1 = c.burstLength →
      (next c y i).core.dm.stateReg = .respond ∨ (next c y i).core.bp.stateReg = .readResp) :
    remaining c (next c y i) + (willing i).toNat ≤ remaining c y := by
  have hrem : remaining c y = c.burstLength + 1 - k := by simp [remaining, hphase]
  have hwill := Bool.toNat_le (willing i)
  cases hgo : i.choice.go with
  | false =>
    have hslave : (next c y i).slave = y.slave := Slave.next_of_read_wait hphase hgo
    simp [remaining, hslave, hphase, willing, hgo]
  | true =>
    have hslave : (next c y i).slave = _ := Slave.next_of_read hphase hgo
    by_cases hk : k + 1 = c.burstLength
    · have hzero : remaining c (next c y i) = 0 := by simp [remaining, hslave, hk, hlast hgo hk]
      omega
    · have hless : remaining c (next c y i) = c.burstLength - k := by simp [remaining, hslave, hk]
      omega

end Beats

/-- A request that the memory accepts starts a burst. -/
theorem remaining_of_accept {base : Nat} (hrem : remaining c y = c.burstLength + 2)
    (hphase : (next c y i).slave.phase = .read base 0) :
    remaining c (next c y i) + (willing i).toNat ≤ remaining c y := by
  have hless : remaining c (next c y i) = c.burstLength + 1 := by simp [remaining, hphase]
  have hwill := Bool.toNat_le (willing i)
  omega

/-- The beat at the position of the word that was asked for. -/
theorem caught_of_beat {a : Nat}
    (hphase : y.slave.phase = .read (a / c.burstLength * c.burstLength) (a % c.burstLength))
    (hgo : i.choice.go = true) (hmem : y.slave.mem = y.spec.mem) :
    Caught ⟨(fromSlave c y i).resp, (fromSlave c y i).data⟩ (y.spec.mem a) := by
  refine ⟨resp_ne_of_read hphase hgo, ?_⟩
  intro hdva
  change (fromSlave c y i).resp = .dva at hdva
  change (fromSlave c y i).data = _
  rw [data_of_read hphase hgo (by simp [hdva]), hmem, mul_comm, Nat.div_add_mod]

/-! ### Nothing outstanding -/

theorem step_of_waiting (hb : 1 ≤ b) (hB : c.burstLength = 2 ^ b) (hsc : ScQuiet y.core.sc)
    (htxn : y.spec.txn = .none) (h : Waiting c y) (hleg : Legal c y i) :
    respOut c y i = .null ∧ Step c y i := by
  have hnull : respOut c y i = .null := by
    rw [resp_of_dm hsc (by simp [h.bp.state]) h.wc, dm_resp_of_quiet h.dm]
  have hne : y.core.wc.state ≠ .write := by simp [h.wc.state]
  have hbus := bus_of_idle (c := c) (i := i) hsc (dm_cmd_of_quiet h.dm) (bp_cmd h.bp.cmd)
  have hcmd : (toSlave c y.core i.cpu).cmd = .idle := by rw [toSlave_of_ne hne]; exact hbus.1
  have hfree : Free c y i y.spec.mem := by
    refine ⟨hsc, ⟨Or.inl h.dm.state, DirectMappedCache.miss_of_cmd h.dm.cmd⟩, h.dm.cnt, h.coherent,
      Or.inl h.bp.state, h.bp.cnt, h.bp.cmd, Or.inl h.wc.state, h.wc.cnt, ?_, ?_⟩
    · rw [slave_of_noCmd h.phase hcmd, h.mem]
    · rw [hnull]
      simp only [Spec.finish, if_true]
      rw [← htxn]
  exact ⟨hnull, hfree.step hb hB hleg⟩

/-! ### Loads through the cache -/

section Cached

variable {a : Nat} (hb : 1 ≤ b) (hB : c.burstLength = 2 ^ b) (hsc : ScQuiet y.core.sc)
  (htxn : y.spec.txn = .load a true) (h : LoadCached c y a) (hleg : Legal c y i)

include hsc h in
theorem LoadCached.resp_eq : respOut c y i = (dmToMaster c y i).resp :=
  resp_of_dm hsc (by simp [h.bp.state]) h.wc

include h in
theorem LoadCached.data_eq : dataOut c y i = (dmToMaster c y i).data := by
  simp [dataOut, data, h.selDC, h.selSC]

include h in
theorem LoadCached.toSlave_eq : toSlave c y.core i.cpu = bus2 c y.core i.cpu :=
  toSlave_of_ne (by simp [h.wc.state])

include hb hB h in
theorem LoadCached.line_eq (hin : Inside c y) (p : Nat) :
    lineBase c.dcacheSize c.burstLength (tagOf c.dcacheSize y.core.dm.masterReg.addr) (entry c y) +
      p = a / c.burstLength * c.burstLength + p := by
  have hn : 0 < tagCount c.dcacheSize c.burstLength := Nat.zero_lt_of_lt hin
  have hadd := DirectMappedCache.lineBase_add hb hB hn y.core.dm.masterReg.addr
  rw [h.addr] at hadd
  have hmod := Nat.div_add_mod a c.burstLength
  rw [mul_comm] at hmod
  change lineBase _ _ _ (entry c y) + _ = _ at hadd
  omega

include hb hB hsc htxn h hleg in
theorem LoadCached.step_of_answer
    (hdm : DirectMappedCache.FreeCycle c.dcacheSize c.burstLength y.core.dm (dmInputs i.cpu))
    (hcnt : y.core.dm.burstCntReg = 0)
    (hcoh : Coherent c.dcacheSize c.burstLength y.core.dm y.spec.mem none)
    (hphase : y.slave.phase = .idle) (hanswer : respOut c y i ≠ .null) : Step c y i := by
  have hcmd : (dmToSlave c y i).cmd = .idle := by
    have hne : y.core.dm.stateReg ≠ .hold := by
      rcases hdm.state with hst | hst <;> simp [hst]
    simp [DirectMappedCache.toSlave, hdm.noMiss, hne]
  have hbus := bus_of_idle (c := c) (i := i) hsc hcmd (bp_cmd h.bp.cmd)
  have hfree : Free c y i y.spec.mem := by
    refine ⟨hsc, hdm, hcnt, hcoh, Or.inl h.bp.state, h.bp.cnt, h.bp.cmd, Or.inl h.wc.state,
      h.wc.cnt, ?_, ?_⟩
    · rw [slave_of_noCmd hphase (by rw [h.toSlave_eq]; exact hbus.1), h.mem]
    · simp [Spec.finish, hanswer, htxn]
  exact hfree.step hb hB hleg

include hsc htxn h hleg in
/-- What does not depend on the stage while the load waits. -/
theorem LoadCached.step_of_wait (hnull : respOut c y i = .null)
    (hreg : (next c y i).core.dm.masterReg.addr = y.core.dm.masterReg.addr)
    (hmem : (next c y i).slave.mem = y.slave.mem) (hstage : DmStage c (next c y i) a)
    (hprogress : remaining c (next c y i) + (willing i).toNat ≤ remaining c y) : Step c y i := by
  have htxn' : y.spec.txn ≠ .none := by simp [htxn]
  obtain ⟨hselDC, hselSC⟩ := sel_of_wait hleg hnull htxn'
  have hspec := spec_of_wait hnull htxn'
  refine ⟨⟨hsc.next hleg, ?_⟩, fun _ _ => hprogress⟩
  simp only [hspec, htxn]
  refine ⟨bp_of_wait hleg hnull htxn' h.bp, wc_of_wait hleg hnull htxn' h.wc, ?_, ?_, ?_, ?_,
    hstage⟩
  · rw [hselDC, h.selDC]
  · rw [hselSC, h.selSC]
  · rw [hmem, hspec, h.mem]
  · rw [hreg, h.addr]

include hB hb h in
theorem LoadCached.request_addr :
    (dmToSlave c y i).addr / 4 = a / c.burstLength * c.burstLength := by
  change y.core.dm.masterReg.addr / 2 ^ DirectMappedCache.lineBits c.burstLength *
    2 ^ DirectMappedCache.lineBits c.burstLength / 4 = _
  rw [DirectMappedCache.lineBytes_eq hb hB, MemBlock.lineAddr_eq, h.addr]

include hb hB hsc htxn h hleg in
theorem LoadCached.step_of_request {tags : Nat → Nat} {valid : Nat → Bool}
    (hphase : y.slave.phase = .idle) (hnull : respOut c y i = .null)
    (hst : y.core.dm.stateReg ≠ .respond ∧ y.core.dm.stateReg ≠ .fill)
    (hcnt : y.core.dm.burstCntReg = 0) (hcmd : (dmToSlave c y i).cmd = .rd)
    (heq : (next c y i).core.dm =
      { DirectMappedCache.registered c.dcacheSize c.burstLength y.core.dm (dmInputs i.cpu) with
        masterReg := { (dmInputs i.cpu).master with addr := y.core.dm.masterReg.addr }
        tagMem := tags
        tagVMem := valid
        stateReg := if (fromSlave c y i).cmdAccept then .fill else .hold
        missIndexReg := a % c.burstLength })
    (htag : Inside c y → tags (entry c y) = tagOf c.dcacheSize y.core.dm.masterReg.addr)
    (hcoh : Coherent c.dcacheSize c.burstLength (next c y i).core.dm y.spec.mem
      (some (entry c y))) : Step c y i := by
  have htxn' : y.spec.txn ≠ .none := by simp [htxn]
  have hspec := spec_of_wait hnull htxn'
  have hreg : (next c y i).core.dm.masterReg.addr = y.core.dm.masterReg.addr := by rw [heq]
  have hregCmd : (next c y i).core.dm.masterReg.cmd = .idle := by
    rw [heq]
    exact dmMaster_of_wait hleg hnull htxn'
  have hcnt' : (next c y i).core.dm.burstCntReg = 0 := by rw [heq]; exact hcnt
  have hindex : (next c y i).core.dm.missIndexReg = a % c.burstLength := by rw [heq]
  obtain ⟨hbus, hjoin1, hjoin2⟩ := bus_of_dm (c := c) (i := i) hsc hcmd
  have hentry : entry c (next c y i) = entry c y := by rw [entry, entry, hreg]
  have hto : toSlave c y.core i.cpu = dmToSlave c y i := h.toSlave_eq.trans hbus
  have haccept : (fromSlave c y i).cmdAccept = i.choice.accept := by
    simp [fromSlave, Slave.out, hphase]
  have herred : (next c y i).erred = false := by
    simp [next, hst.2]
  have hpos : 0 < c.burstLength := by rw [hB]; positivity
  have hrem : remaining c y = c.burstLength + 2 := by
    simp [remaining, hphase, hst.1, h.bp.state]
  have hbp := bp_of_wait hleg hnull htxn' h.bp
  cases hacc : i.choice.accept with
  | true =>
    have hslave : (next c y i).slave =
        ⟨.read (a / c.burstLength * c.burstLength) 0, y.slave.mem⟩ := by
      rw [← h.request_addr (i := i) hb hB, ← hto]
      exact Slave.next_of_rd hphase hacc (by rw [hto, hcmd])
    refine h.step_of_wait hsc htxn hleg hnull hreg (by rw [hslave]) ?_
      (remaining_of_accept hrem (by rw [hslave]))
    refine .fill 0 ?_ hcnt' hpos hregCmd hindex ?_ ?_ ?_ hjoin1 hjoin2 ?_ ?_ ?_
    · rw [heq, haccept, hacc]
      rfl
    · rw [Inside, hentry, hreg, heq]
      exact htag
    · rw [hentry, hspec]
      exact hcoh
    · rw [hslave]
    · intro _ _ _ p hp
      exact absurd hp (Nat.not_lt_zero p)
    · intro hp
      exact absurd hp (Nat.not_lt_zero _)
    · intro _ he
      rw [herred] at he
      exact absurd he (by simp)
  | false =>
    have hslave : (next c y i).slave = y.slave := Slave.next_of_wait hphase hacc
    have hhold : (next c y i).core.dm.stateReg = .hold := by
      rw [heq, haccept, hacc]
      rfl
    refine h.step_of_wait hsc htxn hleg hnull hreg (by rw [hslave]) ?_ ?_
    · refine .hold hhold hcnt' hregCmd hindex ?_ ?_ ?_
      · rw [Inside, hentry, hreg, heq]
        exact htag
      · rw [hentry, hspec]
        exact hcoh
      · rw [hslave]
        exact hphase
    · rw [hrem]
      simp [remaining, hslave, hphase, hhold, hbp.state, willing, hacc]

include hb hB hsc htxn h hleg in
/-- The lookup: a hit is answered at once, a miss is requested. -/
theorem LoadCached.step_of_lookup (hserved : Served c y i) (hst : y.core.dm.stateReg = .idle)
    (hcnt : y.core.dm.burstCntReg = 0)
    (hcmd : y.core.dm.masterReg.cmd = .rd) (htagRd : y.core.dm.tagRdAddrReg = entry c y)
    (hrd : y.core.dm.rdAddrReg = wordIndex c.dcacheSize y.core.dm.masterReg.addr)
    (hline : Inside c y → y.core.dm.tagV = true → ∀ p < c.burstLength,
      y.core.dm.mem (entry c y * c.burstLength + p) =
        y.spec.mem (lineBase c.dcacheSize c.burstLength (y.core.dm.tagMem (entry c y))
          (entry c y) + p))
    (hcoh : Coherent c.dcacheSize c.burstLength y.core.dm y.spec.mem none)
    (hphase : y.slave.phase = .idle) :
    (respOut c y i = .dva → dataOut c y i = y.spec.mem a) ∧ Step c y i := by
  have hpos : 0 < c.burstLength := by rw [hB]; positivity
  have hresp := h.resp_eq (i := i) hsc
  cases hv : DirectMappedCache.tagValid c.dcacheSize c.burstLength y.core.dm (dmInputs i.cpu) with
  | true =>
    have hans : respOut c y i = .dva := by
      rw [hresp]
      simp [DirectMappedCache.toMaster, DirectMappedCache.hit, hst, hv, hcmd]
    constructor
    · intro _
      -- the word at the registered address is that of a coherent line
      have hin : Inside c y := hserved.hit (by simp [DirectMappedCache.hit, hv, hcmd])
      have hn : 0 < tagCount c.dcacheSize c.burstLength := Nat.zero_lt_of_lt hin
      have htag : DirectMappedCache.tag c.dcacheSize c.burstLength y.core.dm (dmInputs i.cpu) =
          y.core.dm.tagMem (entry c y) := by
        rw [DirectMappedCache.tag, htagRd]
        exact MemBlock.read_of_lt hin _
      obtain ⟨hvalid, hmatch⟩ : y.core.dm.tagV = true ∧ y.core.dm.tagMem (entry c y) =
          tagOf c.dcacheSize y.core.dm.masterReg.addr := by
        simpa [DirectMappedCache.tagValid, htag] using hv
      have hword := hline hin hvalid (a % c.burstLength) (Nat.mod_lt _ hpos)
      rw [hmatch, h.line_eq hb hB hin, mul_comm (a / _), Nat.div_add_mod] at hword
      have hrdData : dataOut c y i = y.core.dm.mem y.core.dm.rdAddrReg := by
        rw [h.data_eq, dmToMaster, DirectMappedCache.toMaster, if_neg (by simp [hst])]
        refine MemBlock.read_of_lt ?_ _
        rw [hrd, DirectMappedCache.wordIndex_eq hb hB hn]
        exact DirectMappedCache.word_lt hin (Nat.mod_lt _ hpos)
      rw [hrdData, hrd, DirectMappedCache.wordIndex_eq hb hB hn, h.addr]
      exact hword
    · refine h.step_of_answer hb hB hsc htxn hleg ⟨Or.inl hst, ?_⟩ hcnt hcoh hphase ?_
      · simp [DirectMappedCache.miss, hv]
      · simp [hans]
  | false =>
    have hmiss : DirectMappedCache.miss c.dcacheSize c.burstLength y.core.dm (dmInputs i.cpu) =
        true := by simp [DirectMappedCache.miss, hv, hcmd]
    have hnull : respOut c y i = .null := by
      rw [hresp]
      simp [DirectMappedCache.toMaster, DirectMappedCache.hit, hst, hv]
    have htxn' : y.spec.txn ≠ .none := by simp [htxn]
    have hmaster := dmMaster_of_wait hleg hnull htxn'
    obtain ⟨hclaim, hfit⟩ := hserved.miss hmiss
    rw [missIndex, DirectMappedCache.lineWords_eq hb hB, h.addr] at hfit
    have hindex : missIndex c.burstLength y.core.dm.masterReg.addr %
        2 ^ missIndexBits c.burstLength = a % c.burstLength := by
      rw [missIndex, DirectMappedCache.lineWords_eq hb hB, h.addr, Nat.mod_eq_of_lt hfit]
    refine ⟨fun hdva => by rw [hnull] at hdva; exact absurd hdva (by simp), ?_⟩
    refine h.step_of_request hb hB hsc htxn hleg hphase hnull (by simp [hst]) hcnt
      (by simp [DirectMappedCache.toSlave, hmiss])
      (hindex ▸ DirectMappedCache.next_of_miss hst hmiss) ?_ ?_
    · intro hin
      change MemBlock.write _ _ true (entry c y) _ (entry c y) = _
      rw [MemBlock.write_of_lt hin, if_pos rfl, Function.update_self]
    · exact hcoh.miss hst hmiss (by simp [hmaster]) hclaim

include hb hB hsc htxn h hleg in
theorem LoadCached.step_of_hold (hst : y.core.dm.stateReg = .hold)
    (hcnt : y.core.dm.burstCntReg = 0) (hcmd : y.core.dm.masterReg.cmd = .idle)
    (hindex : y.core.dm.missIndexReg = a % c.burstLength)
    (htag : Inside c y →
      y.core.dm.tagMem (entry c y) = tagOf c.dcacheSize y.core.dm.masterReg.addr)
    (hcoh : Coherent c.dcacheSize c.burstLength y.core.dm y.spec.mem (some (entry c y)))
    (hphase : y.slave.phase = .idle) : respOut c y i = .null ∧ Step c y i := by
  have hne : y.core.dm.masterReg.cmd ≠ .rd := by simp [hcmd]
  have hnull : respOut c y i = .null := by
    rw [h.resp_eq hsc]
    simp [DirectMappedCache.toMaster, DirectMappedCache.hit_of_cmd hne, hst]
  have htxn' : y.spec.txn ≠ .none := by simp [htxn]
  have hmaster := dmMaster_of_wait hleg hnull htxn'
  exact ⟨hnull, h.step_of_request hb hB hsc htxn hleg hphase hnull (by simp [hst]) hcnt
    (by simp [DirectMappedCache.toSlave, hst])
    (by rw [← hindex]; exact DirectMappedCache.next_of_hold hst hne) htag
    (hcoh.hold hst hne (by simp [hmaster]))⟩

include hb hB hsc htxn h hleg in
theorem LoadCached.step_of_respond (hst : y.core.dm.stateReg = .respond)
    (hcnt : y.core.dm.burstCntReg = 0) (hcmd : y.core.dm.masterReg.cmd = .idle)
    (hcoh : Coherent c.dcacheSize c.burstLength y.core.dm y.spec.mem none)
    (hphase : y.slave.phase = .idle) (hcaught : Caught y.core.dm.slaveReg (y.spec.mem a)) :
    (respOut c y i = .dva → dataOut c y i = y.spec.mem a) ∧ Step c y i := by
  have hto : dmToMaster c y i = y.core.dm.slaveReg := by simp [DirectMappedCache.toMaster, hst]
  have hresp : respOut c y i = y.core.dm.slaveReg.resp := by rw [h.resp_eq hsc, hto]
  constructor
  · intro hdva
    rw [h.data_eq, hto]
    exact hcaught.data (hresp ▸ hdva)
  · refine h.step_of_answer hb hB hsc htxn hleg ⟨Or.inr hst, ?_⟩ hcnt hcoh hphase ?_
    · exact DirectMappedCache.miss_of_cmd (by simp [hcmd])
    · rw [hresp]
      exact hcaught.resp

end Cached

end Sys

end Patmos.DataCache
