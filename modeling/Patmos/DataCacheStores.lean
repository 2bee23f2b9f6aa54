import Patmos.DataCacheBypass

/-!
# Stores

Every store goes to the memory as a burst of its line in which one word carries the byte
enables.  The copy in the cache is updated at once, so while the burst is on its way the
cache is coherent with the memory that the store will leave behind.
-/

namespace Patmos.DataCache

open Clocked Ocp
open DirectMappedCache (Coherent)

namespace Sys

variable {c : Config} {y : Sys} {i : SysInputs} {b : Nat}

/-- `k` words of the burst are in the memory. -/
structure Writing (c : Config) (y : Sys) (a : Nat) (be : ByteEn) (w : Word) (k : Nat) : Prop where
  state : y.core.wc.state = .write
  cnt : y.core.wc.cntReg = k
  lt : k < c.burstLength
  addr : y.core.wc.writeMasterReg.addr / 4 = a
  byteEn : y.core.wc.writeMasterReg.byteEn = be
  data : y.core.wc.writeMasterReg.data = w
  phase : y.slave.phase = if k = 0 then .idle else .write (a / c.burstLength * c.burstLength) k
  mem : y.slave.mem = if a % c.burstLength < k then y.spec.mem.write a be w else y.spec.mem

theorem Writing.stage {a : Nat} {be : ByteEn} {w : Word} {k : Nat} (v : Writing c y a be w k) :
    WcStage c y a be w :=
  .write k v.state v.cnt v.lt v.addr v.byteEn v.data v.phase v.mem

section Stores

variable {a : Nat} {be : ByteEn} {w : Word} (hb : 1 ≤ b) (hB : c.burstLength = 2 ^ b)
  (hsc : ScQuiet y.core.sc) (htxn : y.spec.txn = .store a be w) (h : Storing c y a be w)
  (hleg : Legal c y i)

include hsc h in
theorem Storing.resp_eq : respOut c y i =
    WriteNoBuffer.toWriteMaster y.core.wc (fromSlave c y i) := by
  rw [resp_of_others hsc h.dm, bp_resp (by simp [h.bp.state])]
  simp

include hsc htxn h hleg in
theorem Storing.step_of_wait (hnull : respOut c y i = .null)
    (hstage : WcStage c (next c y i) a be w)
    (hprogress : remaining c (next c y i) + (willing i).toNat ≤ remaining c y) : Step c y i := by
  have htxn' : y.spec.txn ≠ .none := by simp [htxn]
  have hspec := spec_of_wait hnull htxn'
  obtain ⟨hdm, hcoh⟩ := dm_of_wait hleg hnull htxn' h.dm h.coherent
  refine ⟨⟨hsc.next hleg, ?_⟩, fun _ _ => hprogress⟩
  simp only [hspec, htxn]
  refine ⟨hdm, ?_, bp_of_wait hleg hnull htxn' h.bp, hstage⟩
  rw [hspec]
  exact hcoh

/-- The word of the burst that carries the store changes the memory, the others do not. -/
theorem mem_of_word {mem spec : Memory} {k : Nat}
    (hmem : mem = if a % c.burstLength < k then spec.write a be w else spec) :
    mem.write (a / c.burstLength * c.burstLength + k)
        (if k = a % c.burstLength then be else noBytes) w =
      if a % c.burstLength < k + 1 then spec.write a be w else spec := by
  by_cases hk : k = a % c.burstLength
  · rw [if_pos hk, if_pos (by omega), hmem, if_neg (by omega), hk, mul_comm, Nat.div_add_mod]
  · rw [if_neg hk, Memory.write_noBytes, hmem]
    by_cases hlt : a % c.burstLength < k
    · rw [if_pos hlt, if_pos (by omega)]
    · rw [if_neg hlt, if_neg (by omega)]

section Write

variable {k : Nat} (v : Writing c y a be w k)

include hsc h v in
theorem Writing.respOut_eq : respOut c y i = .null := by
  rw [h.resp_eq hsc]
  simp [WriteNoBuffer.toWriteMaster, v.state]

include hsc htxn h v in
theorem Writing.spec_eq : (next c y i).spec = y.spec :=
  spec_of_wait (v.respOut_eq hsc h) (by simp [htxn])

include hb hB v in
theorem Writing.word_eq : (toSlave c y.core i.cpu).dataValid = true ∧
    (toSlave c y.core i.cpu).data = w ∧
    (toSlave c y.core i.cpu).dataByteEn = if k = a % c.burstLength then be else noBytes := by
  have hpos : WriteNoBuffer.wrPos c.burstLength y.core.wc = a % c.burstLength := by
    rw [WriteNoBuffer.wrPos, MemBlock.pow_log2Up hb hB, v.addr]
  refine ⟨?_, ?_, ?_⟩
  · simp [toSlave, WriteNoBuffer.toSlave, v.state]
  · simp [toSlave, WriteNoBuffer.toSlave, v.state, v.data]
  · simp [toSlave, WriteNoBuffer.toSlave, v.state, v.cnt, hpos, v.byteEn]

include hb hB v in
theorem Writing.command_eq (hk : k = 0) : (toSlave c y.core i.cpu).cmd = .wr ∧
    (toSlave c y.core i.cpu).addr / 4 = a / c.burstLength * c.burstLength := by
  constructor
  · simp [toSlave, WriteNoBuffer.toSlave, v.state, v.cnt, hk]
  · rw [← v.addr, ← MemBlock.burstAddr_eq hb hB]
    simp [toSlave, WriteNoBuffer.toSlave, v.state, v.cnt, hk]

include hb hB hsc htxn h hleg v in
theorem Writing.wc_eq : (next c y i).core.wc =
    { state := if k = c.burstLength - 1 then .writeResp else .write
      cntReg := if (fromSlave c y i).dataAccept then (k + 1) % c.burstLength else k
      writeMasterReg := y.core.wc.writeMasterReg } := by
  have hcmd := cmd_of_wait hleg (v.respOut_eq hsc h) (by simp [htxn])
  have hwcCmd : (wcMaster i.cpu).cmd = .idle := by simp [wcMaster, gate, hcmd]
  change WriteNoBuffer.next _ _ _ _ = _
  simp [WriteNoBuffer.next, v.state, v.cnt, hwcCmd, MemBlock.pow_log2Up hb hB]

include hb hB hsc htxn h hleg v in
theorem Writing.wait (hk : k = 0) (hacc : i.choice.accept = false) :
    Writing c (next c y i) a be w 0 := by
  have hphase := v.phase
  rw [if_pos hk] at hphase
  have haccept : (fromSlave c y i).dataAccept = false := by
    simp [fromSlave, Slave.out, hphase, hacc]
  have hslave : (next c y i).slave = y.slave := Slave.next_of_wait hphase hacc
  have hlast : ¬ k = c.burstLength - 1 := by
    have : 2 ≤ c.burstLength := by
      rw [hB]
      exact Nat.le_self_pow (by omega) 2
    omega
  have hwc := v.wc_eq hb hB hsc htxn h hleg
  rw [haccept, if_neg hlast] at hwc
  subst hk
  refine ⟨?_, ?_, v.lt, ?_, ?_, ?_, ?_, ?_⟩
  · rw [hwc]
  · rw [hwc]
    rfl
  · rw [hwc]
    exact v.addr
  · rw [hwc]
    exact v.byteEn
  · rw [hwc]
    exact v.data
  · rw [hslave]
    exact v.phase
  · rw [hslave, v.spec_eq hsc htxn h]
    exact v.mem

section Accepted

variable (haccepted : k = 0 → i.choice.accept = true)

include v haccepted in
theorem Writing.accept_eq : (fromSlave c y i).dataAccept = true := by
  have hphase := v.phase
  by_cases hk : k = 0
  · rw [if_pos hk] at hphase
    simp [fromSlave, Slave.out, hphase, haccepted hk]
  · rw [if_neg hk] at hphase
    simp [fromSlave, Slave.out, hphase]

include hb hB v haccepted in
theorem Writing.slave_eq : (next c y i).slave =
    ⟨if k + 1 = c.burstLength then .resp else .write (a / c.burstLength * c.burstLength) (k + 1),
      if a % c.burstLength < k + 1 then y.spec.mem.write a be w else y.spec.mem⟩ := by
  have hphase := v.phase
  obtain ⟨hvalid, hdata, hbe⟩ := v.word_eq hb hB (i := i)
  rw [← mem_of_word v.mem]
  change y.slave.next c.burstLength _ _ = _
  by_cases hk : k = 0
  · rw [if_pos hk] at hphase
    obtain ⟨hcmd, haddr⟩ := v.command_eq hb hB (i := i) hk
    rw [Slave.next_of_wr hphase (haccepted hk) hcmd hvalid, haddr, hbe, hdata, hk]
    rfl
  · rw [if_neg hk] at hphase
    rw [Slave.next_of_write hphase hvalid, hbe, hdata]

include hb hB hsc htxn h hleg v haccepted in
theorem Writing.more (hmore : k + 1 < c.burstLength) : Writing c (next c y i) a be w (k + 1) := by
  have hslave := v.slave_eq hb hB haccepted
  have hwc := v.wc_eq hb hB hsc htxn h hleg
  have hlast : ¬ k = c.burstLength - 1 := by omega
  rw [v.accept_eq haccepted, if_neg hlast, if_pos rfl, Nat.mod_eq_of_lt hmore] at hwc
  refine ⟨?_, ?_, hmore, ?_, ?_, ?_, ?_, ?_⟩
  · rw [hwc]
  · rw [hwc]
  · rw [hwc]
    exact v.addr
  · rw [hwc]
    exact v.byteEn
  · rw [hwc]
    exact v.data
  · rw [hslave, if_neg (Nat.succ_ne_zero k)]
    exact if_neg (by omega)
  · rw [hslave, v.spec_eq hsc htxn h]

include hb hB hsc htxn h hleg v haccepted in
theorem Writing.last (hlast : k + 1 = c.burstLength) : WcStage c (next c y i) a be w := by
  have hslave := v.slave_eq hb hB haccepted
  have hwc := v.wc_eq hb hB hsc htxn h hleg
  have hk : k = c.burstLength - 1 := by omega
  rw [v.accept_eq haccepted, if_pos hk, if_pos rfl, hlast, Nat.mod_self] at hwc
  refine .resp ?_ ?_ ?_ ?_
  · rw [hwc]
  · rw [hwc]
  · rw [hslave]
    exact if_pos hlast
  · rw [hslave, v.spec_eq hsc htxn h]
    exact if_pos (by rw [hlast]; exact Nat.mod_lt _ (by omega))

include hb hB h v haccepted in
theorem Writing.remaining_lt : remaining c (next c y i) + 1 ≤ remaining c y := by
  have hphase := v.phase
  have hlt := v.lt
  have hold : c.burstLength + 1 - k ≤ remaining c y := by
    by_cases hk : k = 0
    · rw [if_pos hk] at hphase
      simp only [remaining, hphase, h.dm.state, h.bp.state]
      simp
      omega
    · rw [if_neg hk] at hphase
      simp [remaining, hphase]
  have hnew : remaining c (next c y i) ≤ c.burstLength - k := by
    have hslave := v.slave_eq hb hB haccepted
    by_cases hlast : k + 1 = c.burstLength
    · simp [remaining, hslave, hlast]
    · simp only [remaining, hslave, hlast, if_false]
      omega
  omega

end Accepted

include hb hB hsc htxn h hleg v in
theorem Writing.step : Step c y i := by
  have hnull := v.respOut_eq hsc h (i := i)
  have htxn' : y.spec.txn ≠ .none := by simp [htxn]
  by_cases hwait : k = 0 ∧ i.choice.accept = false
  · obtain ⟨hk, hacc⟩ := hwait
    have v' := v.wait hb hB hsc htxn h hleg hk hacc
    have hphase := v.phase
    rw [if_pos hk] at hphase
    have hdm := (dm_of_wait hleg hnull htxn' h.dm h.coherent).1.state
    have hbp := (bp_of_wait hleg hnull htxn' h.bp).state
    refine h.step_of_wait hsc htxn hleg hnull v'.stage ?_
    simp [remaining, v'.phase, hphase, h.dm.state, h.bp.state, hdm, hbp, willing, hacc]
  · have haccepted : k = 0 → i.choice.accept = true := by
      intro hk
      by_contra hacc
      exact hwait ⟨hk, by simpa using hacc⟩
    have hlt := v.lt
    have hless := v.remaining_lt hb hB h haccepted
    have hwill := Bool.toNat_le (willing i)
    refine h.step_of_wait hsc htxn hleg hnull ?_ (by omega)
    by_cases hlast : k + 1 = c.burstLength
    · exact v.last hb hB hsc htxn h hleg haccepted hlast
    · exact (v.more hb hB hsc htxn h hleg haccepted (by omega)).stage

end Write

include hb hB hsc htxn h hleg in
theorem Storing.step_of_resp (hst : y.core.wc.state = .writeResp) (hcnt : y.core.wc.cntReg = 0)
    (hphase : y.slave.phase = .resp) (hmem : y.slave.mem = y.spec.mem.write a be w) :
    Step c y i := by
  have hresp : respOut c y i = Slave.respOf i.choice := by
    rw [h.resp_eq hsc]
    simp [WriteNoBuffer.toWriteMaster, hst, fromSlave, Slave.out, hphase]
  cases hgo : i.choice.go with
  | false =>
    have hnull : respOut c y i = .null := by simp [hresp, Slave.respOf, hgo]
    have htxn' : y.spec.txn ≠ .none := by simp [htxn]
    have hspec := spec_of_wait hnull htxn'
    have hcmd := cmd_of_wait hleg hnull htxn'
    have hslave : (next c y i).slave = y.slave := Slave.next_of_resp_wait hphase hgo
    have hno : (fromSlave c y i).resp = .null := by
      simp [fromSlave, Slave.out, hphase, Slave.respOf, hgo]
    refine h.step_of_wait hsc htxn hleg hnull ?_ ?_
    · refine .resp ?_ ?_ ?_ ?_
      · change (WriteNoBuffer.next _ _ _ _).state = _
        simp [WriteNoBuffer.next, hst, hno, wcMaster, gate, hcmd]
      · change (WriteNoBuffer.next _ _ _ _).cntReg = _
        simp [WriteNoBuffer.next, hst, hcnt]
      · rw [hslave]; exact hphase
      · rw [hslave, hspec]; exact hmem
    · simp [remaining, hslave, hphase, willing, hgo]
  | true =>
    have herr := hleg.noErr hphase
    have hdva : respOut c y i = .dva := by simp [hresp, Slave.respOf, hgo, herr]
    have hyes : (fromSlave c y i).resp ≠ .null := by
      simp [fromSlave, Slave.out, hphase, Slave.respOf, hgo, herr]
    have hfree : Free c y i (y.spec.mem.write a be w) := by
      refine ⟨hsc, ⟨Or.inl h.dm.state, DirectMappedCache.miss_of_cmd h.dm.cmd⟩, h.dm.cnt,
        h.coherent, Or.inl h.bp.state, h.bp.cnt, h.bp.cmd, Or.inr ⟨hst, hyes⟩, hcnt, ?_, ?_⟩
      · rw [← hmem]
        exact Slave.next_of_resp hphase hgo
      · simp [Spec.finish, hdva, htxn]
    exact hfree.step hb hB hleg

end Stores

end Sys

end Patmos.DataCache
