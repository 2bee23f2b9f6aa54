import Patmos.DataCacheLoads

/-!
# Loads around the cache

A load in the address space `UNCACHED` goes through the bypass: the burst of its line is
read from the memory, and only the word at its position is kept.
-/

namespace Patmos.DataCache

open Clocked Ocp
open DirectMappedCache (Coherent)

namespace Sys

variable {c : Config} {y : Sys} {i : SysInputs} {b : Nat}

/-- `k` words of the burst have arrived. -/
structure Reading (c : Config) (y : Sys) (a k : Nat) : Prop where
  state : y.core.bp.stateReg = .read
  cnt : y.core.bp.burstCntReg = k
  lt : k < c.burstLength
  cmd : y.core.bp.masterReg.cmd ≠ .rd
  pos : y.core.bp.posReg = a % c.burstLength
  phase : y.slave.phase = .read (a / c.burstLength * c.burstLength) k
  left : y.core.join1 = true
  right : y.core.join2 = true
  caught : a % c.burstLength < k → Caught y.core.bp.slaveReg (y.spec.mem a)

theorem Reading.stage {a k : Nat} (r : Reading c y a k) : BpStage c y a :=
  .read k r.state r.cnt r.lt r.cmd r.pos r.phase r.left r.right r.caught

section Uncached

variable {a : Nat} (hb : 1 ≤ b) (hB : c.burstLength = 2 ^ b) (hsc : ScQuiet y.core.sc)
  (htxn : y.spec.txn = .load a false) (h : LoadUncached c y a) (hleg : Legal c y i)

include hsc h in
theorem LoadUncached.resp_eq : respOut c y i = (NullCache.toMaster y.core.bp).resp := by
  rw [resp_of_others hsc h.dm, wc_resp_of_quiet h.wc]
  simp

include hsc htxn h hleg in
/-- What does not depend on the stage while the load waits. -/
theorem LoadUncached.step_of_wait (hnull : respOut c y i = .null)
    (hmem : (next c y i).slave.mem = y.slave.mem) (hstage : BpStage c (next c y i) a)
    (hprogress : remaining c (next c y i) + (willing i).toNat ≤ remaining c y) : Step c y i := by
  have htxn' : y.spec.txn ≠ .none := by simp [htxn]
  obtain ⟨hselDC, hselSC⟩ := sel_of_wait hleg hnull htxn'
  have hspec := spec_of_wait hnull htxn'
  obtain ⟨hdm, hcoh⟩ := dm_of_wait hleg hnull htxn' h.dm h.coherent
  refine ⟨⟨hsc.next hleg, ?_⟩, fun _ _ => hprogress⟩
  simp only [hspec, htxn]
  refine ⟨hdm, ?_, wc_of_wait hleg hnull htxn' h.wc, ?_, ?_, ?_, hstage⟩
  · rw [hspec]
    exact hcoh
  · rw [hselDC, h.selDC]
  · rw [hselSC, h.selSC]
  · rw [hmem, hspec, h.mem]

include hleg in
theorem bpMaster_of_wait (hnull : respOut c y i = .null) (htxn' : y.spec.txn ≠ .none) :
    (bpMaster i.cpu).cmd = .idle := by
  have hcmd := cmd_of_wait hleg hnull htxn'
  simp [bpMaster, gate, hcmd]

include hb hB hsc htxn h hleg in
theorem LoadUncached.step_of_request (hst : y.core.bp.stateReg = .idle)
    (hcnt : y.core.bp.burstCntReg = 0) (hcmd : y.core.bp.masterReg.cmd = .rd)
    (haddr : y.core.bp.masterReg.addr / 4 = a) (hphase : y.slave.phase = .idle) :
    respOut c y i = .null ∧ Step c y i := by
  have hnull : respOut c y i = .null := by rw [h.resp_eq hsc, bp_resp (by simp [hst])]
  have htxn' : y.spec.txn ≠ .none := by simp [htxn]
  have hmaster := bpMaster_of_wait hleg hnull htxn'
  have hbpCmd : (NullCache.toSlave c.burstLength y.core.bp).cmd = .rd := by
    simp [NullCache.toSlave, hcmd]
  obtain ⟨hbus, hjoin1, hjoin2⟩ := bus_of_bp (c := c) (i := i) hsc (dm_cmd_of_quiet h.dm) hbpCmd
  have hto : toSlave c y.core i.cpu = NullCache.toSlave c.burstLength y.core.bp :=
    (toSlave_of_ne (by simp [h.wc.state])).trans hbus
  have haccept : (bpS y.core (fromSlave c y i)).cmdAccept = i.choice.accept := by
    change (fromSlave c y i).cmdAccept = _
    simp [fromSlave, Slave.out, hphase]
  have hpos : 0 < c.burstLength := by rw [hB]; positivity
  have hrem : remaining c y = c.burstLength + 2 := by
    simp [remaining, hphase, h.dm.state, hst]
  have hdmState := (dm_of_wait hleg hnull htxn' h.dm h.coherent).1.state
  refine ⟨hnull, ?_⟩
  cases hacc : i.choice.accept with
  | true =>
    rw [hacc] at haccept
    have hbp : (next c y i).core.bp = { y.core.bp with
        stateReg := .read
        posReg := a % c.burstLength
        masterReg := bpMaster i.cpu } := by
      change NullCache.next _ _ _ _ = _
      simp [NullCache.next, hst, hcmd, haccept, haddr, MemBlock.pow_log2Up hb hB]
    have hslave : (next c y i).slave =
        ⟨.read (a / c.burstLength * c.burstLength) 0, y.slave.mem⟩ := by
      have haddr' : (toSlave c y.core i.cpu).addr / 4 = a / c.burstLength * c.burstLength := by
        rw [hto, ← haddr]
        exact MemBlock.burstAddr_eq hb hB _
      rw [← haddr']
      exact Slave.next_of_rd hphase hacc (by rw [hto, hbpCmd])
    refine h.step_of_wait hsc htxn hleg hnull (by rw [hslave]) ?_
      (remaining_of_accept hrem (by rw [hslave]))
    refine .read 0 ?_ ?_ hpos ?_ ?_ ?_ hjoin1 hjoin2 ?_
    · rw [hbp]
    · rw [hbp]; exact hcnt
    · rw [hbp]; simp [hmaster]
    · rw [hbp]
    · rw [hslave]
    · intro hp
      exact absurd hp (Nat.not_lt_zero _)
  | false =>
    rw [hacc] at haccept
    have hbp : (next c y i).core.bp = { y.core.bp with stateReg := .idle } := by
      change NullCache.next _ _ _ _ = _
      simp [NullCache.next, hst, hcmd, haccept]
    have hslave : (next c y i).slave = y.slave := Slave.next_of_wait hphase hacc
    refine h.step_of_wait hsc htxn hleg hnull (by rw [hslave]) ?_ ?_
    · refine .request ?_ ?_ ?_ ?_ ?_
      · rw [hbp]
      · rw [hbp]; exact hcnt
      · rw [hbp]; exact hcmd
      · rw [hbp]; exact haddr
      · rw [hslave]; exact hphase
    · rw [hrem]
      simp [remaining, hslave, hphase, hbp, hdmState, willing, hacc]

section Read

variable {k : Nat} (r : Reading c y a k)

include hsc h r in
theorem Reading.respOut_eq : respOut c y i = .null := by
  rw [h.resp_eq hsc, bp_resp (by simp [r.state])]

include hsc h r in
theorem Reading.joins_eq : (next c y i).core.join1 = true ∧ (next c y i).core.join2 = true := by
  obtain ⟨-, hjoin1, hjoin2⟩ :=
    bus_of_idle (c := c) (i := i) hsc (dm_cmd_of_quiet h.dm) (bp_cmd r.cmd)
  exact ⟨hjoin1.trans r.left, hjoin2.trans r.right⟩

include hb hB h r in
theorem Reading.bp_eq : (next c y i).core.bp =
    { stateReg := if (fromSlave c y i).resp ≠ .null ∧ k = c.burstLength - 1 then .readResp
        else .read
      burstCntReg := if (fromSlave c y i).resp ≠ .null then (k + 1) % c.burstLength else k
      posReg := a % c.burstLength
      masterReg := bpMaster i.cpu
      slaveReg := if k = a % c.burstLength then ⟨(fromSlave c y i).resp, (fromSlave c y i).data⟩
        else y.core.bp.slaveReg } := by
  have hport : bpS y.core (fromSlave c y i) = fromSlave c y i := by
    simp [bpS, bus1S, bus2S, BurstJoin.toRight, WriteNoBuffer.toReadMaster, r.left, r.right,
      h.wc.state]
  change NullCache.next _ _ _ (bpS y.core (fromSlave c y i)) = _
  rw [hport]
  simp [NullCache.next, r.state, r.cmd, r.cnt, r.pos, MemBlock.pow_log2Up hb hB]

include hsc htxn h hleg r in
theorem Reading.bpCmd_ne : (bpMaster i.cpu).cmd ≠ .rd := by
  simp [bpMaster_of_wait hleg (r.respOut_eq hsc h) (by simp [htxn])]

include hsc htxn h r in
theorem Reading.spec_eq : (next c y i).spec = y.spec :=
  spec_of_wait (r.respOut_eq hsc h) (by simp [htxn])

include hb hB hsc htxn h hleg r in
theorem Reading.wait (hgo : i.choice.go = false) : Reading c (next c y i) a k := by
  have hno := resp_of_read_wait (c := c) r.phase hgo
  have hbp := r.bp_eq hb hB h (i := i)
  have hslave : (next c y i).slave = y.slave := Slave.next_of_read_wait r.phase hgo
  obtain ⟨hjoin1, hjoin2⟩ := r.joins_eq hsc h (i := i)
  refine ⟨?_, ?_, r.lt, ?_, ?_, ?_, hjoin1, hjoin2, ?_⟩
  · rw [hbp]
    simp [hno]
  · rw [hbp]
    simp [hno]
  · rw [hbp]
    exact r.bpCmd_ne hsc htxn h hleg
  · rw [hbp]
  · rw [hslave]
    exact r.phase
  · intro hp
    have hk : ¬ k = a % c.burstLength := by omega
    rw [hbp, r.spec_eq hsc htxn h, if_neg hk]
    exact r.caught hp

section Beat

variable (hgo : i.choice.go = true)

include r hgo in
theorem Reading.slave_eq : (next c y i).slave =
    ⟨if k + 1 = c.burstLength then .idle
      else .read (a / c.burstLength * c.burstLength) (k + 1), y.slave.mem⟩ :=
  Slave.next_of_read r.phase hgo

include hb hB h r hgo in
theorem Reading.caught_next (hp : a % c.burstLength < k + 1) :
    Caught (next c y i).core.bp.slaveReg (y.spec.mem a) := by
  rw [r.bp_eq hb hB h]
  by_cases hk : k = a % c.burstLength
  · rw [if_pos hk]
    exact caught_of_beat (hk ▸ r.phase) hgo h.mem
  · rw [if_neg hk]
    exact r.caught (by omega)

include hb hB hsc htxn h hleg r hgo in
theorem Reading.more (hmore : k + 1 < c.burstLength) : Reading c (next c y i) a (k + 1) := by
  have hyes := resp_ne_of_read (c := c) r.phase hgo
  have hbp := r.bp_eq hb hB h (i := i)
  obtain ⟨hjoin1, hjoin2⟩ := r.joins_eq hsc h (i := i)
  refine ⟨?_, ?_, hmore, ?_, ?_, ?_, hjoin1, hjoin2, ?_⟩
  · rw [hbp]
    exact if_neg (by omega)
  · rw [hbp]
    simp [hyes, Nat.mod_eq_of_lt hmore]
  · rw [hbp]
    exact r.bpCmd_ne hsc htxn h hleg
  · rw [hbp]
  · rw [r.slave_eq hgo, if_neg (by omega)]
  · rw [r.spec_eq hsc htxn h]
    exact r.caught_next hb hB h hgo

include hb hB h r hgo in
theorem Reading.state_of_last (hlast : k + 1 = c.burstLength) :
    (next c y i).core.bp.stateReg = .readResp := by
  rw [r.bp_eq hb hB h]
  exact if_pos ⟨resp_ne_of_read r.phase hgo, by omega⟩

include hb hB hsc htxn h hleg r hgo in
theorem Reading.last (hlast : k + 1 = c.burstLength) : BpStage c (next c y i) a := by
  have hyes := resp_ne_of_read (c := c) r.phase hgo
  have hbp := r.bp_eq hb hB h (i := i)
  refine .respond (r.state_of_last hb hB h hgo hlast) ?_ ?_ ?_ ?_
  · rw [hbp]
    simp [hyes, hlast]
  · rw [hbp]
    exact r.bpCmd_ne hsc htxn h hleg
  · rw [r.slave_eq hgo, if_pos hlast]
  · rw [r.spec_eq hsc htxn h]
    exact r.caught_next hb hB h hgo (by rw [hlast]; exact Nat.mod_lt _ (by omega))

end Beat

include hb hB hsc htxn h hleg r in
theorem Reading.step : respOut c y i = .null ∧ Step c y i := by
  have hnull := r.respOut_eq hsc h (i := i)
  have hlt := r.lt
  refine ⟨hnull, h.step_of_wait hsc htxn hleg hnull (mem_of_read r.phase) ?_
    (remaining_of_read r.phase hlt fun hgo hlast => .inr (r.state_of_last hb hB h hgo hlast))⟩
  cases hgo : i.choice.go with
  | false => exact (r.wait hb hB hsc htxn h hleg hgo).stage
  | true =>
    by_cases hlast : k + 1 = c.burstLength
    · exact r.last hb hB hsc htxn h hleg hgo hlast
    · exact (r.more hb hB hsc htxn h hleg hgo (by omega)).stage

end Read

include hb hB hsc htxn h hleg in
theorem LoadUncached.step_of_respond (hst : y.core.bp.stateReg = .readResp)
    (hcnt : y.core.bp.burstCntReg = 0) (hcmd : y.core.bp.masterReg.cmd ≠ .rd)
    (hphase : y.slave.phase = .idle) (hcaught : Caught y.core.bp.slaveReg (y.spec.mem a)) :
    (respOut c y i = .dva → dataOut c y i = y.spec.mem a) ∧ Step c y i := by
  have hto : NullCache.toMaster y.core.bp = y.core.bp.slaveReg := by simp [NullCache.toMaster, hst]
  have hresp : respOut c y i = y.core.bp.slaveReg.resp := by rw [h.resp_eq hsc, hto]
  constructor
  · intro hdva
    have hdata : dataOut c y i = (NullCache.toMaster y.core.bp).data := by
      simp [dataOut, data, h.selDC, h.selSC]
    rw [hdata, hto]
    exact hcaught.data (hresp ▸ hdva)
  · have hbus := bus_of_idle (c := c) (i := i) hsc (dm_cmd_of_quiet h.dm) (bp_cmd hcmd)
    have hfree : Free c y i y.spec.mem := by
      refine ⟨hsc, ⟨Or.inl h.dm.state, DirectMappedCache.miss_of_cmd h.dm.cmd⟩, h.dm.cnt,
        h.coherent, Or.inr hst, hcnt, hcmd, Or.inl h.wc.state, h.wc.cnt, ?_, ?_⟩
      · rw [slave_of_noCmd hphase, h.mem]
        rw [toSlave_of_ne (by simp [h.wc.state])]
        exact hbus.1
      · have hne : respOut c y i ≠ .null := by rw [hresp]; exact hcaught.resp
        simp [Spec.finish, hne, htxn]
    exact hfree.step hb hB hleg

end Uncached

end Sys

end Patmos.DataCache
