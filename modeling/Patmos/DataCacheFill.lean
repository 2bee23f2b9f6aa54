import Patmos.DataCacheLoads

/-!
# The fill of a cache line

The words of the line arrive one by one and go into the data memory in the next cycle; the
word that was asked for is caught on its way.  The line has been valid since the miss, so
it is the exception in the coherence of the cache until its last word is there, and a beat
with an error makes it invalid for good.
-/

namespace Patmos.DataCache

open Clocked Ocp
open DirectMappedCache (lineIndex tagCount tagOf wordIndex missIndex missIndexBits lineBase
  written Coherent)

namespace Sys

variable {c : Config} {y : Sys} {i : SysInputs} {b : Nat}

/-- `k` words of the line have arrived. -/
structure Filling (c : Config) (y : Sys) (a k : Nat) : Prop where
  state : y.core.dm.stateReg = .fill
  cnt : y.core.dm.burstCntReg = k
  lt : k < c.burstLength
  cmd : y.core.dm.masterReg.cmd = .idle
  index : y.core.dm.missIndexReg = a % c.burstLength
  tag : Inside c y → y.core.dm.tagMem (entry c y) = tagOf c.dcacheSize y.core.dm.masterReg.addr
  coherent : Coherent c.dcacheSize c.burstLength y.core.dm y.spec.mem (some (entry c y))
  phase : y.slave.phase = .read (a / c.burstLength * c.burstLength) k
  left : y.core.join1 = false
  right : y.core.join2 = true
  filled : Inside c y → y.core.dm.tagVMem (entry c y) = true → ∀ i, ∀ p < k,
    written c.dcacheSize c.burstLength y.core.dm i (entry c y * c.burstLength + p) =
      y.spec.mem (a / c.burstLength * c.burstLength + p)
  caught : a % c.burstLength < k → Caught y.core.dm.slaveReg (y.spec.mem a)
  invalid : Inside c y → y.erred = true → y.core.dm.tagVMem (entry c y) = false

theorem Filling.stage {a k : Nat} (f : Filling c y a k) : DmStage c y a :=
  .fill k f.state f.cnt f.lt f.cmd f.index f.tag f.coherent f.phase f.left f.right f.filled f.caught
    f.invalid

theorem Filling.cmd_ne {a k : Nat} (f : Filling c y a k) : y.core.dm.masterReg.cmd ≠ .rd := by
  simp [f.cmd]

/-! ### One cycle of a fill -/

section Cycle

variable {a k : Nat} (hb : 1 ≤ b) (hB : c.burstLength = 2 ^ b) (hsc : ScQuiet y.core.sc)
  (htxn : y.spec.txn = .load a true) (h : LoadCached c y a) (hleg : Legal c y i)
  (f : Filling c y a k)

include hsc h f in
theorem Filling.respOut_eq : respOut c y i = .null := by
  rw [h.resp_eq hsc]
  simp [DirectMappedCache.toMaster, DirectMappedCache.hit_of_cmd f.cmd_ne, f.state]

include hsc h f in
theorem Filling.joins_eq : (next c y i).core.join1 = false ∧ (next c y i).core.join2 = true := by
  have hcmd : (DirectMappedCache.toSlave c.dcacheSize c.burstLength y.core.dm
      (dmInputs i.cpu)).cmd = .idle := by
    simp [DirectMappedCache.toSlave, DirectMappedCache.miss_of_cmd f.cmd_ne, f.state]
  obtain ⟨-, hjoin1, hjoin2⟩ := bus_of_idle (c := c) (i := i) hsc hcmd (bp_cmd h.bp.cmd)
  exact ⟨hjoin1.trans f.left, hjoin2.trans f.right⟩

include h f in
theorem Filling.port_eq : dmS y.core (fromSlave c y i) = fromSlave c y i := by
  simp [dmS, bus1S, bus2S, BurstJoin.toLeft, BurstJoin.toRight, WriteNoBuffer.toReadMaster, f.left,
    f.right, h.wc.state]

include h f in
theorem Filling.dm_eq : (next c y i).core.dm = DirectMappedCache.next c.dcacheSize c.burstLength
    y.core.dm (dmInputs i.cpu) (fromSlave c y i) := by
  change DirectMappedCache.next _ _ _ _ (dmS y.core (fromSlave c y i)) = _
  rw [f.port_eq h]

include h f in
theorem Filling.tagVMem_le {j : Nat} (hv : (next c y i).core.dm.tagVMem j = true) :
    y.core.dm.tagVMem j = true := by
  rw [f.dm_eq h] at hv
  exact DirectMappedCache.tagVMem_of_fill f.state f.cmd_ne hv

include h f in
theorem Filling.addr_eq : (next c y i).core.dm.masterReg.addr = y.core.dm.masterReg.addr := by
  rw [f.dm_eq h, DirectMappedCache.next_of_fill f.state f.cmd_ne]

include h f in
theorem Filling.entry_eq : entry c (next c y i) = entry c y := by
  rw [entry, entry, f.addr_eq h]

include h f in
theorem Filling.inside_eq : Inside c (next c y i) ↔ Inside c y := by
  rw [Inside, Inside, f.entry_eq h]

include h f in
theorem Filling.tagMem_eq : (next c y i).core.dm.tagMem = y.core.dm.tagMem := by
  rw [f.dm_eq h, DirectMappedCache.next_of_fill f.state f.cmd_ne]

include hsc htxn h hleg f in
theorem Filling.dmCmd_eq : (dmInputs i.cpu).master.cmd = .idle :=
  dmMaster_of_wait hleg (f.respOut_eq hsc h) (by simp [htxn])

include hsc htxn h f in
theorem Filling.spec_eq : (next c y i).spec = y.spec :=
  spec_of_wait (f.respOut_eq hsc h) (by simp [htxn])

include hb hB hsc htxn h hleg f in
/-- The data memories after the write of the next cycle: a beat brings one word. -/
theorem Filling.written_eq (hin : Inside c y) (i' : DirectMappedCache.Inputs) :
    written c.dcacheSize c.burstLength (next c y i).core.dm i' =
      if (fromSlave c y i).resp = .null then
        written c.dcacheSize c.burstLength y.core.dm (dmInputs i.cpu)
      else Function.update (written c.dcacheSize c.burstLength y.core.dm (dmInputs i.cpu))
        (entry c y * c.burstLength + k) (fromSlave c y i).data := by
  have hcmd := f.dmCmd_eq hsc htxn h hleg
  rw [f.dm_eq h, ← f.cnt]
  exact DirectMappedCache.written_next_of_fill f.state f.cmd_ne hb hB (by simp [hcmd]) hin
    (by rw [f.cnt]; exact f.lt) i'

include hb hB f in
theorem Filling.coherent_next : Coherent c.dcacheSize c.burstLength (next c y i).core.dm y.spec.mem
    (some (entry c y)) :=
  f.coherent.fill f.state f.cmd_ne hb hB (by rw [f.cnt]; exact f.lt)

include h f in
/-- The valid bit of the line after the cycle rules out all errors so far. -/
theorem Filling.invalid_next (hin : Inside c y) (he : (next c y i).erred = true) :
    (next c y i).core.dm.tagVMem (entry c y) = false := by
  have hor : y.erred = true ∨ (fromSlave c y i).resp = .err := by
    simpa [next, f.state, f.port_eq h] using he
  rcases hor with hold | herr
  · by_contra hv
    have hvalid := f.tagVMem_le h (i := i) (by simpa using hv)
    simp [f.invalid hin hold] at hvalid
  · rw [f.dm_eq h]
    exact DirectMappedCache.tagVMem_of_err f.state f.cmd_ne hin herr

include hb hB hsc htxn h hleg f in
/-- What does not depend on the number of words that have arrived. -/
theorem Filling.next_of {k' : Nat} (hlt : k' < c.burstLength)
    (hstate : (next c y i).core.dm.stateReg = .fill)
    (hcnt : (next c y i).core.dm.burstCntReg = k')
    (hphase : (next c y i).slave.phase = .read (a / c.burstLength * c.burstLength) k')
    (hfilled : Inside c y → (next c y i).core.dm.tagVMem (entry c y) = true → ∀ i', ∀ p < k',
      written c.dcacheSize c.burstLength (next c y i).core.dm i' (entry c y * c.burstLength + p) =
        y.spec.mem (a / c.burstLength * c.burstLength + p))
    (hcaught : a % c.burstLength < k' → Caught (next c y i).core.dm.slaveReg (y.spec.mem a)) :
    Filling c (next c y i) a k' := by
  have hspec := f.spec_eq hsc htxn h (i := i)
  have hentry := f.entry_eq h (i := i)
  have heq := (f.dm_eq h (i := i)).trans (DirectMappedCache.next_of_fill f.state f.cmd_ne)
  obtain ⟨hjoin1, hjoin2⟩ := f.joins_eq hsc h (i := i)
  refine ⟨hstate, hcnt, hlt, ?_, ?_, ?_, ?_, hphase, hjoin1, hjoin2, ?_, ?_, ?_⟩
  · rw [heq]
    exact f.dmCmd_eq hsc htxn h hleg
  · rw [heq]
    exact f.index
  · rw [f.inside_eq h, hentry, f.tagMem_eq h, f.addr_eq h]
    exact f.tag
  · rw [hentry, hspec]
    exact f.coherent_next hb hB
  · rw [f.inside_eq h, hentry, hspec]
    exact hfilled
  · rw [hspec]
    exact hcaught
  · rw [f.inside_eq h, hentry]
    exact f.invalid_next h

include hb hB hsc htxn h hleg f in
theorem Filling.wait (hgo : i.choice.go = false) : Filling c (next c y i) a k := by
  have hno := resp_of_read_wait (c := c) f.phase hgo
  have hslave : (next c y i).slave = y.slave := Slave.next_of_read_wait f.phase hgo
  have heq := (f.dm_eq h (i := i)).trans (DirectMappedCache.next_of_fill f.state f.cmd_ne)
  refine f.next_of hb hB hsc htxn h hleg f.lt ?_ ?_ ?_ ?_ ?_
  · rw [heq]
    simp [hno]
  · rw [heq]
    simp [hno, f.cnt]
  · rw [hslave]
    exact f.phase
  · intro hin hv i' p hp
    rw [f.written_eq hb hB hsc htxn h hleg hin, if_pos hno]
    exact f.filled hin (f.tagVMem_le h hv) _ p hp
  · intro hp
    rw [heq]
    simpa [hno] using f.caught hp

/-! ### A beat -/

section Beat

variable (hgo : i.choice.go = true)

include f hgo in
theorem Filling.slave_eq : (next c y i).slave =
    ⟨if k + 1 = c.burstLength then .idle
      else .read (a / c.burstLength * c.burstLength) (k + 1), y.slave.mem⟩ :=
  Slave.next_of_read f.phase hgo

include hb hB hsc htxn h hleg f hgo in
theorem Filling.filled_next (hin : Inside c y)
    (hv : (next c y i).core.dm.tagVMem (entry c y) = true)
    (i' : DirectMappedCache.Inputs) {p : Nat} (hp : p < k + 1) :
    written c.dcacheSize c.burstLength (next c y i).core.dm i' (entry c y * c.burstLength + p) =
      y.spec.mem (a / c.burstLength * c.burstLength + p) := by
  have hok : (fromSlave c y i).resp ≠ .err := by
    intro herr
    have hclear : (next c y i).core.dm.tagVMem (entry c y) = false := by
      rw [f.dm_eq h]
      exact DirectMappedCache.tagVMem_of_err f.state f.cmd_ne hin herr
    simp [hclear] at hv
  rw [f.written_eq hb hB hsc htxn h hleg hin, if_neg (resp_ne_of_read f.phase hgo)]
  by_cases hpk : p = k
  · rw [hpk, Function.update_self, data_of_read f.phase hgo hok, h.mem]
  · rw [Function.update_of_ne (by omega)]
    exact f.filled hin (f.tagVMem_le h hv) _ p (by omega)

include h f hgo in
theorem Filling.caught_next (hp : a % c.burstLength < k + 1) :
    Caught (next c y i).core.dm.slaveReg (y.spec.mem a) := by
  have hyes := resp_ne_of_read (c := c) f.phase hgo
  have hreg : (next c y i).core.dm.slaveReg = if k = a % c.burstLength then
      ⟨(fromSlave c y i).resp, (fromSlave c y i).data⟩ else y.core.dm.slaveReg := by
    rw [f.dm_eq h, DirectMappedCache.next_of_fill f.state f.cmd_ne]
    simp [hyes, f.cnt, f.index]
  rw [hreg]
  by_cases hk : k = a % c.burstLength
  · rw [if_pos hk]
    exact caught_of_beat (hk ▸ f.phase) hgo h.mem
  · rw [if_neg hk]
    exact f.caught (by omega)

include hb hB hsc htxn h hleg f hgo in
theorem Filling.more (hmore : k + 1 < c.burstLength) : Filling c (next c y i) a (k + 1) := by
  have hyes := resp_ne_of_read (c := c) f.phase hgo
  have heq := (f.dm_eq h (i := i)).trans (DirectMappedCache.next_of_fill f.state f.cmd_ne)
  refine f.next_of hb hB hsc htxn h hleg hmore ?_ ?_ ?_ ?_ (f.caught_next h hgo)
  · have hlast : ¬ k = c.burstLength - 1 := by omega
    rw [heq]
    simp [f.cnt, hlast]
  · rw [heq]
    simp [hyes, f.cnt, DirectMappedCache.lineWords_eq hb hB, Nat.mod_eq_of_lt hmore]
  · rw [f.slave_eq hgo, if_neg (by omega)]
  · intro hin hv i' p hp
    exact f.filled_next hb hB hsc htxn h hleg hgo hin hv i' hp

include hb hB h f hgo in
theorem Filling.state_of_last (hlast : k + 1 = c.burstLength) :
    (next c y i).core.dm.stateReg = .respond ∧ (next c y i).core.dm.burstCntReg = 0 := by
  have hyes := resp_ne_of_read (c := c) f.phase hgo
  have hk : k = c.burstLength - 1 := by omega
  rw [f.dm_eq h, DirectMappedCache.next_of_fill f.state f.cmd_ne]
  constructor
  · simp [hyes, f.cnt, hk]
  · simp [hyes, f.cnt, DirectMappedCache.lineWords_eq hb hB, hlast]

include hb hB hsc htxn h hleg f hgo in
/-- With its last word the line is coherent. -/
theorem Filling.last (hlast : k + 1 = c.burstLength) : DmStage c (next c y i) a := by
  have hslave := f.slave_eq hgo
  have hspec := f.spec_eq hsc htxn h (i := i)
  have hcmd : (next c y i).core.dm.masterReg.cmd = .idle := by
    rw [f.dm_eq h, DirectMappedCache.next_of_fill f.state f.cmd_ne]
    exact f.dmCmd_eq hsc htxn h hleg
  obtain ⟨hrespond, hcnt⟩ := f.state_of_last hb hB h hgo hlast
  refine .respond hrespond hcnt hcmd ?_ ?_ ?_ ?_
  · intro i' j p hj hv _ hp
    rw [hspec]
    by_cases hjx : j = entry c y
    · subst hjx
      rw [f.filled_next hb hB hsc htxn h hleg hgo hj hv i' (by omega), f.tagMem_eq h, f.tag hj,
        h.line_eq hb hB hj]
    · exact f.coherent_next hb hB i' j p hj hv
        (fun hs => hjx (Option.some.inj hs).symm) hp
  · rw [hslave, if_pos hlast]
  · rw [hspec]
    exact f.caught_next h hgo (by rw [hlast]; exact Nat.mod_lt _ (by omega))
  · rw [f.inside_eq h, f.entry_eq h]
    exact f.invalid_next h

end Beat

include hb hB hsc htxn h hleg f in
theorem Filling.step : respOut c y i = .null ∧ Step c y i := by
  have hnull := f.respOut_eq hsc h (i := i)
  have hlt := f.lt
  refine ⟨hnull, h.step_of_wait hsc htxn hleg hnull (f.addr_eq h) (mem_of_read f.phase) ?_
    (remaining_of_read f.phase hlt fun hgo hlast => .inl (f.state_of_last hb hB h hgo hlast).1)⟩
  cases hgo : i.choice.go with
  | false => exact (f.wait hb hB hsc htxn h hleg hgo).stage
  | true =>
    by_cases hlast : k + 1 = c.burstLength
    · exact f.last hb hB hsc htxn h hleg hgo hlast
    · exact (f.more hb hB hsc htxn h hleg hgo (by omega)).stage

end Cycle

end Sys

end Patmos.DataCache
