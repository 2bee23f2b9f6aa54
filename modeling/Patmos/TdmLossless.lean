import Patmos.NodeTdmArbiter

/-!
# The TDM arbiter loses nothing

A node shows signals of its core only in the first `burstLen` cycles of its slot, so no two nodes
show signals in one cycle and the OR of all is what one of them shows.  The response to a write
comes when `wrCntReg` is 4, whatever the length of a burst: it follows the last word for bursts of
up to four words, and cuts longer ones.
-/

namespace Patmos.NodeTdmArbiter

open Ocp Clocked

/-! ### Slots -/

section Slots

variable {cfg : Config} {cnt : Nat} {i j : Fin cnt} {T T' k k' t : ℕ}

/-- The slot of node `i` begins in cycle `t`. -/
def IsSlot (cfg : Config) {cnt : Nat} (i : Fin cnt) (t : ℕ) : Prop :=
  1 ≤ t ∧ (t - 1) % cfg.period cnt = i * cfg.slotLen

theorem slot_add_lt (i : Fin cnt) (hk : k < cfg.slotLen) :
    i * cfg.slotLen + k < cfg.period cnt := by
  have hle : (i.val + 1) * cfg.slotLen ≤ cnt * cfg.slotLen := Nat.mul_le_mul_right _ i.isLt
  rw [Nat.succ_mul] at hle
  exact Nat.lt_of_lt_of_le (Nat.add_lt_add_left hk _) hle

theorem period_pos (i : Fin cnt) : 0 < cfg.period cnt :=
  Nat.zero_lt_of_lt (slot_add_lt i (Nat.succ_pos (cfg.burstLen + cfg.ctrlDelay)))

theorem IsSlot.offset (h : IsSlot cfg i T) (hk : k < cfg.slotLen) :
    (T + k - 1) % cfg.period cnt = i * cfg.slotLen + k := by
  have hsub : T + k - 1 = T - 1 + k := Nat.sub_add_comm h.1
  rw [hsub, ← Nat.mod_add_mod, h.2]
  exact Nat.mod_eq_of_lt (slot_add_lt i hk)

/-- A cycle lies in the slot of one node only. -/
theorem IsSlot.unique (h : IsSlot cfg i T) (h' : IsSlot cfg j T') (hk : k < cfg.slotLen)
    (hk' : k' < cfg.slotLen) (ht : T + k = T' + k') : i = j := by
  have hoffset : i * cfg.slotLen + k = j * cfg.slotLen + k' := by
    rw [← h.offset hk, ht, h'.offset hk']
  have hpos : 0 < cfg.slotLen := Nat.succ_pos _
  have hdiv := congrArg (· / cfg.slotLen) hoffset
  simp only [add_comm _ k, add_comm _ k', Nat.add_mul_div_right _ _ hpos,
    Nat.div_eq_of_lt hk, Nat.div_eq_of_lt hk', zero_add] at hdiv
  exact Fin.ext hdiv

theorem exists_slot (cfg : Config) (i : Fin cnt) (t : ℕ) :
    ∃ T, t < T ∧ T ≤ t + cfg.period cnt ∧ IsSlot cfg i T := by
  have hfirst : i * cfg.slotLen < cfg.period cnt := slot_add_lt i (Nat.succ_pos _)
  obtain ⟨d, hdlt, hd⟩ := MemBlock.exists_add_mod hfirst t
  refine ⟨t + d + 1, by omega, by omega, by omega, ?_⟩
  rw [Nat.add_sub_cancel, hd]

theorem wrCntNext_of_lt (hk : k < 4) (hlen : 2 ≤ cfg.burstLen) : wrCntNext cfg k = k + 1 := by
  have hdelay : 5 ≤ cfg.wrPipeDelay := by
    unfold Config.wrPipeDelay Config.numPipe
    omega
  have hwidth := MemBlock.le_pow_log2Up cfg.wrPipeDelay
  unfold wrCntNext
  rw [if_neg (by omega), Nat.mod_eq_of_lt (by omega)]

theorem rdCntNext_of_ne_zero (hlt : k < 2 ^ MemBlock.log2Up cfg.rdPipeDelay)
    (hne : rdCntNext cfg k ≠ 0) :
    rdCntNext cfg k = k + 1 ∧ k + 1 < 2 ^ MemBlock.log2Up cfg.rdPipeDelay := by
  unfold rdCntNext at hne ⊢
  split at hne
  · exact absurd rfl hne
  · rename_i hlast
    rw [if_neg hlast]
    rcases Nat.lt_or_eq_of_le hlt with hinside | hend
    · exact ⟨Nat.mod_eq_of_lt hinside, hinside⟩
    · exact absurd (Nat.mod_eq_zero_of_dvd ⟨1, by rw [Nat.mul_one]; exact hend⟩) hne

/-- When the counter of a read is at its end, responses are taken. -/
theorem le_of_rdCntNext_eq_zero (hlt : k < 2 ^ MemBlock.log2Up cfg.rdPipeDelay)
    (hlen : 1 ≤ cfg.burstLen) (hzero : rdCntNext cfg k = 0) :
    cfg.ctrlDelay + Config.numPipe ≤ k := by
  have hwidth := MemBlock.le_pow_log2Up cfg.rdPipeDelay
  unfold Config.rdPipeDelay at hwidth
  unfold rdCntNext at hzero
  split at hzero
  · rename_i hlast
    unfold Config.rdPipeDelay at hlast
    omega
  · rcases Nat.lt_or_eq_of_le hlt with hinside | hend
    · rw [Nat.mod_eq_of_lt hinside] at hzero
      cases hzero
    · unfold Config.rdPipeDelay at hend
      omega

end Slots

namespace Sys

/-! ### What a node is doing -/

section Node

variable {cfg : Config} {cnt addrWidth dataWidth : Nat}
  {y : Sys cnt addrWidth dataWidth} {c : Cycle cnt addrWidth dataWidth} {i j : Fin cnt} {t : ℕ}

/-- What node `i` is doing before cycle `t`, with the cycle `T` in which it took the command. -/
inductive Stage (cfg : Config) (y : Sys cnt addrWidth dataWidth) (t : ℕ) (i : Fin cnt) : Prop
  | idle (hs : (y.node i).stateReg = .sIdle) (hcnt : (y.node i).burstCntReg = 0)
      (hpend : y.pend i = none)
  | write (T k : ℕ) (hs : (y.node i).stateReg = .sWrite) (hcnt : (y.node i).burstCntReg = 0)
      (hslot : IsSlot cfg i T) (ht : t = T + (k + 1)) (hk : k ≤ 4)
      (hwr : (y.node i).wrCntReg = k) (hpend : y.pend i = some (.write (min (k + 1) cfg.burstLen)))
  | read (T k : ℕ) (hs : (y.node i).stateReg = .sRead)
      (hcnt : (y.node i).burstCntReg < cfg.burstLen) (hslot : IsSlot cfg i T)
      (ht : t = T + (k + 1)) (hk : k < 2 ^ MemBlock.log2Up cfg.rdPipeDelay)
      (hrd : (y.node i).rdCntReg = k) (hpend : y.pend i = some (.read (y.node i).burstCntReg))

structure NodeInv (cfg : Config) (y : Sys cnt addrWidth dataWidth) (t : ℕ) (i : Fin cnt) :
    Prop where
  cntReg : (y.node i).cntReg = t % cfg.period cnt
  cpuSlot : ∀ j, (y.node i).cpuSlot j = true ↔ IsSlot cfg j t
  stage : Stage cfg y t i

theorem IsReset.inv (h : IsReset y) (i : Fin cnt) : NodeInv cfg y 0 i := by
  refine ⟨?_, ?_, .idle (h.stateReg i) (h.burstCntReg i) (h.pend i)⟩
  · rw [h.cntReg i, Nat.zero_mod]
  · intro j
    rw [h.cpuSlot i j]
    constructor
    · intro hf
      cases hf
    · rintro ⟨hpos, -⟩
      cases hpos

/-- The slot counter and the slot flags do not depend on what the node is doing. -/
theorem nodeNext_ticks (cfg : Config) (i : Fin cnt) (x : Node cnt) (m : Master addrWidth dataWidth)
    (s : Slave dataWidth) :
    (nodeNext cfg i x m s).cntReg = (tick cfg x).cntReg ∧
      (nodeNext cfg i x m s).cpuSlot = (tick cfg x).cpuSlot := by
  cases hs : x.stateReg with
  | sIdle =>
    simp only [nodeNext, hs]
    split
    · exact ⟨rfl, rfl⟩
    · split <;> exact ⟨rfl, rfl⟩
  | sWrite => simp only [nodeNext, hs, and_self]
  | sRead =>
    simp only [nodeNext, hs]
    split <;> exact ⟨rfl, rfl⟩

theorem NodeInv.next_of_stage (h : NodeInv cfg y t i)
    (hstage : Stage cfg (y.next cfg c) (t + 1) i) : NodeInv cfg (y.next cfg c) (t + 1) i := by
  obtain ⟨hcnt, hslot⟩ := nodeNext_ticks cfg i (y.node i) (c.master i) y.mux.s_p1
  refine ⟨?_, ?_, hstage⟩
  · refine hcnt.trans ?_
    rw [tick, h.cntReg]
    exact MemBlock.count_next (period_pos i) t
  · intro j
    have hflag : ((y.next cfg c).node i).cpuSlot j = (tick cfg (y.node i)).cpuSlot j :=
      congrFun hslot j
    rw [hflag, tick, h.cntReg, beq_iff_eq, IsSlot, Nat.add_sub_cancel]
    exact ⟨fun heq => ⟨Nat.succ_pos t, heq⟩, fun hand => hand.2⟩

/-- Node `i` takes a command. -/
def Takes (cfg : Config) (y : Sys cnt addrWidth dataWidth) (c : Cycle cnt addrWidth dataWidth)
    (i : Fin cnt) : Prop :=
  (y.reply cfg c i).cmdAccept = true

theorem takes_iff : Takes cfg y c i ↔ (y.node i).stateReg = .sIdle ∧
    (y.node i).cpuSlot i = true ∧ ((c.master i).cmd = code .rd ∨ (c.master i).cmd = code .wr) := by
  unfold Takes reply toMaster
  cases hs : (y.node i).stateReg with
  | sIdle =>
    dsimp only
    split
    · rename_i hrd
      exact ⟨fun _ => ⟨rfl, hrd.1, Or.inl hrd.2⟩, fun _ => rfl⟩
    · rename_i hrd
      split
      · rename_i hwr
        exact ⟨fun _ => ⟨rfl, hwr.1, Or.inr hwr.2⟩, fun _ => rfl⟩
      · rename_i hwr
        constructor
        · intro hf
          cases hf
        · rintro ⟨-, hslot, hcmd | hcmd⟩
          · exact absurd ⟨hslot, hcmd⟩ hrd
          · exact absurd ⟨hslot, hcmd⟩ hwr
  | sWrite => simp
  | sRead =>
    dsimp only
    split <;> simp

theorem reply_of_idle (hs : (y.node i).stateReg = .sIdle) : (y.reply cfg c i).resp = .null := by
  simp only [reply, toMaster, hs]
  split
  · rfl
  · split <;> rfl

theorem reply_of_write (hs : (y.node i).stateReg = .sWrite) :
    y.reply cfg c i = ⟨if (y.node i).wrCntReg = 4 then .dva else .null, 0, false,
      !decide ((y.node i).wrCntReg ≥ cfg.burstLen - 1)⟩ := by
  simp only [reply, toMaster, hs]

theorem pendNext_of_none (h : ¬ Takes cfg y c i) (hpend : y.pend i = none) :
    y.pendNext cfg c i = none := by
  rw [pendNext, hpend]
  exact if_neg h

theorem pendNext_of_write {n : ℕ} (h : ¬ Takes cfg y c i) (hpend : y.pend i = some (.write n)) :
    y.pendNext cfg c i =
      if (y.reply cfg c i).resp = .dva then none
      else some (.write (n + (y.reply cfg c i).dataAccept.toNat)) := by
  rw [pendNext, hpend]
  exact if_neg h

theorem pendNext_of_read {n : ℕ} (h : ¬ Takes cfg y c i) (hpend : y.pend i = some (.read n)) :
    y.pendNext cfg c i =
      if (y.reply cfg c i).resp = .dva then
        if n = cfg.burstLen - 1 then none else some (.read (n + 1))
      else some (.read n) := by
  rw [pendNext, hpend]
  exact if_neg h

theorem held_of_not_takes (h : ¬ Takes cfg y c i) (hcmd : (c.master i).cmd ≠ code .idle) :
    (y.next cfg c).held i = some (c.master i) := by
  refine if_neg ?_
  rintro (hidle | htakes)
  · exact hcmd hidle
  · exact h htakes

theorem not_takes_of_stateReg (h : (y.node i).stateReg ≠ .sIdle) : ¬ Takes cfg y c i := by
  intro htakes
  exact h (takes_iff.mp htakes).1

theorem node_of_takes_wr (h : Takes cfg y c i) (hwr : (c.master i).cmd = code .wr) :
    (y.next cfg c).node i = { tick cfg (y.node i) with stateReg := .sWrite, wrCntReg := 0 } := by
  obtain ⟨hs, hflag, -⟩ := takes_iff.mp h
  simp [next, nodeNext, hs, hflag, hwr, code]

theorem node_of_write {k : ℕ} (hs : (y.node i).stateReg = .sWrite) (hwr : (y.node i).wrCntReg = k) :
    (y.next cfg c).node i = { tick cfg (y.node i) with
      wrCntReg := wrCntNext cfg k
      stateReg := if k = 4 then .sIdle else .sWrite } := by
  simp [next, nodeNext, toMaster, hs, hwr]

theorem node_of_idle (hs : (y.node i).stateReg = .sIdle) (h : ¬ Takes cfg y c i) :
    (y.next cfg c).node i = tick cfg (y.node i) := by
  have hrd : ¬ ((y.node i).cpuSlot i = true ∧ (c.master i).cmd = code .rd) :=
    fun hand => h (takes_iff.mpr ⟨hs, hand.1, Or.inl hand.2⟩)
  have hwr : ¬ ((y.node i).cpuSlot i = true ∧ (c.master i).cmd = code .wr) :=
    fun hand => h (takes_iff.mpr ⟨hs, hand.1, Or.inr hand.2⟩)
  simp only [next, nodeNext, hs, if_neg hrd, if_neg hwr]

/-! ### One cycle -/

theorem NodeInv.next_of_takes (h : NodeInv cfg y t i) (htakes : Takes cfg y c i)
    (hlen : 2 ≤ cfg.burstLen) : NodeInv cfg (y.next cfg c) (t + 1) i := by
  obtain ⟨hs, hflag, hcmd⟩ := takes_iff.mp htakes
  have hslot : IsSlot cfg i t := (h.cpuSlot i).mp hflag
  have hcnt : (y.node i).burstCntReg = 0 := by
    cases h.stage with
    | idle _ hcnt _ => exact hcnt
    | write _ _ hs' _ _ _ _ _ _ | read _ _ hs' _ _ _ _ _ _ => simp [hs] at hs'
  have hpend : (y.next cfg c).pend i =
      some (if (c.master i).cmd = code .wr then .write 1 else .read 0) := if_pos htakes
  apply h.next_of_stage
  rcases hcmd with hrd | hwr
  · have hnode : (y.next cfg c).node i =
        { tick cfg (y.node i) with stateReg := .sRead, rdCntReg := 0 } := by
      simp [next, nodeNext, hs, hflag, hrd]
    have hne : (c.master i).cmd ≠ code .wr := by
      rw [hrd]
      decide
    have hburst : ((y.next cfg c).node i).burstCntReg = 0 := by
      rw [hnode]
      exact hcnt
    refine .read t 0 (by rw [hnode]) ?_ hslot rfl (Nat.two_pow_pos _) (by rw [hnode]) ?_
    · rw [hburst]
      omega
    · rw [hpend, if_neg hne, hburst]
  · have hnode := node_of_takes_wr htakes hwr
    refine .write t 0 (by rw [hnode]) ?_ hslot rfl (Nat.zero_le 4) (by rw [hnode]) ?_
    · rw [hnode]
      exact hcnt
    · rw [hpend, if_pos hwr, Nat.min_eq_left (by omega)]

theorem NodeInv.next_of_idle (h : NodeInv cfg y t i) (hs : (y.node i).stateReg = .sIdle)
    (hcnt : (y.node i).burstCntReg = 0) (hpend : y.pend i = none) (htakes : ¬ Takes cfg y c i) :
    NodeInv cfg (y.next cfg c) (t + 1) i := by
  have hnode := node_of_idle hs htakes
  have hpend' : (y.next cfg c).pend i = none := pendNext_of_none htakes hpend
  exact h.next_of_stage (.idle (by rw [hnode]; exact hs) (by rw [hnode]; exact hcnt) hpend')

theorem NodeInv.next_of_write (h : NodeInv cfg y t i) (hlen : 2 ≤ cfg.burstLen) {T k : ℕ}
    (hs : (y.node i).stateReg = .sWrite) (hcnt : (y.node i).burstCntReg = 0)
    (hslot : IsSlot cfg i T) (ht : t = T + (k + 1)) (hk : k ≤ 4) (hwr : (y.node i).wrCntReg = k)
    (hpend : y.pend i = some (.write (min (k + 1) cfg.burstLen))) :
    NodeInv cfg (y.next cfg c) (t + 1) i := by
  have hnot : ¬ Takes cfg y c i := not_takes_of_stateReg (by simp [hs])
  have hpend' : (y.next cfg c).pend i = _ := pendNext_of_write hnot hpend
  rw [reply_of_write hs, hwr] at hpend'
  have hnode : (y.next cfg c).node i = _ := node_of_write hs hwr
  apply h.next_of_stage
  by_cases hlast : k = 4
  · simp only [hlast, if_true] at hpend' hnode
    exact .idle (by rw [hnode]) (by rw [hnode]; exact hcnt) hpend'
  · simp only [hlast, if_false, reduceCtorEq] at hpend' hnode
    rw [wrCntNext_of_lt (by omega) hlen] at hnode
    refine .write T (k + 1) (by rw [hnode]) (by rw [hnode]; exact hcnt) hslot (by omega) (by omega)
      (by rw [hnode]) ?_
    rw [hpend']
    by_cases hend : k ≥ cfg.burstLen - 1
    · simp only [hend, decide_true, Bool.not_true, Bool.toNat_false, add_zero]
      rw [Nat.min_eq_right (by omega), Nat.min_eq_right (by omega)]
    · simp only [hend, decide_false, Bool.not_false, Bool.toNat_true]
      rw [min_eq_left (by omega), min_eq_left (by omega)]

theorem NodeInv.next_of_read (h : NodeInv cfg y t i) {b : ℕ} (hb : 1 ≤ b)
    (hpow : cfg.burstLen = 2 ^ b) (hprompt : y.Prompt cfg) {T k : ℕ}
    (hs : (y.node i).stateReg = .sRead) (hcnt : (y.node i).burstCntReg < cfg.burstLen)
    (hslot : IsSlot cfg i T) (ht : t = T + (k + 1))
    (hk : k < 2 ^ MemBlock.log2Up cfg.rdPipeDelay) (hrd : (y.node i).rdCntReg = k)
    (hpend : y.pend i = some (.read (y.node i).burstCntReg)) :
    NodeInv cfg (y.next cfg c) (t + 1) i := by
  have hnot : ¬ Takes cfg y c i := not_takes_of_stateReg (by simp [hs])
  have hwidth := MemBlock.pow_log2Up hb hpow
  have hpend' : (y.next cfg c).pend i = _ := pendNext_of_read hnot hpend
  have hnode : (y.next cfg c).node i =
      if (y.reply cfg c i).resp = .dva then
        { tick cfg (y.node i) with
          rdCntReg := rdCntNext cfg (y.node i).rdCntReg
          burstCntReg := ((y.node i).burstCntReg + 1) % 2 ^ MemBlock.log2Up cfg.burstLen
          stateReg := if (y.node i).burstCntReg = cfg.burstLen - 1 then .sIdle else .sRead }
      else
        { tick cfg (y.node i) with rdCntReg := rdCntNext cfg (y.node i).rdCntReg } := by
    simp only [next, nodeNext, hs]
    rfl
  apply h.next_of_stage
  by_cases hend : (y.reply cfg c i).resp = .dva ∧ (y.node i).burstCntReg = cfg.burstLen - 1
  · simp only [hend.1, hend.2, if_true] at hpend' hnode
    refine .idle (by rw [hnode]) ?_ hpend'
    rw [hnode, hwidth, Nat.sub_add_cancel (by omega)]
    exact Nat.mod_self _
  · -- the counter is not at its end, as the last word would be there then
    have hne : rdCntNext cfg (y.node i).rdCntReg ≠ 0 := by
      intro hzero
      obtain ⟨hlast, hdva⟩ := hprompt i hs hzero
      rw [hrd] at hzero
      have htaken := le_of_rdCntNext_eq_zero hk (by omega) hzero
      refine hend ⟨?_, hlast⟩
      simp only [reply, toMaster, hs, hrd, if_pos htaken]
      exact hdva
    rw [hrd] at hne
    obtain ⟨hnext, hlt⟩ := rdCntNext_of_ne_zero hk hne
    rw [hrd, hnext] at hnode
    by_cases hdva : (y.reply cfg c i).resp = .dva
    · have hmore : (y.node i).burstCntReg ≠ cfg.burstLen - 1 := fun hlast => hend ⟨hdva, hlast⟩
      have hinside : (y.node i).burstCntReg + 1 < cfg.burstLen := by omega
      rw [if_pos hdva, if_neg hmore, hwidth, Nat.mod_eq_of_lt hinside] at hnode
      rw [if_pos hdva, if_neg hmore] at hpend'
      exact .read T (k + 1) (by rw [hnode]) (by rw [hnode]; exact hinside) hslot (by omega) hlt
        (by rw [hnode]) (by rw [hnode]; exact hpend')
    · rw [if_neg hdva] at hnode hpend'
      exact .read T (k + 1) (by rw [hnode]; exact hs) (by rw [hnode]; exact hcnt) hslot (by omega)
        hlt (by rw [hnode]) (by rw [hnode]; exact hpend')

theorem NodeInv.next (h : NodeInv cfg y t i) {b : ℕ} (hb : 1 ≤ b) (hpow : cfg.burstLen = 2 ^ b)
    (hprompt : y.Prompt cfg) : NodeInv cfg (y.next cfg c) (t + 1) i := by
  have hlen : 2 ≤ cfg.burstLen := by
    rw [hpow]
    exact Nat.pow_le_pow_right Nat.two_pos hb
  cases h.stage with
  | idle hs hcnt hpend =>
    by_cases htakes : Takes cfg y c i
    · exact h.next_of_takes htakes hlen
    · exact h.next_of_idle hs hcnt hpend htakes
  | write T k hs hcnt hslot ht hk hwr hpend =>
    exact h.next_of_write hlen hs hcnt hslot ht hk hwr hpend
  | read T k hs hcnt hslot ht hk hrd hpend =>
    exact h.next_of_read hb hpow hprompt hs hcnt hslot ht hk hrd hpend

/-- A node shows signals in the first `burstLen` cycles of its slot only. -/
theorem NodeInv.slot_of_shown (h : NodeInv cfg y t i) (hlen : 1 ≤ cfg.burstLen)
    (hshown : y.shown cfg c i ≠ Master.zero) :
    ∃ T k, IsSlot cfg i T ∧ k < cfg.burstLen ∧ t = T + k := by
  cases h.stage with
  | idle hs _ _ =>
    simp only [shown, toSlave, hs] at hshown
    split at hshown
    · rename_i hand
      exact ⟨t, 0, (h.cpuSlot i).mp hand.1, hlen, rfl⟩
    · exact absurd rfl hshown
  | write T k hs _ hslot ht _ hwr _ =>
    simp only [shown, toSlave, hs, hwr] at hshown
    split at hshown
    · exact absurd rfl hshown
    · exact ⟨T, k + 1, hslot, by omega, ht⟩
  | read T k hs _ hslot ht _ hrd _ =>
    simp only [shown, toSlave, hs, hrd] at hshown
    split at hshown
    · exact absurd rfl hshown
    · exact ⟨T, k + 1, hslot, by omega, ht⟩

theorem shown_unique (hi : NodeInv cfg y t i) (hj : NodeInv cfg y t j) (hlen : 1 ≤ cfg.burstLen)
    (hshown : y.shown cfg c i ≠ Master.zero) (hshown' : y.shown cfg c j ≠ Master.zero) :
    i = j := by
  obtain ⟨T, k, hslot, hk, ht⟩ := hi.slot_of_shown hlen hshown
  obtain ⟨T', k', hslot', hk', ht'⟩ := hj.slot_of_shown hlen hshown'
  have hlong : cfg.burstLen < cfg.slotLen := by
    unfold Config.slotLen
    omega
  exact hslot.unique hslot' (hk.trans hlong) (hk'.trans hlong) (ht.symm.trans ht')

/-- A node shows a command only when it takes it. -/
theorem NodeInv.takes_of_cmd (h : NodeInv cfg y t i) (hlegal : Legal cfg y c)
    (hshort : cfg.burstLen ≤ 4) (hcmd : (y.shown cfg c i).cmd ≠ code .idle) :
    Takes cfg y c i ∧ y.shown cfg c i = c.master i := by
  have hzero : (Master.zero : Master addrWidth dataWidth).cmd = code .idle := rfl
  cases h.stage with
  | idle hs _ _ =>
    simp only [shown, toSlave, hs] at hcmd ⊢
    split at hcmd
    · rename_i hand
      exact ⟨takes_iff.mpr ⟨hs, hand⟩, if_pos hand⟩
    · exact absurd hzero hcmd
  | write T k hs _ _ _ _ hwr hpend =>
    simp only [shown, toSlave, hs, hwr] at hcmd
    split at hcmd
    · exact absurd hzero hcmd
    · rename_i hmore
      refine absurd (hlegal.single i (by simp [hpend]) ?_) hcmd
      have hnot : ¬ Takes cfg y c i := not_takes_of_stateReg (by simp [hs])
      have hne : k ≠ 4 := by omega
      rw [pendNext_of_write hnot hpend, reply_of_write hs, hwr]
      simp [hne]
  | read T k hs _ _ _ _ hrd hpend =>
    simp only [shown, toSlave, hs, hrd] at hcmd
    split at hcmd
    · exact absurd hzero hcmd
    · rename_i hmore
      refine absurd (hlegal.single i (by simp [hpend]) ?_) hcmd
      have hnot : ¬ Takes cfg y c i := not_takes_of_stateReg (by simp [hs])
      have hearly : ¬ k ≥ cfg.ctrlDelay + Config.numPipe := by
        unfold Config.numPipe
        omega
      have hresp : (y.reply cfg c i).resp = .null := by
        simp only [reply, toMaster, hs, hrd, if_neg hearly]
      rw [pendNext_of_read hnot hpend, hresp]
      simp

theorem shown_of_takes (h : Takes cfg y c i) : y.shown cfg c i = c.master i := by
  obtain ⟨hs, hand⟩ := takes_iff.mp h
  simp only [shown, toSlave, hs]
  exact if_pos hand

theorem shown_of_write (hs : (y.node i).stateReg = .sWrite)
    (hmore : (y.node i).wrCntReg < cfg.burstLen - 1) : y.shown cfg c i = c.master i := by
  simp only [shown, toSlave, hs]
  exact if_neg (Nat.not_le_of_lt hmore)

theorem dataAccept_of_takes (h : Takes cfg y c i) (hwr : (c.master i).cmd = code .wr) :
    (y.reply cfg c i).dataAccept = true := by
  obtain ⟨hs, hflag, -⟩ := takes_iff.mp h
  simp [reply, toMaster, hs, hflag, hwr, code]

/-- The words of an outstanding write are valid while they are accepted. -/
theorem NodeInv.dataValid_of_write (h : NodeInv cfg y t i) (hlegal : Legal cfg y c)
    (hs : (y.node i).stateReg = .sWrite) (hmore : (y.node i).wrCntReg < cfg.burstLen - 1) :
    (c.master i).dataValid = 1 := by
  cases h.stage with
  | idle hs' _ _ | read _ _ hs' _ _ _ _ _ _ => simp [hs] at hs'
  | write T k _ _ _ _ _ hwr hpend =>
    rw [hwr] at hmore
    rw [min_eq_left (by omega)] at hpend
    exact hlegal.words i (k + 1) hpend (by omega)

theorem NodeInv.stateReg_of_pend (h : NodeInv cfg y t i) (hpend : y.pend i = none) :
    (y.node i).stateReg = .sIdle := by
  cases h.stage with
  | idle hs _ _ => exact hs
  | write _ _ _ _ _ _ _ _ hpend' | read _ _ _ _ _ _ _ _ hpend' => simp [hpend] at hpend'

end Node

/-! ### Runs -/

section Runs

variable {cfg : Config} {cnt addrWidth dataWidth : Nat} {y₀ : Sys cnt addrWidth dataWidth}
  {tr : ℕ → Cycle cnt addrWidth dataWidth} {n t : ℕ} {i : Fin cnt}

theorem port_eq_merge (t : ℕ) :
    port cfg y₀ tr (t + 2) = Master.merge fun i => shownAt cfg y₀ tr t i := rfl

/-- The four states after a write was taken. -/
theorem writing (hlen : 2 ≤ cfg.burstLen)
    (htakes : (replyAt cfg y₀ tr t i).cmdAccept = true)
    (hwr : ((tr t).master i).cmd = code .wr) :
    ∀ k ≤ 4, ((sysAt cfg y₀ tr (t + (k + 1))).node i).stateReg = .sWrite ∧
      ((sysAt cfg y₀ tr (t + (k + 1))).node i).wrCntReg = k := by
  intro k
  induction k with
  | zero =>
    intro _
    have hnode : (sysAt cfg y₀ tr (t + 1)).node i = _ := node_of_takes_wr htakes hwr
    exact ⟨by rw [hnode], by rw [hnode]⟩
  | succ k ih =>
    intro hk
    obtain ⟨hs, hcnt⟩ := ih (Nat.le_of_succ_le hk)
    have hnode : (sysAt cfg y₀ tr (t + (k + 1) + 1)).node i = _ := node_of_write hs hcnt
    rw [if_neg (by omega), wrCntNext_of_lt (by omega) hlen] at hnode
    exact ⟨congrArg Node.stateReg hnode, congrArg Node.wrCntReg hnode⟩

/-- After the response to a write the node is idle until it takes a command. -/
theorem idle_after_write (hlen : 2 ≤ cfg.burstLen)
    (htakes : (replyAt cfg y₀ tr t i).cmdAccept = true)
    (hwr : ((tr t).master i).cmd = code .wr) {u : ℕ} (hu : t + 5 < u)
    (hnone : ∀ v, t + 5 < v → v < u → (replyAt cfg y₀ tr v i).cmdAccept = false) :
    ((sysAt cfg y₀ tr u).node i).stateReg = .sIdle := by
  induction u, hu using Nat.le_induction with
  | base =>
    obtain ⟨hs, hcnt⟩ := writing hlen htakes hwr 4 (le_refl 4)
    have hnode : (sysAt cfg y₀ tr (t + 5 + 1)).node i = _ := node_of_write hs hcnt
    exact congrArg Node.stateReg hnode
  | succ u hu ih =>
    have hs := ih fun v hv hlt => hnone v hv (Nat.lt_succ_of_lt hlt)
    have hnot := Bool.eq_false_iff.mp (hnone u hu (Nat.lt_succ_self u))
    exact (congrArg Node.stateReg (node_of_idle hs hnot)).trans hs

section Checked

variable (hinv : ∀ t ≤ n, ∀ i, NodeInv cfg (sysAt cfg y₀ tr t) t i)
  (hlegal : ∀ t < n, Legal cfg (sysAt cfg y₀ tr t) (tr t)) (hlen : 2 ≤ cfg.burstLen)

include hinv hlen in
theorem port_of_shown (ht : t < n) (hshown : shownAt cfg y₀ tr t i ≠ Master.zero) :
    port cfg y₀ tr (t + 2) = shownAt cfg y₀ tr t i := by
  rw [port_eq_merge]
  refine Master.merge_of_others_zero fun j hne => ?_
  by_contra hother
  have hone : 1 ≤ cfg.burstLen := Nat.le_of_succ_le hlen
  exact hne (shown_unique (hinv t ht.le j) (hinv t ht.le i) hone hother hshown)

include hinv hlen in
theorem port_of_takes (ht : t < n) (htakes : (replyAt cfg y₀ tr t i).cmdAccept = true) :
    port cfg y₀ tr (t + 2) = (tr t).master i := by
  have hshown : shownAt cfg y₀ tr t i = (tr t).master i := shown_of_takes htakes
  rw [← hshown]
  apply port_of_shown hinv hlen ht
  intro hzero
  rw [hshown] at hzero
  have hcmd := (takes_iff.mp htakes).2.2
  rw [hzero] at hcmd
  rcases hcmd with hrd | hwr
  · exact absurd (show (0 : BitVec 3) = code .rd from hrd) (by decide)
  · exact absurd (show (0 : BitVec 3) = code .wr from hwr) (by decide)

include hinv hlegal hlen in
/-- The words of a write that follow the first one. -/
theorem port_of_write (hn : t + cfg.burstLen ≤ n)
    (htakes : (replyAt cfg y₀ tr t i).cmdAccept = true)
    (hwr : ((tr t).master i).cmd = code .wr) (hshort : cfg.burstLen ≤ 4) {k : ℕ}
    (hk : k + 1 < cfg.burstLen) :
    port cfg y₀ tr (t + (k + 1) + 2) = (tr (t + (k + 1))).master i ∧
      ((tr (t + (k + 1))).master i).dataValid = 1 ∧
      ((tr (t + (k + 1))).master i).cmd = code .idle := by
  obtain ⟨hs, hcnt⟩ := writing hlen htakes hwr k (by omega)
  have hmore : ((sysAt cfg y₀ tr (t + (k + 1))).node i).wrCntReg < cfg.burstLen - 1 := by omega
  have hinside : t + (k + 1) < n := by omega
  have hnode := hinv (t + (k + 1)) hinside.le i
  have hvalid := hnode.dataValid_of_write (hlegal _ hinside) hs hmore
  have hshown : shownAt cfg y₀ tr (t + (k + 1)) i = (tr (t + (k + 1))).master i :=
    shown_of_write hs hmore
  refine ⟨?_, hvalid, ?_⟩
  · rw [← hshown]
    apply port_of_shown hinv hlen hinside
    rw [hshown]
    intro hzero
    rw [hzero] at hvalid
    exact absurd (show (0 : BitVec 1) = 1 from hvalid) (by decide)
  · by_contra hcmd
    have hcmd' : ((sysAt cfg y₀ tr (t + (k + 1))).shown cfg (tr (t + (k + 1))) i).cmd ≠
        code .idle := by
      rw [← shownAt, hshown]
      exact hcmd
    have htakes' := (hnode.takes_of_cmd (hlegal _ hinside) hshort hcmd').1
    exact not_takes_of_stateReg (by simp [hs]) htakes'

include hinv hlegal hlen in
theorem written (hn : t + cfg.burstLen ≤ n) (htakes : (replyAt cfg y₀ tr t i).cmdAccept = true)
    (hwr : ((tr t).master i).cmd = code .wr) (hshort : cfg.burstLen ≤ 4) :
    Written cfg y₀ tr t i := by
  have hreply : ∀ k ≤ 4, replyAt cfg y₀ tr (t + (k + 1)) i =
      ⟨if k = 4 then .dva else .null, 0, false, !decide (k ≥ cfg.burstLen - 1)⟩ := by
    intro k hk
    obtain ⟨hs, hcnt⟩ := writing hlen htakes hwr k hk
    have hreply : replyAt cfg y₀ tr (t + (k + 1)) i = _ := reply_of_write hs
    rw [hreply, hcnt]
  have hfirst := port_of_takes hinv hlen (by omega) htakes
  constructor
  · intro k hk
    cases k with
    | zero =>
      refine ⟨dataAccept_of_takes htakes hwr, hfirst, ?_⟩
      rw [add_zero, hfirst]
      exact (hlegal t (by omega)).first i hwr
    | succ k =>
      obtain ⟨hport, hvalid, -⟩ := port_of_write hinv hlegal hlen hn htakes hwr hshort hk
      refine ⟨?_, hport, by rw [hport]; exact hvalid⟩
      have hmore : ¬ k ≥ cfg.burstLen - 1 := by omega
      rw [hreply k (by omega)]
      simp [hmore]
  · intro k hk
    cases k with
    | zero =>
      rw [add_zero, hfirst]
      exact hwr
    | succ k =>
      obtain ⟨hport, -, hidle⟩ := port_of_write hinv hlegal hlen hn htakes hwr hshort hk
      rw [hport]
      exact hidle
  · refine ⟨5, by omega, ?_, ?_, ?_, ?_⟩
    · rw [hreply 4 (le_refl 4)]
      rfl
    · intro k hk
      cases k with
      | zero => exact reply_of_idle (takes_iff.mp htakes).1
      | succ k =>
        have hne : k ≠ 4 := by omega
        rw [hreply k (by omega)]
        exact if_neg hne
    · intro k hle hk
      cases k with
      | zero => omega
      | succ k =>
        have hdone : k ≥ cfg.burstLen - 1 := by omega
        rw [hreply k (by omega)]
        simp [hdone]
    · intro u hu hnone
      exact reply_of_idle (idle_after_write hlen htakes hwr hu hnone)

include hlegal in
/-- A command that is not accepted stays, and its node is idle. -/
theorem held_of_not_accepted (hcmd : ((tr t).master i).cmd ≠ code .idle) :
    ∀ d, t + (d + 1) ≤ n → (∀ v, t ≤ v → v ≤ t + d → (replyAt cfg y₀ tr v i).cmdAccept = false) →
      (sysAt cfg y₀ tr (t + (d + 1))).held i = some ((tr t).master i) ∧
        (sysAt cfg y₀ tr (t + (d + 1))).pend i = none := by
  intro d
  induction d with
  | zero =>
    intro hn hnone
    have hnot : (replyAt cfg y₀ tr t i).cmdAccept = false := hnone t le_rfl le_rfl
    have hfree : ¬ Takes cfg (sysAt cfg y₀ tr t) (tr t) i := Bool.eq_false_iff.mp hnot
    refine ⟨held_of_not_takes hfree hcmd, ?_⟩
    by_contra hstill
    by_cases hpend : (sysAt cfg y₀ tr t).pend i = none
    · exact hstill (pendNext_of_none hfree hpend)
    · exact hcmd ((hlegal t hn).single i hpend hstill)
  | succ d ih =>
    intro hn hnone
    obtain ⟨hheld, hpend⟩ := ih (by omega) fun v hv hle => hnone v hv (by omega)
    have hnot := hnone (t + (d + 1)) (by omega) le_rfl
    have hfree : ¬ Takes cfg (sysAt cfg y₀ tr (t + (d + 1))) (tr (t + (d + 1))) i :=
      Bool.eq_false_iff.mp hnot
    have hsame := (hlegal (t + (d + 1)) (by omega)).held i _ hheld
    rw [← hsame] at hcmd ⊢
    exact ⟨held_of_not_takes hfree hcmd, pendNext_of_none hfree hpend⟩

include hlegal in
theorem master_of_not_accepted (hcmd : ((tr t).master i).cmd ≠ code .idle) {u : ℕ} (htu : t ≤ u)
    (hun : u < n) (hnone : ∀ v, t ≤ v → v < u → (replyAt cfg y₀ tr v i).cmdAccept = false) :
    (tr u).master i = (tr t).master i := by
  rcases lt_or_eq_of_le htu with hlt | rfl
  · obtain ⟨d, rfl⟩ := Nat.exists_eq_add_of_lt hlt
    have hheld := (held_of_not_accepted hlegal hcmd d hun.le fun v hv hle =>
      hnone v hv (by omega)).1
    exact (hlegal _ hun).held i _ hheld
  · rfl

include hinv hlegal in
/-- In the next slot of its node at the latest a command is accepted. -/
theorem accepted_in_slot (hcmd : ((tr t).master i).cmd ≠ code .idle) {T : ℕ} (hlt : t < T)
    (hn : T < n) (hslot : IsSlot cfg i T) :
    ∃ u, t ≤ u ∧ u ≤ T ∧ (replyAt cfg y₀ tr u i).cmdAccept = true := by
  by_contra hnever
  have hnone : ∀ v, t ≤ v → v ≤ T → (replyAt cfg y₀ tr v i).cmdAccept = false := by
    intro v hv hle
    by_contra hacc
    exact hnever ⟨v, hv, hle, Bool.eq_true_of_not_eq_false hacc⟩
  obtain ⟨d, rfl⟩ := Nat.exists_eq_add_of_lt hlt
  have hpend := (held_of_not_accepted hlegal hcmd d hn.le fun v hv hle =>
    hnone v hv (by omega)).2
  have hsame := master_of_not_accepted hlegal hcmd hlt.le hn fun v hv hvT => hnone v hv hvT.le
  have hnode := hinv _ hn.le i
  have htakes : Takes cfg (sysAt cfg y₀ tr (t + d + 1)) (tr (t + d + 1)) i := by
    refine takes_iff.mpr ⟨hnode.stateReg_of_pend hpend, (hnode.cpuSlot i).mpr hslot, ?_⟩
    rw [← hsame] at hcmd
    rcases (hlegal _ hn).known i with hidle | hwr | hrd
    · exact absurd hidle hcmd
    · exact Or.inr hwr
    · exact Or.inl hrd
  have hnot := hnone (t + d + 1) hlt.le le_rfl
  exact Bool.eq_false_iff.mp hnot htakes

include hinv hlegal in
theorem exists_accepted (hn : t + cfg.period cnt < n)
    (hcmd : ((tr t).master i).cmd ≠ code .idle) :
    ∃ u, t ≤ u ∧ u ≤ t + cfg.period cnt ∧ (replyAt cfg y₀ tr u i).cmdAccept = true ∧
      (tr u).master i = (tr t).master i := by
  classical
  obtain ⟨T, hlt, hle, hslot⟩ := exists_slot cfg i t
  obtain ⟨u, htu, huT, hacc⟩ := accepted_in_slot hinv hlegal hcmd hlt (hle.trans_lt hn) hslot
  -- the first cycle of acceptance, up to which the command is held
  have hex : ∃ u, t ≤ u ∧ (replyAt cfg y₀ tr u i).cmdAccept = true := ⟨u, htu, hacc⟩
  have hfirst : Nat.find hex ≤ u := Nat.find_min' hex ⟨htu, hacc⟩
  obtain ⟨hge, hyes⟩ := Nat.find_spec hex
  refine ⟨Nat.find hex, hge, by omega, hyes, ?_⟩
  apply master_of_not_accepted hlegal hcmd hge (by omega)
  intro v hv hvlt
  exact Bool.eq_false_iff.mpr fun hv' => Nat.find_min hex hvlt ⟨hv, hv'⟩

end Checked

/-- **TDM arbitration is lossless** for bursts of two or four words, when the words of a read
    come in time. -/
theorem lossless_of_prompt {b : ℕ} (hb : 1 ≤ b) (hpow : cfg.burstLen = 2 ^ b)
    (hshort : cfg.burstLen ≤ 4) (hreset : y₀.IsReset)
    (hrun : ∀ t < n, Legal cfg (sysAt cfg y₀ tr t) (tr t) ∧ Prompt cfg (sysAt cfg y₀ tr t)) :
    Lossless cfg y₀ tr n := by
  have hlen : 2 ≤ cfg.burstLen := by
    rw [hpow]
    exact Nat.pow_le_pow_right Nat.two_pos hb
  have hinv : ∀ t ≤ n, ∀ i, NodeInv cfg (sysAt cfg y₀ tr t) t i := by
    intro t
    induction t with
    | zero =>
      intro _ i
      exact hreset.inv i
    | succ t ih =>
      intro ht i
      exact (ih (Nat.le_of_succ_le ht) i).next hb hpow (hrun t ht).2
  have hlegal : ∀ t < n, Legal cfg (sysAt cfg y₀ tr t) (tr t) := fun t ht => (hrun t ht).1
  constructor
  · intro t ht i j hi hj
    exact shown_unique (hinv t ht.le i) (hinv t ht.le j) (Nat.le_of_succ_le hlen) hi hj
  · intro t ht i hshown
    exact port_of_shown hinv hlen ht hshown
  · intro t _ hzero
    rw [port_eq_merge]
    exact Master.merge_of_zero hzero
  · intro t ht hcmd
    -- a command at the memory is shown by some node, and a node shows one only when it takes it
    obtain ⟨i, hi⟩ : ∃ i, shownAt cfg y₀ tr t i ≠ Master.zero := by
      by_contra hnone
      push Not at hnone
      rw [port_eq_merge, Master.merge_of_zero hnone] at hcmd
      exact hcmd rfl
    have hport := port_of_shown hinv hlen ht hi
    rw [hport] at hcmd ⊢
    exact ⟨i, (hinv t ht.le i).takes_of_cmd (hlegal t ht) hshort hcmd⟩
  · intro t i hn htakes hwr
    exact written hinv hlegal hlen hn htakes hwr hshort
  · intro t ht i htakes _
    exact port_of_takes hinv hlen ht htakes
  · intro t i hn hcmd
    exact exists_accepted hinv hlegal hn hcmd

end Runs

/-! ### Two runs -/

section Examples

variable {cnt addrWidth dataWidth : Nat}

instance (cfg : Config) (y : Sys cnt addrWidth dataWidth) (c : Cycle cnt addrWidth dataWidth) :
    Decidable (Legal cfg y c) :=
  decidable_of_iff
    (_ ∧ _ ∧ _ ∧ _ ∧ ∀ i, ∀ n < cfg.burstLen, y.pend i = some (.write n) →
      (c.master i).dataValid = 1)
    ⟨fun ⟨a, b, d, e, f⟩ => ⟨a, b, d, e, fun i n hp hn => f i n hn hp⟩,
      fun ⟨a, b, d, e, f⟩ => ⟨a, b, d, e, fun i n hn hp => f i n hp hn⟩⟩

instance (cfg : Config) (y : Sys cnt addrWidth dataWidth) : Decidable (Prompt cfg y) :=
  inferInstanceAs (Decidable (∀ _, _ → _ → _))

/-- The registers after reset. -/
def powerUp (cnt : Nat) : Sys cnt 8 8 where
  node := fun _ => ⟨0, 0, 0, 0, fun _ => false, .sIdle⟩
  mux := ⟨fun _ => Master.zero, Master.zero, ⟨.null, 0⟩⟩
  held := fun _ => none
  pend := fun _ => none

theorem isReset_powerUp (cnt : Nat) : (powerUp cnt).IsReset :=
  ⟨fun _ => rfl, fun _ => rfl, fun _ => rfl, fun _ => rfl, fun _ _ => rfl, fun _ => rfl,
    fun _ => rfl, rfl, fun _ => rfl, fun _ => rfl⟩

/-- Core 0 writes a burst of two words, and core 1 reads one at the same time. -/
def writeAndRead (t : ℕ) : Cycle 2 8 8 where
  master i :=
    ![⟨if t ≤ 1 then 1 else 0, 16, BitVec.ofNat 8 (t - 1), 1, 1⟩,
      ⟨if t ≤ 4 then 2 else 0, 24, 0, 0, 0⟩] i
  slave := ⟨if t = 7 ∨ t = 8 then .dva else .null, BitVec.ofNat 8 t⟩

theorem writeAndRead_lossless :
    (List.range 9).map (fun t => (port ⟨2, 0⟩ (powerUp 2) writeAndRead t).cmd) =
        [0, 0, 0, 1, 0, 0, 2, 0, 0] ∧
      Lossless ⟨2, 0⟩ (powerUp 2) writeAndRead 20 :=
  ⟨by decide +kernel, lossless_of_prompt (b := 1) le_rfl rfl (by decide) (isReset_powerUp 2)
    (by decide +kernel)⟩

/-- One core writes a burst of eight words. -/
def longWrite (t : ℕ) : Cycle 1 8 8 where
  master _ := ⟨if t ≤ 1 then 1 else 0, 16, BitVec.ofNat 8 (t - 1), 1, 1⟩
  slave := ⟨.null, 0⟩

/-- The core gets its response after six words, and the other two never come. -/
theorem longWrite_cut :
    (∀ t < 20, Legal ⟨8, 0⟩ (sysAt ⟨8, 0⟩ (powerUp 1) longWrite t) (longWrite t)) ∧
      (replyAt ⟨8, 0⟩ (powerUp 1) longWrite 1 0).cmdAccept = true ∧
      (replyAt ⟨8, 0⟩ (powerUp 1) longWrite 6 0).resp = .dva ∧
      (List.range 20).filter (fun t => (port ⟨8, 0⟩ (powerUp 1) longWrite t).dataValid == 1) =
        [3, 4, 5, 6, 7, 8] ∧
      ¬ Written ⟨8, 0⟩ (powerUp 1) longWrite 1 0 := by
  refine ⟨by decide +kernel, by decide +kernel, by decide +kernel, by decide +kernel, fun h => ?_⟩
  exact absurd (h.words 6 (by decide)).2.2 (by decide +kernel)

end Examples

end Sys

end Patmos.NodeTdmArbiter
