import Patmos.TwoWayMem

/-!
# The way of a request

A request that is sent arrives at its node, and nothing else arrives, unless a request is sent in
cycle 0 or by a route that leaks.  A read that was sent is answered after the length of the longest
route and one cycle, by the way back.
-/

namespace Patmos.TwoWay

open TdmRoutes S4Noc Clocked

section Requests

variable {n : ℕ} (cfg : Config n) (reqs : ℕ → Node n → Chan Rw)

/-- Node `i` issues a request for node `j` in cycle `t`. -/
def Issues (t : ℕ) (i j : Node n) : Prop :=
  (reqs t i).valid = true ∧ cfg.upperAddr (reqs t i).data.address = index j

/-- Every request is for a node. -/
def ForNodes : Prop := ∀ t i, (reqs t i).valid = true → ∃ j, Issues cfg reqs t i j

/-- No request is for a node whose route leaks, or in cycle 0 for the node of the first route. -/
def Safe : Prop :=
  ∀ t i r, r ∈ routes n → Issues cfg reqs t i (i + r.total (links n)) →
    ¬ Leaks (links n) (routes n) .n (len n) r ∧ (t = 0 → r.start ≠ 0)

end Requests

section Way

variable {n : ℕ} {cfg : Config n} {s₀ : Sys n} {reqs : ℕ → Node n → Chan Rw} {r : Route Dir}
  {t : ℕ} {i j v : Node n}

/-! ### Sending -/

theorem isLocal_iff (h : Issues cfg reqs t i j) : cfg.isLocal i (reqs t i) = true ↔ i = j := by
  have : NeZero n := ⟨by have := cfg.two_le; omega⟩
  rw [Config.isLocal, beq_iff_eq, h.2, index_injective.eq_iff]
  exact eq_comm

theorem exists_route_of_ne (cfg : Config n) (h : i ≠ j) :
    ∃ r ∈ routes n, i + r.total (links n) = j := by
  obtain ⟨r, hr, htotal, -⟩ := exists_route cfg.two_le cfg.le_ten (sub_ne_zero.mpr h.symm)
  exact ⟨r, hr, by rw [htotal, add_sub_cancel]⟩

variable (hnodes : ForNodes cfg reqs)

include hnodes

/-- A request that was sampled is one for another node. -/
theorem exists_issues_of_notProcessed (hreset : s₀.IsReset)
    (h : (niAt cfg s₀ reqs t i).notProcessed = true) :
    ∃ t' < t, ∃ r ∈ routes n, Issues cfg reqs t' i (i + r.total (links n)) ∧
      (niAt cfg s₀ reqs t i).inReg = (reqs t' i).data := by
  induction t with
  | zero =>
    have hzero : (niAt cfg s₀ reqs 0 i).notProcessed = false := (hreset.nis i).notProcessed
    rw [hzero] at h
    cases h
  | succ t ih =>
    have hany : ((cfg.remote i (niAt cfg s₀ reqs t i) (reqs t i)).any fun q =>
        !cfg.transmits i (niAt cfg s₀ reqs t i) (reqs t i) q) = true := h
    have hreg : (niAt cfg s₀ reqs (t + 1) i).inReg =
        if (reqs t i).valid && !cfg.isLocal i (reqs t i) then (reqs t i).data
        else (niAt cfg s₀ reqs t i).inReg := rfl
    by_cases hvalid : (reqs t i).valid = true
    · obtain ⟨j, hj⟩ := hnodes t i hvalid
      by_cases hlocal : cfg.isLocal i (reqs t i) = true
      · rw [Config.remote, if_pos hvalid, if_pos hlocal] at hany
        cases hany
      · obtain ⟨r, hr, rfl⟩ := exists_route_of_ne cfg (mt (isLocal_iff hj).mpr hlocal)
        refine ⟨t, Nat.lt_succ_self t, r, hr, hj, ?_⟩
        rw [hreg, hvalid, Bool.eq_false_iff.mpr hlocal]
        rfl
    · rw [Config.remote, if_neg hvalid] at hany
      by_cases hold : (niAt cfg s₀ reqs t i).notProcessed = true
      · obtain ⟨t', ht', r, hr, hissues, heq⟩ := ih hold
        refine ⟨t', Nat.lt_succ_of_lt ht', r, hr, hissues, ?_⟩
        rw [hreg, Bool.eq_false_iff.mpr hvalid, Bool.false_and, if_neg Bool.false_ne_true, heq]
      · rw [if_neg hold] at hany
        cases hany

/-- What is sent is sent in the slot of a route for which there was a request. -/
theorem exists_issues_of_writeOutAt (hreset : s₀.IsReset)
    (h : (writeOutAt cfg s₀ reqs t i).valid = true) :
    ∃ t' ≤ t, ∃ r ∈ routes n, Issues cfg reqs t' i (i + r.total (links n)) ∧
      (t - 1) % len n = r.start := by
  have hout : (cfg.writeOut i (niAt cfg s₀ reqs t i) (reqs t i)).valid = true := h
  rw [Config.writeOut] at hout
  cases hremote : cfg.remote i (niAt cfg s₀ reqs t i) (reqs t i) with
  | none =>
    rw [hremote] at hout
    cases hout
  | some q =>
    rw [hremote] at hout
    have hslot : timeSlotToNode n (index i) (cfg.upperAddr
        (if (niAt cfg s₀ reqs t i).notProcessed then (niAt cfg s₀ reqs t i).inReg.address
          else (reqs t i).data.address)) = (t - 1) % len n := by
      rw [← regDelay_niAt hreset t i]
      exact beq_iff_eq.mp (Bool.and_eq_true_iff.mp hout).1
    -- the slot is that of the sampled request, if there is one
    by_cases hsampled : (niAt cfg s₀ reqs t i).notProcessed = true
    · obtain ⟨t', ht', r, hr, hissues, heq⟩ :=
        exists_issues_of_notProcessed hnodes hreset hsampled
      refine ⟨t', ht'.le, r, hr, hissues, ?_⟩
      rw [← hslot, if_pos hsampled, heq, hissues.2, timeSlotToNode_eq cfg.two_le cfg.le_ten i hr]
    · rw [Config.remote, if_neg hsampled] at hremote
      by_cases hvalid : (reqs t i).valid = true
      · obtain ⟨j, hj⟩ := hnodes t i hvalid
        by_cases hlocal : cfg.isLocal i (reqs t i) = true
        · rw [if_pos hvalid, if_pos hlocal] at hremote
          cases hremote
        · obtain ⟨r, hr, rfl⟩ := exists_route_of_ne cfg (mt (isLocal_iff hj).mpr hlocal)
          refine ⟨t, le_rfl, r, hr, hj, ?_⟩
          rw [← hslot, if_neg hsampled, hj.2, timeSlotToNode_eq cfg.two_le cfg.le_ten i hr]
      · rw [if_neg hvalid] at hremote
        cases hremote

/-! ### Arriving -/

section Safe

variable (cfg s₀ reqs) in
/-- A run from reset with requests for nodes whose routes do not leak. -/
structure Legal : Prop where
  nodes : ForNodes cfg reqs
  reset : s₀.IsReset
  safe : Safe cfg reqs

variable (hleg : Legal cfg s₀ reqs)

omit hnodes
include hleg

/-- Nothing is sent in the slot of a route that leaks, -/
theorem not_leaks_of_writeOutAt (h : (writeOutAt cfg s₀ reqs t i).valid = true)
    (hr : r ∈ routes n) (hslot : (t - 1) % len n = r.start) :
    ¬ Leaks (links n) (routes n) .n (len n) r := by
  obtain ⟨t', -, r', hr', hissues, hslot'⟩ := exists_issues_of_writeOutAt hleg.nodes hleg.reset h
  obtain rfl := eq_of_start_eq cfg.le_ten hr' hr (hslot'.symm.trans hslot)
  exact (hleg.safe t' i _ hr hissues).1

/-- and nothing in cycle 0. -/
theorem writeOutAt_zero (v : Node n) : (writeOutAt cfg s₀ reqs 0 v).valid = false := by
  by_contra h
  obtain ⟨t', ht', r, hr, hissues, hslot⟩ :=
    exists_issues_of_writeOutAt hleg.nodes hleg.reset (Bool.not_eq_false _ ▸ h)
  refine (hleg.safe t' v r hr hissues).2 (Nat.le_zero.mp ht') ?_
  rw [← hslot, Nat.zero_sub, Nat.zero_mod]

theorem writeInAt_of_sent (hr : r ∈ routes n) (ht : 1 ≤ t) (hslot : (t - 1) % len n = r.start)
    (i : Node n) :
    writeInAt cfg s₀ reqs (t + r.path.length + 1) (i + r.total (links n)) =
      writeOutAt cfg s₀ reqs t i := by
  have hslot' : (0 + (t - 1)) % len n = r.start := by rw [zero_add, hslot]
  exact (runs_writeNet hleg.reset (writeOutAt_zero hleg)).delivered cfg.implements hr ht hslot' i

/-- What arrives was sent by a route. -/
theorem exists_sent_of_writeInAt (h : (writeInAt cfg s₀ reqs t j).valid = true) :
    ∃ r ∈ routes n, ∃ t₀, 1 ≤ t₀ ∧ t = t₀ + r.path.length + 1 ∧ (t₀ - 1) % len n = r.start ∧
      writeInAt cfg s₀ reqs t j = writeOutAt cfg s₀ reqs t₀ (j - r.total (links n)) := by
  have hrun := runs_writeNet hleg.reset (writeOutAt_zero hleg)
  rcases eq_zero_or_pos t with rfl | ht
  · exact absurd h (Bool.eq_false_iff.mp (hleg.reset.writeNet.valid j LOCAL))
  obtain ⟨s, rfl⟩ := Nat.exists_eq_add_of_le' ht
  rcases eq_zero_or_pos s with rfl | hs
  · exact absurd h (hrun.quiet j LOCAL)
  rcases hrun.only cfg.implements hs h with
    ⟨r, hr, t₀, ht₀, rfl, hslot, hval⟩ | ⟨r, hr, hleak, t₀, v₀, ht₀, hslot, hval⟩
  · rw [zero_add] at hslot
    exact ⟨r, hr, t₀, ht₀, rfl, hslot, hval⟩
  · rw [zero_add] at hslot
    have hsent : (writeOutAt cfg s₀ reqs t₀ v₀).valid = true := by
      rw [← hval]
      exact h
    exact absurd hleak (not_leaks_of_writeOutAt hleg hsent hr hslot)

/-! ### Replies -/

omit hleg in
/-- A reply is sent in the slot of its request. -/
theorem reply_slot (cfg : Config n) (ht : 1 ≤ t) :
    (timeShift n + (t + clockOffSet n + 1 - 1)) % len n = (t - 1) % len n := by
  have hlt := clockOffSet_lt cfg.two_le cfg.le_ten
  have hsum : timeShift n + (t + clockOffSet n + 1 - 1) = t - 1 + len n := by
    rw [timeShift]
    omega
  rw [hsum, Nat.add_mod_right]

omit hleg in
/-- The slot of an arrival, as the FIFO counts it. -/
theorem arrival_slot (cfg : Config n) (hr : r ∈ routes n) (ht : 1 ≤ t)
    (hslot : (t - 1) % len n = r.start) :
    (len n - 2 + (t + r.path.length + 1)) % len n = arrival r := by
  have hlt := clockOffSet_lt cfg.two_le cfg.le_ten
  have hle := length_le_clockOffSet cfg.two_le cfg.le_ten r hr
  have hsum : len n - 2 + (t + r.path.length + 1) = t - 1 + r.path.length + len n := by omega
  rw [hsum, Nat.add_mod_right, Nat.add_mod, hslot, Nat.add_mod_mod, ← arrival,
    Nat.mod_eq_of_lt (arrival_lt hr)]

/-- A reply that is sent answers a read that was sent in the same slot. -/
theorem exists_sent_of_readBackOutAt (h : (readBackOutAt cfg s₀ reqs t j).valid = true) :
    ∃ r ∈ routes n, ∃ t₀, 1 ≤ t₀ ∧ t = t₀ + clockOffSet n + 1 ∧ (t₀ - 1) % len n = r.start ∧
      (writeOutAt cfg s₀ reqs t₀ (j - r.total (links n))).valid = true ∧
      (writeOutAt cfg s₀ reqs t₀ (j - r.total (links n))).data.rw = false := by
  obtain ⟨r, hr, a, rfl, hslot, harrived, hread⟩ := exists_read_of_readBackOutAt hleg.reset h
  obtain ⟨r', hr', t₀, ht₀, rfl, hslot', heq⟩ :=
    exists_sent_of_writeInAt hleg harrived
  have hlt := clockOffSet_lt cfg.two_le cfg.le_ten
  have hle := length_le_clockOffSet cfg.two_le cfg.le_ten r hr
  -- it has arrived in the arrival slot of the route in whose slot it is answered
  have hsame : r = r' := by
    refine eq_of_arrival_eq cfg.le_ten hr hr' ?_
    have hsum : timeShift n + (t₀ + r'.path.length + 1 + 1 + waits n r - 1) + r.path.length =
        t₀ - 1 + r'.path.length + len n := by
      rw [timeShift, waits]
      omega
    calc arrival r = (r.start + r.path.length) % len n := (Nat.mod_eq_of_lt (arrival_lt hr)).symm
      _ = (t₀ - 1 + r'.path.length + len n) % len n := by rw [← hslot, Nat.mod_add_mod, hsum]
      _ = (r'.start + r'.path.length) % len n := by
        rw [Nat.add_mod_right, ← hslot', Nat.mod_add_mod]
      _ = arrival r' := Nat.mod_eq_of_lt (arrival_lt hr')
  subst hsame
  rw [heq] at harrived hread
  refine ⟨r, hr, t₀, ht₀, ?_, hslot', harrived, hread⟩
  rw [waits]
  omega

/-- The time from the sending of a read by a route to its answer. -/
def roundTrip (n : ℕ) (r : Route Dir) : ℕ := clockOffSet n + 1 + (r.path.length + 1)

/-- A read that is sent is answered with the word that is there when it has arrived. -/
theorem readBackInAt_of_sent (hr : r ∈ routes n) (ht : 1 ≤ t) (hslot : (t - 1) % len n = r.start)
    {i : Node n} (hvalid : (writeOutAt cfg s₀ reqs t i).valid = true)
    (hread : (writeOutAt cfg s₀ reqs t i).data.rw = false) :
    readBackInAt cfg s₀ reqs (t + roundTrip n r) i =
      ⟨memAt cfg s₀ reqs (t + r.path.length + 1 + 1) (i + r.total (links n))
        (writeOutAt cfg s₀ reqs t i).data.address, true⟩ := by
  have hle := length_le_clockOffSet cfg.two_le cfg.le_ten r hr
  have hwait : t + r.path.length + 1 + waits n r = t + clockOffSet n + 1 - 1 := by
    rw [waits]
    omega
  have hin := writeInAt_of_sent hleg hr ht hslot i
  have harrives : Arrives n ((len n - 2 + (t + r.path.length + 1)) % len n) := by
    rw [arrival_slot cfg hr ht hslot]
    exact List.mem_map_of_mem hr
  have hreply := readBackOutAt_of_read hleg.reset hr harrives
    (by rw [hwait, reply_slot cfg ht, hslot]) (hin ▸ hvalid) (hin ▸ hread)
  rw [hin] at hreply
  have hcycle : t + r.path.length + 1 + 1 + waits n r = t + clockOffSet n + 1 := by omega
  rw [hcycle] at hreply
  -- the way back
  have hback : r.back (links n) ∈ (routes n).map (Route.back (links n)) := List.mem_map_of_mem hr
  have hslot' : (timeShift n + (t + clockOffSet n + 1 - 1)) % len n = (r.back (links n)).start :=
    (reply_slot cfg ht).trans hslot
  have hdelivered := (runs_readBackNet cfg reqs hleg.reset).delivered cfg.implementsBack hback
    (Nat.le_add_left 1 _) hslot' (i + r.total (links n))
  rw [hreply, Route.total_back, add_neg_cancel_right] at hdelivered
  have hlength : t + roundTrip n r =
      t + clockOffSet n + 1 + (r.back (links n)).path.length + 1 := by
    rw [roundTrip, Route.back, List.length_map]
    omega
  rw [hlength]
  exact hdelivered

/-- An answer is for a read that was sent. -/
theorem exists_sent_of_readBackInAt (h : (readBackInAt cfg s₀ reqs t i).valid = true) :
    ∃ r ∈ routes n, ∃ t₀, 1 ≤ t₀ ∧ t = t₀ + roundTrip n r ∧ (t₀ - 1) % len n = r.start ∧
      (writeOutAt cfg s₀ reqs t₀ i).valid = true ∧
      (writeOutAt cfg s₀ reqs t₀ i).data.rw = false := by
  have hrun := runs_readBackNet cfg reqs hleg.reset
  -- every reply is sent in the slot of its route, which is none that leaks
  have hreply : ∀ {u j} {r : Route Dir}, r ∈ routes n →
      (readBackOutAt cfg s₀ reqs u j).valid = true →
      (timeShift n + (u - 1)) % len n = r.start →
      ∃ t₀, 1 ≤ t₀ ∧ u = t₀ + clockOffSet n + 1 ∧ (t₀ - 1) % len n = r.start ∧
        (writeOutAt cfg s₀ reqs t₀ (j - r.total (links n))).valid = true ∧
        (writeOutAt cfg s₀ reqs t₀ (j - r.total (links n))).data.rw = false := by
    intro u j r hr hvalid hslot
    obtain ⟨r', hr', t₀, ht₀, rfl, hslot', hsent, hread⟩ :=
      exists_sent_of_readBackOutAt hleg hvalid
    rw [reply_slot cfg ht₀] at hslot
    obtain rfl := eq_of_start_eq cfg.le_ten hr' hr (hslot'.symm.trans hslot)
    exact ⟨t₀, ht₀, rfl, hslot, hsent, hread⟩
  rcases eq_zero_or_pos t with rfl | ht
  · exact absurd h (Bool.eq_false_iff.mp (hleg.reset.readBackNet.valid i LOCAL))
  obtain ⟨s, rfl⟩ := Nat.exists_eq_add_of_le' ht
  rcases eq_zero_or_pos s with rfl | hs
  · exact absurd h (hrun.quiet i LOCAL)
  rcases hrun.only cfg.implementsBack hs h with
    ⟨r', hr', u, hu, hsum, hslot, hval⟩ | ⟨r', hr', hleak, u, v₀, hu, hslot, hval⟩
  · obtain ⟨r, hr, rfl⟩ := List.mem_map.mp hr'
    have hout : readBackInAt cfg s₀ reqs (s + 1) i =
        readBackOutAt cfg s₀ reqs u (i + r.total (links n)) := by
      rw [Route.total_back, sub_neg_eq_add] at hval
      exact hval
    rw [hout] at h
    obtain ⟨t₀, ht₀, rfl, hslot', hsent, hread⟩ := hreply hr h hslot
    rw [add_sub_cancel_right] at hsent hread
    refine ⟨r, hr, t₀, ht₀, ?_, hslot', hsent, hread⟩
    rw [Route.back, List.length_map] at hsum
    rw [roundTrip]
    omega
  · obtain ⟨r, hr, rfl⟩ := List.mem_map.mp hr'
    have hsent : (readBackOutAt cfg s₀ reqs u v₀).valid = true := by
      rw [← hval]
      exact h
    obtain ⟨t₀, -, -, hslot', hvalid, -⟩ := hreply hr hsent hslot
    have hnot := not_leaks_of_writeOutAt hleg hvalid hr hslot'
    exact absurd (leaks_back.mp hleak) hnot

end Safe

end Way

end Patmos.TwoWay
