import Patmos.TwoWayAccess

/-!
# Accesses of the two-way memory

A node that waits for nothing is idle.  A request of an idle node is answered, by one pulse, and
then the node is idle again; in between the node issues no request, for it has seen no answer.  So
every request and every answer belong to each other, and with the way of the requests all accesses
are those of one memory for each node.
-/

namespace Patmos.TwoWay

open TdmRoutes S4Noc Clocked

/-! ### What is promised -/

section Promise

variable {n : ℕ} (cfg : Config n) (s₀ : Sys n) (reqs : ℕ → Node n → Chan Rw)

/-- A node issues its next request only after the one before was answered. -/
def OneAtATime : Prop :=
  ∀ i t t', t < t' → (reqs t i).valid = true → (reqs t' i).valid = true →
    ∃ u, t < u ∧ u < t' ∧ (answerAt cfg s₀ reqs u i).valid = true

/-- The address of a request in its block. -/
def blockAddr (t : ℕ) (i : Node n) : ℕ := cfg.lowerAddr (reqs t i).data.address

/-- Every request arrives, and is answered, once: the request that node `i` issues in cycle `t`
    arrives in cycle `arr t i` and is answered in cycle `ans t i`. -/
structure Correct (arr ans : ℕ → Node n → ℕ) : Prop where
  arrives : ∀ t i j, i ≠ j → Issues cfg reqs t i j → t < arr t i ∧
    writeInAt cfg s₀ reqs (arr t i) j =
      ⟨⟨(reqs t i).data.rw, blockAddr cfg reqs t i, (reqs t i).data.data⟩, true⟩
  /-- Nothing else arrives. -/
  once : ∀ u j, (writeInAt cfg s₀ reqs u j).valid = true →
    ∃ t i, i ≠ j ∧ Issues cfg reqs t i j ∧ arr t i = u ∧
      ∀ t' i', i' ≠ j → Issues cfg reqs t' i' j → arr t' i' = u → t' = t ∧ i' = i
  answers : ∀ t i, (reqs t i).valid = true →
    t < ans t i ∧ (answerAt cfg s₀ reqs (ans t i) i).valid = true
  /-- No answer is seen that was not asked for. -/
  asked : ∀ u i, (answerAt cfg s₀ reqs u i).valid = true →
    ∃ t, (reqs t i).valid = true ∧ ans t i = u ∧
      ∀ t', (reqs t' i).valid = true → ans t' i = u → t' = t
  /-- A read is answered with the word that is there when it has arrived. -/
  reads : ∀ t i j, i ≠ j → Issues cfg reqs t i j → (reqs t i).data.rw = false →
    arr t i < ans t i ∧ (answerAt cfg s₀ reqs (ans t i) i).data =
      memAt cfg s₀ reqs (arr t i + 1) j (blockAddr cfg reqs t i)
  localReads : ∀ t i, Issues cfg reqs t i i → (reqs t i).data.rw = false →
    (answerAt cfg s₀ reqs (ans t i) i).data =
      memAt cfg s₀ reqs (ans t i) i (blockAddr cfg reqs t i)
  /-- A write changes its word, -/
  written : ∀ t i j, i ≠ j → Issues cfg reqs t i j → (reqs t i).data.rw = true →
    memAt cfg s₀ reqs (arr t i + 1) j (blockAddr cfg reqs t i) = (reqs t i).data.data
  /-- and nothing else changes a word. -/
  unchanged : ∀ u j a, memAt cfg s₀ reqs (u + 1) j a ≠ memAt cfg s₀ reqs u j a →
    (∃ t i, i ≠ j ∧ Issues cfg reqs t i j ∧ (reqs t i).data.rw = true ∧ arr t i = u ∧
      blockAddr cfg reqs t i = a) ∨
    (Issues cfg reqs u j j ∧ (reqs u j).data.rw = true ∧ blockAddr cfg reqs u j = a)

end Promise

/-! ### Idle nodes -/

section Idle

variable {n : ℕ} (cfg : Config n) (s₀ : Sys n) (reqs : ℕ → Node n → Chan Rw)

/-- All reads that node `i` sent before cycle `t` were answered before. -/
def Answered (t : ℕ) (i : Node n) : Prop :=
  ∀ t₀ < t, ∀ r ∈ routes n, (t₀ - 1) % len n = r.start →
    (writeOutAt cfg s₀ reqs t₀ i).valid = true → (writeOutAt cfg s₀ reqs t₀ i).data.rw = false →
    t₀ + roundTrip n r < t

/-- The node has seen no answer after cycle `t` and before cycle `u`. -/
def Unanswered (t u : ℕ) (i : Node n) : Prop :=
  ∀ w, t < w → w < u → (answerAt cfg s₀ reqs w i).valid = false

structure Idle (t : ℕ) (i : Node n) : Prop where
  notProcessed : (niAt cfg s₀ reqs t i).notProcessed = false
  transmitted : (niAt cfg s₀ reqs t i).transmitted = false
  delayValid : (niAt cfg s₀ reqs t i).delayValid = false
  answered : Answered cfg s₀ reqs t i

/-- The request `q` for the node of route `r`, issued in cycle `t`, waits in cycle `u`. -/
structure Pending (t u : ℕ) (i : Node n) (q : Rw) (r : Route Dir) : Prop where
  remote : cfg.remote i (niAt cfg s₀ reqs u i) (reqs u i) = some q
  valid : cfg.valid i (niAt cfg s₀ reqs u i) (reqs u i) = decide ((u - 1) % len n = r.start)
  transmitted : (niAt cfg s₀ reqs u i).transmitted = false
  delayValid : (niAt cfg s₀ reqs u i).delayValid = false
  answered : Answered cfg s₀ reqs u i
  since : Unanswered cfg s₀ reqs t u i

/-- The read that was issued in cycle `t` and sent in cycle `T` is on its way in cycle `u`. -/
structure Flying (t T u : ℕ) (i : Node n) : Prop where
  notProcessed : (niAt cfg s₀ reqs u i).notProcessed = false
  transmitted : (niAt cfg s₀ reqs u i).transmitted = true
  delayValid : (niAt cfg s₀ reqs u i).delayValid = false
  answered : ∀ t₀ < u, t₀ ≠ T → ∀ r ∈ routes n, (t₀ - 1) % len n = r.start →
    (writeOutAt cfg s₀ reqs t₀ i).valid = true → (writeOutAt cfg s₀ reqs t₀ i).data.rw = false →
    t₀ + roundTrip n r < u
  since : Unanswered cfg s₀ reqs t u i

/-- The request that was issued in cycle `t` is acknowledged in cycle `u`. -/
structure Acked (t u : ℕ) (i : Node n) : Prop where
  notProcessed : (niAt cfg s₀ reqs u i).notProcessed = false
  transmitted : (niAt cfg s₀ reqs u i).transmitted = false
  delayValid : (niAt cfg s₀ reqs u i).delayValid = true
  answered : Answered cfg s₀ reqs u i
  since : Unanswered cfg s₀ reqs t u i

end Idle

section Steps

variable {n : ℕ} {cfg : Config n} {s₀ : Sys n} {reqs : ℕ → Node n → Chan Rw} {r : Route Dir}
  {q : Rw} {t T u : ℕ} {i j : Node n}

/-! ### The registers after a cycle -/

theorem remote_of_not_valid (hvalid : (reqs t i).valid = false)
    (h : (niAt cfg s₀ reqs t i).notProcessed = false) :
    cfg.remote i (niAt cfg s₀ reqs t i) (reqs t i) = none := by
  rw [Config.remote, hvalid, h, if_neg Bool.false_ne_true, if_neg Bool.false_ne_true]

theorem remote_of_local (hissues : Issues cfg reqs t i i) :
    cfg.remote i (niAt cfg s₀ reqs t i) (reqs t i) = none := by
  rw [Config.remote, if_pos hissues.1, if_pos ((isLocal_iff hissues).mpr rfl)]

theorem localReq_of_not_valid (hvalid : (reqs t i).valid = false) :
    cfg.localReq i (reqs t i) = false := by
  rw [Config.localReq, hvalid, Bool.false_and]

theorem delayValid_succ (t : ℕ) (i : Node n) : (niAt cfg s₀ reqs (t + 1) i).delayValid =
    (cfg.localReq i (reqs t i) || (cfg.remote i (niAt cfg s₀ reqs t i) (reqs t i)).any fun q =>
      q.rw && cfg.transmits i (niAt cfg s₀ reqs t i) (reqs t i) q) := rfl

theorem transmitted_succ (t : ℕ) (i : Node n) : (niAt cfg s₀ reqs (t + 1) i).transmitted =
    (!(readBackInAt cfg s₀ reqs t i).valid && ((niAt cfg s₀ reqs t i).transmitted ||
      (cfg.remote i (niAt cfg s₀ reqs t i) (reqs t i)).any fun q =>
        !q.rw && cfg.transmits i (niAt cfg s₀ reqs t i) (reqs t i) q)) := rfl

theorem notProcessed_succ (t : ℕ) (i : Node n) : (niAt cfg s₀ reqs (t + 1) i).notProcessed =
    (cfg.remote i (niAt cfg s₀ reqs t i) (reqs t i)).any fun q =>
      !cfg.transmits i (niAt cfg s₀ reqs t i) (reqs t i) q := rfl

theorem writeOutAt_of_none (h : cfg.remote i (niAt cfg s₀ reqs t i) (reqs t i) = none) :
    (writeOutAt cfg s₀ reqs t i).valid = false := by
  rw [writeOutAt, Config.writeOut, h]
  rfl

theorem writeOutAt_of_some (hsize : 2 * (n * n) ≤ cfg.size)
    (h : cfg.remote i (niAt cfg s₀ reqs t i) (reqs t i) = some q) :
    writeOutAt cfg s₀ reqs t i = ⟨⟨q.rw, cfg.lowerAddr q.address, q.data⟩,
      cfg.transmits i (niAt cfg s₀ reqs t i) (reqs t i) q⟩ := by
  rw [writeOutAt, Config.writeOut, h]
  exact cfg.wire_lowerAddr hsize _ _ _ _

theorem answerAt_valid (t : ℕ) (i : Node n) : (answerAt cfg s₀ reqs t i).valid =
    ((readBackInAt cfg s₀ reqs t i).valid || (niAt cfg s₀ reqs t i).delayValid) := by
  rw [answerAt, Config.memReqOut]
  cases (readBackInAt cfg s₀ reqs t i).valid <;> rfl

theorem OneAtATime.not_valid (h : OneAtATime cfg s₀ reqs) (hvalid : (reqs t i).valid = true)
    (htu : t < u) (hsince : Unanswered cfg s₀ reqs t u i) : (reqs u i).valid = false := by
  by_contra hu
  obtain ⟨w, htw, hwu, hpulse⟩ := h i t u htu hvalid (Bool.not_eq_false _ ▸ hu)
  rw [hsince w htw hwu] at hpulse
  cases hpulse

theorem Unanswered.succ (hsince : Unanswered cfg s₀ reqs t u i)
    (hu : (answerAt cfg s₀ reqs u i).valid = false) : Unanswered cfg s₀ reqs t (u + 1) i := by
  intro w htw hwu
  rcases lt_or_eq_of_le (Nat.le_of_lt_succ hwu) with hlt | rfl
  · exact hsince w htw hlt
  · exact hu

theorem OneAtATime.writeOutAt (h : OneAtATime cfg s₀ reqs) (hvalid : (reqs t i).valid = true)
    (htu : t < u) (hsince : Unanswered cfg s₀ reqs t u i)
    (hprocessed : (niAt cfg s₀ reqs u i).notProcessed = false) :
    (writeOutAt cfg s₀ reqs u i).valid = false :=
  writeOutAt_of_none (remote_of_not_valid (h.not_valid hvalid htu hsince) hprocessed)

/-- If no read is sent, the reads that were sent stay answered. -/
theorem Answered.succ (h : Answered cfg s₀ reqs t i)
    (hnone : (writeOutAt cfg s₀ reqs t i).valid = false ∨
      (writeOutAt cfg s₀ reqs t i).data.rw = true) : Answered cfg s₀ reqs (t + 1) i := by
  intro t₀ ht₀ r hr hslot hvalid hread
  rcases lt_or_eq_of_le (Nat.le_of_lt_succ ht₀) with hlt | rfl
  · exact Nat.lt_succ_of_lt (h t₀ hlt r hr hslot hvalid hread)
  · rcases hnone with hnone | hnone
    · rw [hnone] at hvalid
      cases hvalid
    · rw [hnone] at hread
      cases hread

section Legal

variable (hleg : Legal cfg s₀ reqs)

include hleg

theorem Answered.readBackInAt (h : Answered cfg s₀ reqs t i) :
    (readBackInAt cfg s₀ reqs t i).valid = false := by
  by_contra hvalid
  obtain ⟨r, hr, t₀, -, rfl, hslot, hsent, hread⟩ :=
    exists_sent_of_readBackInAt hleg (Bool.not_eq_false _ ▸ hvalid)
  refine lt_irrefl _ (h t₀ ?_ r hr hslot hsent hread)
  exact Nat.lt_add_of_pos_right (Nat.add_pos_right _ (Nat.succ_pos _))

theorem answerAt_of_answered (h : Answered cfg s₀ reqs t i)
    (hdelay : (niAt cfg s₀ reqs t i).delayValid = false) :
    (answerAt cfg s₀ reqs t i).valid = false := by
  rw [answerAt_valid, h.readBackInAt hleg, hdelay, Bool.false_or]

theorem one_le_of_sent (h : (writeOutAt cfg s₀ reqs t i).valid = true) : 1 ≤ t := by
  by_contra hzero
  rw [Nat.lt_one_iff.mp (Nat.not_le.mp hzero), writeOutAt_zero hleg] at h
  cases h

theorem idle_zero (i : Node n) : Idle cfg s₀ reqs 0 i where
  notProcessed := (hleg.reset.nis i).notProcessed
  transmitted := (hleg.reset.nis i).transmitted
  delayValid := (hleg.reset.nis i).delayValid
  answered _ ht₀ := absurd ht₀ (Nat.not_lt_zero _)

omit hleg in
/-- A node without a request that waits for nothing is idle in the next cycle. -/
theorem idle_succ (hvalid : (reqs t i).valid = false)
    (hprocessed : (niAt cfg s₀ reqs t i).notProcessed = false)
    (htransmitted : (niAt cfg s₀ reqs (t + 1) i).transmitted = false)
    (hanswered : Answered cfg s₀ reqs (t + 1) i) : Idle cfg s₀ reqs (t + 1) i where
  notProcessed := by
    rw [notProcessed_succ, remote_of_not_valid hvalid hprocessed]
    rfl
  transmitted := htransmitted
  delayValid := by
    rw [delayValid_succ, remote_of_not_valid hvalid hprocessed, localReq_of_not_valid hvalid]
    rfl
  answered := hanswered

omit hleg in
theorem transmitted_succ_of_not_valid (hvalid : (reqs t i).valid = false)
    (hprocessed : (niAt cfg s₀ reqs t i).notProcessed = false) :
    (niAt cfg s₀ reqs (t + 1) i).transmitted =
      (!(TwoWay.readBackInAt cfg s₀ reqs t i).valid && (niAt cfg s₀ reqs t i).transmitted) := by
  rw [transmitted_succ, remote_of_not_valid hvalid hprocessed, Option.any_none, Bool.or_false]

omit hleg in
theorem Answered.idle_succ (h : Answered cfg s₀ reqs t i) (hvalid : (reqs t i).valid = false)
    (hprocessed : (niAt cfg s₀ reqs t i).notProcessed = false)
    (htransmitted : (niAt cfg s₀ reqs t i).transmitted = false) : Idle cfg s₀ reqs (t + 1) i := by
  refine TwoWay.idle_succ hvalid hprocessed ?_ (h.succ (Or.inl ?_))
  · rw [transmitted_succ_of_not_valid hvalid hprocessed, htransmitted, Bool.and_false]
  · exact writeOutAt_of_none (remote_of_not_valid hvalid hprocessed)

omit hleg in
/-- A request for the node itself is acknowledged in the next cycle. -/
theorem Idle.acked (h : Idle cfg s₀ reqs t i) (hissues : Issues cfg reqs t i i) :
    Acked cfg s₀ reqs t (t + 1) i := by
  have hlocal : cfg.isLocal i (reqs t i) = true := (isLocal_iff hissues).mpr rfl
  have hremote : cfg.remote i (niAt cfg s₀ reqs t i) _ = none := remote_of_local hissues
  constructor
  · rw [notProcessed_succ, hremote]
    rfl
  · rw [transmitted_succ, hremote, h.transmitted, Option.any_none, Bool.or_false, Bool.and_false]
  · rw [delayValid_succ, Config.localReq, hissues.1, hlocal]
    rfl
  · exact h.answered.succ (Or.inl (writeOutAt_of_none hremote))
  · intro w htw hwt
    omega

theorem Idle.answerAt_succ (h : Idle cfg s₀ reqs t i) (hissues : Issues cfg reqs t i i)
    (hread : (reqs t i).data.rw = false) :
    (answerAt cfg s₀ reqs (t + 1) i).data =
      memAt cfg s₀ reqs (t + 1) i (blockAddr cfg reqs t i) := by
  have hlocal : cfg.localReq i (reqs t i) = true := by
    rw [Config.localReq, hissues.1, (isLocal_iff hissues).mpr rfl]
    rfl
  have hnow := h.answered.readBackInAt hleg
  have hthen := (h.acked hissues).answered.readBackInAt hleg
  have hdelay : (niAt cfg s₀ reqs (t + 1) i).delayData = 1 := by
    rw [niAt_succ, Config.niNext]
    simp only [hnow, hlocal, if_true, Bool.false_eq_true, if_false]
  have haddr : (niAt cfg s₀ reqs (t + 1) i).regAddrA = blockAddr cfg reqs t i := by
    rw [niAt_succ, Config.niNext]
    simp only [hlocal, hread, Bool.and_false, if_true, Bool.false_eq_true, if_false, blockAddr]
  rw [answerAt, Config.memReqOut, hthen, if_neg Bool.false_ne_true, hdelay, if_pos rfl,
    haddr, memAt]

/-- A request for another node waits for its slot. -/
theorem Idle.pending (h : Idle cfg s₀ reqs t i) (hr : r ∈ routes n)
    (hissues : Issues cfg reqs t i (i + r.total (links n))) :
    Pending cfg s₀ reqs t t i (reqs t i).data r := by
  have hne : i ≠ i + r.total (links n) := by
    intro heq
    exact total_ne_zero cfg.two_le cfg.le_ten hr (left_eq_add.mp heq)
  constructor
  · rw [Config.remote, if_pos hissues.1, if_neg (mt (isLocal_iff hissues).mp hne)]
  · rw [Config.valid, h.notProcessed, if_neg Bool.false_ne_true, hissues.2,
      timeSlotToNode_eq cfg.two_le cfg.le_ten i hr, regDelay_niAt hleg.reset, beq_eq_decide]
    exact decide_eq_decide.mpr eq_comm
  · exact h.transmitted
  · exact h.delayValid
  · exact h.answered
  · intro w htw hwt
    omega

section Waiting

variable (hone : OneAtATime cfg s₀ reqs) (hvalid : (reqs t i).valid = true)

theorem Pending.answerAt (h : Pending cfg s₀ reqs t u i q r) :
    (answerAt cfg s₀ reqs u i).valid = false :=
  answerAt_of_answered hleg h.answered h.delayValid

omit hleg in
theorem Pending.transmits (h : Pending cfg s₀ reqs t u i q r) :
    cfg.transmits i (niAt cfg s₀ reqs u i) (reqs u i) q =
      decide ((u - 1) % len n = r.start) := by
  rw [Config.transmits, h.valid, h.transmitted, Bool.not_false, Bool.or_true, Bool.and_true]

omit hleg in
theorem Pending.localReq (h : Pending cfg s₀ reqs t u i q r) :
    cfg.localReq i (reqs u i) = false := by
  by_contra hlocal
  have hboth := Bool.and_eq_true_iff.mp (Bool.not_eq_false _ ▸ hlocal)
  have hremote := h.remote
  rw [Config.remote, if_pos hboth.1, if_pos hboth.2] at hremote
  cases hremote

omit hleg in
theorem Pending.inReg_succ (h : Pending cfg s₀ reqs t u i q r) :
    (niAt cfg s₀ reqs (u + 1) i).inReg = q := by
  have hremote := h.remote
  rw [niAt_succ, Config.niNext]
  simp only
  unfold Config.remote at hremote
  by_cases hu : (reqs u i).valid = true
  · by_cases hlocal : cfg.isLocal i (reqs u i) = true
    · rw [if_pos hu, if_pos hlocal] at hremote
      cases hremote
    · rw [if_pos hu, if_neg hlocal] at hremote
      rw [hu, Bool.eq_false_iff.mpr hlocal, Bool.not_false, Bool.and_true, if_pos rfl]
      exact Option.some.inj hremote
  · rw [if_neg hu] at hremote
    rw [Bool.eq_false_iff.mpr hu, Bool.false_and, if_neg Bool.false_ne_true]
    by_cases hold : (niAt cfg s₀ reqs u i).notProcessed = true
    · rw [if_pos hold] at hremote
      exact Option.some.inj hremote
    · rw [if_neg hold] at hremote
      cases hremote

include hone hvalid

theorem Pending.succ (h : Pending cfg s₀ reqs t u i q r) (htu : t ≤ u)
    (hr : r ∈ routes n) (hq : cfg.upperAddr q.address = index (i + r.total (links n)))
    (hslot : (u - 1) % len n ≠ r.start) : Pending cfg s₀ reqs t (u + 1) i q r := by
  have hsince := h.since.succ (h.answerAt hleg)
  have hnone := hone.not_valid hvalid (Nat.lt_succ_of_le htu) hsince
  have hwait : cfg.transmits i (niAt cfg s₀ reqs u i) (reqs u i) q = false := by
    rw [h.transmits, decide_eq_false hslot]
  have hprocessed : (niAt cfg s₀ reqs (u + 1) i).notProcessed = true := by
    rw [notProcessed_succ, h.remote, Option.any_some, hwait]
    rfl
  have hreg := h.inReg_succ
  constructor
  · rw [Config.remote, hnone, hprocessed, hreg, if_neg Bool.false_ne_true, if_pos rfl]
  · rw [Config.valid, hprocessed, if_pos rfl, hreg, hq,
      timeSlotToNode_eq cfg.two_le cfg.le_ten i hr, regDelay_niAt hleg.reset, beq_eq_decide]
    exact decide_eq_decide.mpr eq_comm
  · rw [transmitted_succ, h.remote, Option.any_some, hwait, h.transmitted, Bool.and_false,
      Bool.or_false, Bool.and_false]
  · rw [delayValid_succ, h.remote, Option.any_some, hwait, Bool.and_false, Bool.or_false]
    exact h.localReq
  · refine h.answered.succ (Or.inl ?_)
    rw [writeOutAt, Config.writeOut, h.remote]
    exact hwait
  · exact hsince

theorem Pending.sent (h : Pending cfg s₀ reqs t t i q r) (hr : r ∈ routes n)
    (hq : cfg.upperAddr q.address = index (i + r.total (links n))) :
    ∃ T, t ≤ T ∧ (T - 1) % len n = r.start ∧ Pending cfg s₀ reqs t T i q r ∧
      ∀ w, t ≤ w → w < T → (writeOutAt cfg s₀ reqs w i).valid = false := by
  have hex : ∃ d, (t + d - 1) % len n = r.start := by
    refine ⟨1 + (r.start + len n - t % len n), ?_⟩
    have hlt := start_lt hr
    have hmod := Nat.mod_lt t cfg.len_pos
    rw [show t + (1 + (r.start + len n - t % len n)) - 1 =
        t + (r.start + len n - t % len n) by omega, ← Nat.mod_add_mod,
      show t % len n + (r.start + len n - t % len n) = r.start + len n by omega,
      Nat.add_mod_right, Nat.mod_eq_of_lt hlt]
  classical
  have hpending : ∀ d ≤ Nat.find hex, Pending cfg s₀ reqs t (t + d) i q r := by
    intro d
    induction d with
    | zero => exact fun _ => h
    | succ d ih =>
      intro hd
      exact (ih (Nat.le_of_succ_le hd)).succ hleg hone hvalid
        (Nat.le_add_right t d) hr hq (Nat.find_min hex hd)
  refine ⟨t + Nat.find hex, Nat.le_add_right _ _, Nat.find_spec hex, hpending _ le_rfl, ?_⟩
  intro w htw hwT
  obtain ⟨d, rfl⟩ := Nat.exists_eq_add_of_le htw
  have hd : d < Nat.find hex := by omega
  have hwait := hpending d hd.le
  rw [writeOutAt, Config.writeOut, hwait.remote]
  exact hwait.transmits.trans (decide_eq_false (Nat.find_min hex hd))

end Waiting

section Sent

variable (hsize : 2 * (n * n) ≤ cfg.size)

omit hleg in
include hsize in
theorem Pending.writeOutAt (h : Pending cfg s₀ reqs t u i q r)
    (hslot : (u - 1) % len n = r.start) :
    writeOutAt cfg s₀ reqs u i = ⟨⟨q.rw, cfg.lowerAddr q.address, q.data⟩, true⟩ := by
  rw [writeOutAt_of_some hsize h.remote, h.transmits, decide_eq_true hslot]

include hsize

theorem Pending.acked (h : Pending cfg s₀ reqs t u i q r) (hslot : (u - 1) % len n = r.start)
    (hwrite : q.rw = true) : Acked cfg s₀ reqs t (u + 1) i := by
  have hsend : cfg.transmits i (niAt cfg s₀ reqs u i) (reqs u i) q = true := by
    rw [h.transmits, decide_eq_true hslot]
  constructor
  · rw [notProcessed_succ, h.remote, Option.any_some, hsend]
    rfl
  · rw [transmitted_succ, h.remote, Option.any_some, hwrite, h.transmitted]
    exact Bool.and_false _
  · rw [delayValid_succ, h.remote, Option.any_some, hwrite, hsend]
    exact Bool.or_true _
  · refine h.answered.succ (Or.inr ?_)
    rw [h.writeOutAt hsize hslot]
    exact hwrite
  · exact h.since.succ (h.answerAt hleg)

omit hsize in
theorem Pending.flying (h : Pending cfg s₀ reqs t u i q r) (hslot : (u - 1) % len n = r.start)
    (hread : q.rw = false) : Flying cfg s₀ reqs t u (u + 1) i := by
  have hsend : cfg.transmits i (niAt cfg s₀ reqs u i) (reqs u i) q = true := by
    rw [h.transmits, decide_eq_true hslot]
  have hback := h.answered.readBackInAt hleg
  constructor
  · rw [notProcessed_succ, h.remote, Option.any_some, hsend]
    rfl
  · rw [transmitted_succ, h.remote, Option.any_some, hread, hsend, hback]
    exact Bool.or_true _
  · rw [delayValid_succ, h.remote, Option.any_some, hread, Bool.false_and, Bool.or_false]
    exact h.localReq
  · intro t₀ ht₀ hne r' hr' hslot' hvalid' hread'
    exact Nat.lt_succ_of_lt (h.answered t₀ (by omega) r' hr' hslot' hvalid' hread')
  · exact h.since.succ (h.answerAt hleg)

end Sent

section Flight

variable (hone : OneAtATime cfg s₀ reqs) (hvalid : (reqs t i).valid = true)
  (hr : r ∈ routes n) (hslot : (T - 1) % len n = r.start)

include hr hslot

/-- No answer comes before its time. -/
theorem Flying.readBackInAt (h : Flying cfg s₀ reqs t T u i) (hu : u < T + roundTrip n r) :
    (readBackInAt cfg s₀ reqs u i).valid = false := by
  by_contra hback
  obtain ⟨r', hr', t₀, -, rfl, hslot', hsent, hread⟩ :=
    exists_sent_of_readBackInAt hleg (Bool.not_eq_false _ ▸ hback)
  have hpos : 0 < roundTrip n r' := Nat.add_pos_right _ (Nat.succ_pos _)
  by_cases hT : t₀ = T
  · subst hT
    obtain rfl := eq_of_start_eq cfg.le_ten hr hr' (hslot.symm.trans hslot')
    exact lt_irrefl _ hu
  · exact lt_irrefl _ (h.answered t₀ (by omega) hT r' hr' hslot' hsent hread)

include hone hvalid

theorem Flying.succ (h : Flying cfg s₀ reqs t T u i) (htu : t < u) (hu : u < T + roundTrip n r) :
    Flying cfg s₀ reqs t T (u + 1) i := by
  have hback := h.readBackInAt hleg hr hslot hu
  have hnone := hone.not_valid hvalid htu h.since
  constructor
  · rw [notProcessed_succ, remote_of_not_valid hnone h.notProcessed]
    rfl
  · rw [transmitted_succ_of_not_valid hnone h.notProcessed, hback, h.transmitted]
    rfl
  · rw [delayValid_succ, remote_of_not_valid hnone h.notProcessed, localReq_of_not_valid hnone]
    rfl
  · intro t₀ ht₀ hne r' hr' hslot' hsent hread
    rcases lt_or_eq_of_le (Nat.le_of_lt_succ ht₀) with hlt | rfl
    · exact Nat.lt_succ_of_lt (h.answered t₀ hlt hne r' hr' hslot' hsent hread)
    · rw [hone.writeOutAt hvalid htu h.since h.notProcessed] at hsent
      cases hsent
  · refine h.since.succ ?_
    rw [answerAt_valid, hback, h.delayValid, Bool.false_or]

theorem Flying.until (h : Flying cfg s₀ reqs t T (T + 1) i) (htT : t ≤ T) :
    ∀ d < roundTrip n r, Flying cfg s₀ reqs t T (T + 1 + d) i := by
  intro d
  induction d with
  | zero => exact fun _ => h
  | succ d ih =>
    intro hd
    have hafter : t < T + 1 + d := by omega
    have hbefore : T + 1 + d < T + roundTrip n r := by omega
    exact (ih (Nat.lt_of_succ_lt hd)).succ hleg hone hvalid hr hslot hafter hbefore

omit hleg in
theorem Flying.idle_succ (h : Flying cfg s₀ reqs t T u i) (htu : t < u)
    (hu : u = T + roundTrip n r) (hback : (TwoWay.readBackInAt cfg s₀ reqs u i).valid = true) :
    Idle cfg s₀ reqs (u + 1) i := by
  have hnone := hone.not_valid hvalid htu h.since
  refine TwoWay.idle_succ hnone h.notProcessed ?_ ?_
  · rw [transmitted_succ_of_not_valid hnone h.notProcessed, hback]
    rfl
  · intro t₀ ht₀ r' hr' hslot' hsent hread
    by_cases hT : t₀ = T
    · subst hT
      obtain rfl := eq_of_start_eq cfg.le_ten hr hr' (hslot.symm.trans hslot')
      omega
    · rcases lt_or_eq_of_le (Nat.le_of_lt_succ ht₀) with hlt | rfl
      · exact Nat.lt_succ_of_lt (h.answered t₀ hlt hT r' hr' hslot' hsent hread)
      · rw [hone.writeOutAt hvalid htu h.since h.notProcessed] at hsent
        cases hsent

end Flight

/-! ### From a request to its answer -/

variable (cfg s₀ reqs) in
/-- The request that an idle node `i` issues in cycle `t` arrives in cycle `arr`, if it is for
    another node, and is answered in cycle `ans`. -/
structure Episode (t : ℕ) (i : Node n) (T arr ans : ℕ) : Prop where
  lt : t < ans
  pulse : (answerAt cfg s₀ reqs ans i).valid = true
  since : Unanswered cfg s₀ reqs t ans i
  idle : Idle cfg s₀ reqs (ans + 1) i
  /-- Nothing is sent but in cycle `T`. -/
  silent : ∀ w, t ≤ w → w ≤ ans → (TwoWay.writeOutAt cfg s₀ reqs w i).valid = true → w = T
  /-- A request for another node is sent. -/
  sent : ∀ j, i ≠ j → Issues cfg reqs t i j → t ≤ T ∧ T < ans ∧
    TwoWay.writeOutAt cfg s₀ reqs T i =
      ⟨⟨(reqs t i).data.rw, blockAddr cfg reqs t i, (reqs t i).data.data⟩, true⟩ ∧
    ∃ r ∈ routes n, j = i + r.total (links n) ∧ (T - 1) % len n = r.start ∧
      arr = T + r.path.length + 1 ∧ ((reqs t i).data.rw = false → ans = T + roundTrip n r)
  localSilent : Issues cfg reqs t i i → ∀ w, t ≤ w → w ≤ ans →
    (TwoWay.writeOutAt cfg s₀ reqs w i).valid = false
  localRead : Issues cfg reqs t i i → (reqs t i).data.rw = false →
    (answerAt cfg s₀ reqs ans i).data = memAt cfg s₀ reqs ans i (blockAddr cfg reqs t i)

section Episodes

variable (hone : OneAtATime cfg s₀ reqs)

omit hleg in
theorem Acked.answerAt (h : Acked cfg s₀ reqs t u i) :
    (answerAt cfg s₀ reqs u i).valid = true := by
  rw [answerAt_valid, h.delayValid, Bool.or_true]

omit hleg in
include hone in
theorem Acked.idle_succ (h : Acked cfg s₀ reqs t u i) (hvalid : (reqs t i).valid = true)
    (htu : t < u) : Idle cfg s₀ reqs (u + 1) i :=
  h.answered.idle_succ (hone.not_valid hvalid htu h.since) h.notProcessed h.transmitted

include hone

theorem Idle.episode_local (h : Idle cfg s₀ reqs t i) (hissues : Issues cfg reqs t i i) :
    Episode cfg s₀ reqs t i t t (t + 1) := by
  have : NeZero n := ⟨by have := cfg.two_le; omega⟩
  have hacked := h.acked hissues
  have hsilent : ∀ w, t ≤ w → w ≤ t + 1 →
      (TwoWay.writeOutAt cfg s₀ reqs w i).valid = false := by
    intro w htw hwt
    rcases lt_or_eq_of_le hwt with hlt | rfl
    · obtain rfl := Nat.le_antisymm (Nat.le_of_lt_succ hlt) htw
      exact writeOutAt_of_none (remote_of_local hissues)
    · exact hone.writeOutAt hissues.1 (Nat.lt_succ_self t) hacked.since hacked.notProcessed
  constructor
  · exact Nat.lt_succ_self t
  · exact hacked.answerAt
  · exact hacked.since
  · exact hacked.idle_succ hone hissues.1 (Nat.lt_succ_self t)
  · intro w htw hwt hvalid
    rw [hsilent w htw hwt] at hvalid
    cases hvalid
  · intro j hne hj
    exact absurd (index_injective (hissues.2.symm.trans hj.2)) hne
  · exact fun _ => hsilent
  · exact fun _ hread => h.answerAt_succ hleg hissues hread

variable (hsize : 2 * (n * n) ≤ cfg.size)

include hsize

theorem Idle.episode_remote (h : Idle cfg s₀ reqs t i) (hr : r ∈ routes n)
    (hissues : Issues cfg reqs t i (i + r.total (links n))) :
    ∃ T arr ans, Episode cfg s₀ reqs t i T arr ans := by
  have : NeZero n := ⟨by have := cfg.two_le; omega⟩
  have hpos : 1 ≤ roundTrip n r := Nat.add_pos_right _ (Nat.succ_pos _)
  obtain ⟨T, htT, hslot, hpending, hwait⟩ := (h.pending hleg hr hissues).sent hleg
    hone hissues.1 hr hissues.2
  have hout := hpending.writeOutAt hsize hslot
  have hself : ¬ Issues cfg reqs t i i := by
    intro hlocal
    have heq := index_injective (hlocal.2.symm.trans hissues.2)
    exact total_ne_zero cfg.two_le cfg.le_ten hr (left_eq_add.mp heq)
  have hsame : ∀ j, Issues cfg reqs t i j → j = i + r.total (links n) :=
    fun j hj => index_injective (hj.2.symm.trans hissues.2)
  cases hrw : (reqs t i).data.rw with
  | true =>
    have hacked := hpending.acked hleg hsize hslot hrw
    have hlt : t < T + 1 := Nat.lt_succ_of_le htT
    refine ⟨T, T + r.path.length + 1, T + 1, hlt, hacked.answerAt, hacked.since,
      hacked.idle_succ hone hissues.1 hlt, ?_, ?_,
      fun hlocal => absurd hlocal hself, fun hlocal => absurd hlocal hself⟩
    · intro w htw hwT hvalid
      by_contra hne
      rcases lt_or_eq_of_le hwT with hw | rfl
      · rw [hwait w htw (by omega)] at hvalid
        cases hvalid
      · rw [hone.writeOutAt hissues.1 hlt hacked.since hacked.notProcessed] at hvalid
        cases hvalid
    · intro j _ hj
      refine ⟨htT, Nat.lt_succ_self T, hout, r, hr, hsame j hj, hslot, rfl, fun hread => ?_⟩
      rw [hrw] at hread
      cases hread
  | false =>
    have hflying := (hpending.flying hleg hslot hrw).until hleg hone
      hissues.1 hr hslot htT
    have hlast : Flying cfg s₀ reqs t T (T + roundTrip n r) i := by
      have hd := hflying (roundTrip n r - 1) (by omega)
      rwa [show T + 1 + (roundTrip n r - 1) = T + roundTrip n r by omega] at hd
    have hlt : t < T + roundTrip n r := by omega
    have hsent : (TwoWay.writeOutAt cfg s₀ reqs T i).valid = true := by rw [hout]
    have hread : (TwoWay.writeOutAt cfg s₀ reqs T i).data.rw = false := by rw [hout]; exact hrw
    have hback := readBackInAt_of_sent hleg hr (one_le_of_sent hleg hsent) hslot hsent hread
    have hbackValid : (TwoWay.readBackInAt cfg s₀ reqs (T + roundTrip n r) i).valid = true := by
      rw [hback]
    refine ⟨T, T + r.path.length + 1, T + roundTrip n r, hlt, ?_, hlast.since,
      hlast.idle_succ hone hissues.1 hr hslot hlt rfl hbackValid, ?_, ?_,
      fun hlocal => absurd hlocal hself, fun hlocal => absurd hlocal hself⟩
    · rw [answerAt_valid, hbackValid, Bool.true_or]
    · intro w htw hwT hvalid
      by_contra hne
      rcases Nat.lt_or_gt_of_ne hne with hw | hw
      · rw [hwait w htw hw] at hvalid
        cases hvalid
      · have hd := hflying (w - (T + 1)) (by omega)
        rw [Nat.add_sub_cancel' hw] at hd
        rw [hone.writeOutAt hissues.1 (by omega) hd.since hd.notProcessed] at hvalid
        cases hvalid
    · intro j _ hj
      exact ⟨htT, by omega, hout, r, hr, hsame j hj, hslot, rfl, fun _ => rfl⟩

theorem Idle.episode (h : Idle cfg s₀ reqs t i) (hvalid : (reqs t i).valid = true) :
    ∃ T arr ans, Episode cfg s₀ reqs t i T arr ans := by
  obtain ⟨j, hj⟩ := hleg.nodes t i hvalid
  by_cases hij : i = j
  · subst hij
    exact ⟨t, t, t + 1, h.episode_local hleg hone hj⟩
  · obtain ⟨r, hr, rfl⟩ := exists_route_of_ne cfg hij
    exact h.episode_remote hleg hone hsize hr hj

/-- Every cycle is one of an idle node, or between a request and its answer. -/
theorem idle_or_episode (u : ℕ) (i : Node n) : Idle cfg s₀ reqs u i ∨
    ∃ t T arr ans, (reqs t i).valid = true ∧ Episode cfg s₀ reqs t i T arr ans ∧
      t < u ∧ u ≤ ans := by
  induction u with
  | zero => exact Or.inl (idle_zero hleg i)
  | succ u ih =>
    rcases ih with hidle | ⟨t, T, arr, ans, hvalid, hep, htu, hu⟩
    · cases hvalid : (reqs u i).valid with
      | false =>
        exact Or.inl (hidle.answered.idle_succ hvalid hidle.notProcessed hidle.transmitted)
      | true =>
        obtain ⟨T, arr, ans, hep⟩ := hidle.episode hleg hone hsize hvalid
        exact Or.inr ⟨u, T, arr, ans, hvalid, hep, Nat.lt_succ_self u, hep.lt⟩
    · rcases lt_or_eq_of_le hu with hlt | rfl
      · exact Or.inr ⟨t, T, arr, ans, hvalid, hep, Nat.lt_succ_of_lt htu, hlt⟩
      · exact Or.inl hep.idle

theorem idle_of_valid (hvalid : (reqs t i).valid = true) : Idle cfg s₀ reqs t i := by
  rcases idle_or_episode hleg hone hsize t i with
    hidle | ⟨t', T, arr, ans, hvalid', hep, htt, hans⟩
  · exact hidle
  · obtain ⟨w, htw, hwt, hpulse⟩ := hone i t' t htt hvalid' hvalid
    rw [hep.since w htw (hwt.trans_le hans)] at hpulse
    cases hpulse

theorem exists_episode (hvalid : (reqs t i).valid = true) :
    ∃ T arr ans, Episode cfg s₀ reqs t i T arr ans :=
  (idle_of_valid hleg hone hsize hvalid).episode hleg hone hsize hvalid

end Episodes

/-! ### Requests, arrivals and answers -/

section Times

variable {arr ans T' arr' ans' t' : ℕ}

omit hleg in
/-- A request is answered once. -/
theorem Episode.ans_eq (h : Episode cfg s₀ reqs t i T arr ans)
    (h' : Episode cfg s₀ reqs t i T' arr' ans') : ans = ans' := by
  rcases lt_trichotomy ans ans' with hlt | heq | hlt
  · exact absurd (h'.since ans h.lt hlt) (Bool.not_eq_false _ ▸ h.pulse)
  · exact heq
  · exact absurd (h.since ans' h'.lt hlt) (Bool.not_eq_false _ ▸ h'.pulse)

omit hleg in
/-- A request is answered before the next one. -/
theorem Episode.ans_lt (hone : OneAtATime cfg s₀ reqs) (h : Episode cfg s₀ reqs t i T arr ans)
    (hvalid : (reqs t i).valid = true) (hvalid' : (reqs t' i).valid = true) (hlt : t < t') :
    ans < t' := by
  obtain ⟨w, htw, hwt, hpulse⟩ := hone i t t' hlt hvalid hvalid'
  by_contra hle
  rw [h.since w htw (hwt.trans_le (Nat.not_lt.mp hle))] at hpulse
  cases hpulse

end Times

section Chosen

variable {sentAt arr ans : ℕ → Node n → ℕ}
  (hep : ∀ t i, (reqs t i).valid = true →
    Episode cfg s₀ reqs t i (sentAt t i) (arr t i) (ans t i))

include hep

theorem arrives_of_episode (hij : i ≠ j) (hissues : Issues cfg reqs t i j) :
    t < arr t i ∧ writeInAt cfg s₀ reqs (arr t i) j =
      ⟨⟨(reqs t i).data.rw, blockAddr cfg reqs t i, (reqs t i).data.data⟩, true⟩ := by
  obtain ⟨hle, -, hout, r, hr, rfl, hslot, harr, -⟩ := (hep t i hissues.1).sent j hij hissues
  have hT := one_le_of_sent hleg (t := sentAt t i) (i := i) (by rw [hout])
  rw [harr, writeInAt_of_sent hleg hr hT hslot i, hout]
  exact ⟨by omega, rfl⟩

theorem reads_of_episode (hij : i ≠ j) (hissues : Issues cfg reqs t i j)
    (hread : (reqs t i).data.rw = false) :
    arr t i < ans t i ∧ (answerAt cfg s₀ reqs (ans t i) i).data =
      memAt cfg s₀ reqs (arr t i + 1) j (blockAddr cfg reqs t i) := by
  obtain ⟨-, -, hout, r, hr, rfl, hslot, harr, hans⟩ := (hep t i hissues.1).sent j hij hissues
  have hsent : (writeOutAt cfg s₀ reqs (sentAt t i) i).valid = true := by rw [hout]
  have hT := one_le_of_sent hleg hsent
  have hback := readBackInAt_of_sent hleg hr hT hslot hsent
    (by rw [hout]; exact hread)
  rw [← hans hread, hout] at hback
  rw [answerAt, Config.memReqOut, hback, harr, if_pos rfl, hans hread, roundTrip]
  exact ⟨by omega, rfl⟩

variable (hone : OneAtATime cfg s₀ reqs) (hsize : 2 * (n * n) ≤ cfg.size)

include hone

omit hleg in
/-- Different requests are sent in different cycles. -/
theorem eq_of_sentAt_eq {t' : ℕ} {j' : Node n} (hij : i ≠ j) (hissues : Issues cfg reqs t i j)
    (hij' : i ≠ j') (hissues' : Issues cfg reqs t' i j') (heq : sentAt t i = sentAt t' i) :
    t = t' := by
  obtain ⟨hle, hlt, -⟩ := (hep t i hissues.1).sent j hij hissues
  obtain ⟨hle', hlt', -⟩ := (hep t' i hissues'.1).sent j' hij' hissues'
  rcases lt_trichotomy t t' with h | h | h
  · have := (hep t i hissues.1).ans_lt hone hissues.1 hissues'.1 h
    omega
  · exact h
  · have := (hep t' i hissues'.1).ans_lt hone hissues'.1 hissues.1 h
    omega

include hsize

/-- What is sent is a request. -/
theorem exists_request_of_writeOutAt (h : (writeOutAt cfg s₀ reqs u i).valid = true) :
    ∃ t j, i ≠ j ∧ Issues cfg reqs t i j ∧ sentAt t i = u := by
  -- the request in whose episode it is sent is for another node
  have hin : ∀ t, (reqs t i).valid = true → t ≤ u → u ≤ ans t i →
      ∃ t j, i ≠ j ∧ Issues cfg reqs t i j ∧ sentAt t i = u := by
    intro t hvalid htu hu
    obtain ⟨j, hj⟩ := hleg.nodes t i hvalid
    refine ⟨t, j, ?_, hj, ((hep t i hvalid).silent u htu hu h).symm⟩
    rintro rfl
    rw [(hep t i hvalid).localSilent hj u htu hu] at h
    cases h
  rcases idle_or_episode hleg hone hsize u i with
    hidle | ⟨t, T, arr', ans', hvalid, hep', htu, hu⟩
  · cases hvalid : (reqs u i).valid with
    | false =>
      rw [writeOutAt_of_none (remote_of_not_valid hvalid hidle.notProcessed)] at h
      cases h
    | true => exact hin u hvalid le_rfl (hep u i hvalid).lt.le
  · refine hin t hvalid htu.le ?_
    rw [(hep t i hvalid).ans_eq hep']
    exact hu

theorem once_of_episode (h : (writeInAt cfg s₀ reqs u j).valid = true) :
    ∃ t i, i ≠ j ∧ Issues cfg reqs t i j ∧ arr t i = u ∧
      ∀ t' i', i' ≠ j → Issues cfg reqs t' i' j → arr t' i' = u → t' = t ∧ i' = i := by
  obtain ⟨r, hr, t₀, ht₀, rfl, hslot, heq⟩ := exists_sent_of_writeInAt hleg h
  rw [heq] at h
  obtain ⟨t, j', hij, hissues, hsent⟩ :=
    exists_request_of_writeOutAt hleg hep hone hsize h
  obtain ⟨-, -, -, r', hr', hj', hslot', harr, -⟩ := (hep t _ hissues.1).sent j' hij hissues
  rw [hsent] at hslot' harr
  obtain rfl := eq_of_start_eq cfg.le_ten hr hr' (hslot.symm.trans hslot')
  rw [sub_add_cancel] at hj'
  subst hj'
  refine ⟨t, _, hij, hissues, harr, ?_⟩
  intro t' i' hij' hissues' harr'
  obtain ⟨-, -, hout, r', hr', rfl, hslot', harr'', -⟩ :=
    (hep t' i' hissues'.1).sent _ hij' hissues'
  have hT := one_le_of_sent hleg (t := sentAt t' i') (i := i') (by rw [hout])
  -- the cycle of the arrival gives the route, and the route the rest
  have hsame : r = r' := by
    refine eq_of_arrival_eq cfg.le_ten hr hr' ?_
    rw [← arrival_slot cfg hr ht₀ hslot, ← arrival_slot cfg hr' hT hslot', ← harr'', harr']
  subst hsame
  have hnode : i' + r.total (links n) - r.total (links n) = i' := add_sub_cancel_right _ _
  rw [hnode] at hij hissues hsent ⊢
  refine ⟨eq_of_sentAt_eq hep hone hij' hissues' hij hissues ?_, rfl⟩
  omega

theorem asked_of_episode (h : (answerAt cfg s₀ reqs u i).valid = true) :
    ∃ t, (reqs t i).valid = true ∧ ans t i = u ∧
      ∀ t', (reqs t' i).valid = true → ans t' i = u → t' = t := by
  rcases idle_or_episode hleg hone hsize u i with
    hidle | ⟨t, T, arr', ans', hvalid, hep', htu, hu⟩
  · rw [answerAt_of_answered hleg hidle.answered hidle.delayValid] at h
    cases h
  · have hans := (hep t i hvalid).ans_eq hep'
    have hlast : ans t i = u := by
      rcases lt_or_eq_of_le hu with hlt | heq
      · rw [hep'.since u htu hlt] at h
        cases h
      · exact hans.trans heq.symm
    refine ⟨t, hvalid, hlast, fun t' hvalid' hlast' => ?_⟩
    have hlt' := (hep t' i hvalid').lt
    rcases lt_trichotomy t' t with hlt | heq | hlt
    · have := (hep t' i hvalid').ans_lt hone hvalid' hvalid hlt
      omega
    · exact heq
    · have := (hep t i hvalid).ans_lt hone hvalid hvalid' hlt
      omega

theorem unchanged_of_episode {a : ℕ}
    (h : memAt cfg s₀ reqs (u + 1) j a ≠ memAt cfg s₀ reqs u j a) :
    (∃ t i, i ≠ j ∧ Issues cfg reqs t i j ∧ (reqs t i).data.rw = true ∧ arr t i = u ∧
      blockAddr cfg reqs t i = a) ∨
    (Issues cfg reqs u j j ∧ (reqs u j).data.rw = true ∧ blockAddr cfg reqs u j = a) := by
  have hnext : memAt cfg s₀ reqs (u + 1) j =
    cfg.memNext j (memAt cfg s₀ reqs u j) (reqs u j) (writeInAt cfg s₀ reqs u j) := rfl
  rw [hnext, Config.memNext] at h
  by_cases hremote : ((writeInAt cfg s₀ reqs u j).valid &&
      (writeInAt cfg s₀ reqs u j).data.rw) = true ∧ a = (writeInAt cfg s₀ reqs u j).data.address
  · obtain ⟨hvalid, hwrite⟩ := Bool.and_eq_true_iff.mp hremote.1
    obtain ⟨t, i, hij, hissues, rfl, -⟩ :=
      once_of_episode hleg hep hone hsize hvalid
    have hword := (arrives_of_episode hleg hep hij hissues).2
    rw [hword] at hwrite
    refine Or.inl ⟨t, i, hij, hissues, hwrite, rfl, ?_⟩
    rw [hremote.2, hword]
  · right
    have hlocal : (if cfg.localReq j (reqs u j) && (reqs u j).data.rw then
        Function.update (memAt cfg s₀ reqs u j) (cfg.lowerAddr (reqs u j).data.address)
          (reqs u j).data.data else memAt cfg s₀ reqs u j) a ≠ memAt cfg s₀ reqs u j a := by
      split at h
      · rename_i hwrite
        rwa [Function.update_of_ne fun ha => hremote ⟨hwrite, ha⟩] at h
      · exact h
    split at hlocal
    · rename_i hwrite
      obtain ⟨hreq, hrw⟩ := Bool.and_eq_true_iff.mp hwrite
      obtain ⟨hvalid, hself⟩ := Bool.and_eq_true_iff.mp hreq
      refine ⟨⟨hvalid, beq_iff_eq.mp hself⟩, hrw, ?_⟩
      by_contra ha
      exact hlocal (Function.update_of_ne (Ne.symm ha) _ _)
    · exact absurd rfl hlocal

end Chosen

end Legal

end Steps

/-- From reset, if every node waits for the answer to its request and no request is for a node whose
    route leaks, or in cycle 0 for the node of the first route, every access is correct. -/
theorem accesses_correct {n : ℕ} (h2 : 2 ≤ n) (h10 : n ≤ 10) {size : ℕ} (hsize : 2 * (n * n) ≤ size)
    {s₀ : Sys n} (hreset : s₀.IsReset) {reqs : ℕ → Node n → Chan Rw}
    (hnodes : ForNodes (config h2 h10 size) reqs)
    (hone : OneAtATime (config h2 h10 size) s₀ reqs) (hsafe : Safe (config h2 h10 size) reqs) :
    ∃ arr ans, Correct (config h2 h10 size) s₀ reqs arr ans := by
  have hleg : Legal (config h2 h10 size) s₀ reqs := ⟨hnodes, hreset, hsafe⟩
  have hall : ∀ t i, ∃ T arr ans, (reqs t i).valid = true →
      Episode (config h2 h10 size) s₀ reqs t i T arr ans := by
    intro t i
    by_cases hvalid : (reqs t i).valid = true
    · obtain ⟨T, arr, ans, hep⟩ := exists_episode hleg hone hsize hvalid
      exact ⟨T, arr, ans, fun _ => hep⟩
    · exact ⟨0, 0, 0, fun h => absurd h hvalid⟩
  choose sentAt arr ans hep using hall
  have harrives := fun t i j => arrives_of_episode hleg hep (t := t) (i := i) (j := j)
  refine ⟨arr, ans, harrives, ?_, ?_, ?_, ?_, ?_, ?_, ?_⟩
  · exact fun u j => once_of_episode hleg hep hone hsize
  · exact fun t i hvalid => ⟨(hep t i hvalid).lt, (hep t i hvalid).pulse⟩
  · exact fun u i => asked_of_episode hleg hep hone hsize
  · exact fun t i j => reads_of_episode hleg hep
  · exact fun t i hissues => (hep t i hissues.1).localRead hissues
  · intro t i j hij hissues hwrite
    change (config h2 h10 size).memNext j _ _ (writeInAt _ s₀ reqs (arr t i) j) _ = _
    rw [(harrives t i j hij hissues).2, Config.memNext, hwrite]
    exact Function.update_self _ _ _
  · exact fun u j a => unchanged_of_episode hleg hep hone hsize

/-! ### One request of a node -/

section OneRequest

variable {n : ℕ}

/-- The state in which nothing was sent yet and all memories are empty. -/
def resetSys (n : ℕ) : Sys n where
  writeNet _ := ⟨0, 0, fun _ => ⟨⟨false, 0, 0⟩, false⟩⟩
  readBackNet _ := ⟨timeShift n, 0, fun _ => ⟨0, false⟩⟩
  nis _ := ⟨0, 0, false, 0, false, false, ⟨false, 0, 0⟩, false, fun _ => ⟨0, false⟩, len n - 2,
    timeShift n, 0, fun _ => 0, 0, 0⟩

theorem isReset_resetSys : (resetSys n).IsReset where
  writeNet := ⟨fun _ => rfl, fun _ => rfl, fun _ _ => rfl⟩
  readBackNet := ⟨fun _ => rfl, fun _ => rfl, fun _ _ => rfl⟩
  nis _ := ⟨rfl, rfl, rfl, rfl, rfl, rfl, fun _ => rfl, rfl, rfl, rfl⟩

/-- The same with the words of `mem` in every block. -/
def loadedSys (n : ℕ) (mem : ℕ → Ocp.Word) : Sys n :=
  { resetSys n with nis := fun i => { (resetSys n).nis i with mem := mem } }

theorem isReset_loadedSys (mem : ℕ → Ocp.Word) : (loadedSys n mem).IsReset where
  writeNet := isReset_resetSys.writeNet
  readBackNet := isReset_resetSys.readBackNet
  nis _ := ⟨rfl, rfl, rfl, rfl, rfl, rfl, fun _ => rfl, rfl, rfl, rfl⟩

/-- A node that issues only one request has none to wait for. -/
theorem oneAtATime_of_once (cfg : Config n) (s₀ : Sys n) {reqs : ℕ → Node n → Chan Rw}
    {at₀ : Node n → ℕ} (honce : ∀ t i, (reqs t i).valid = true → t = at₀ i) :
    OneAtATime cfg s₀ reqs := by
  intro i t t' hlt hvalid hvalid'
  rw [honce t i hvalid, honce t' i hvalid'] at hlt
  exact absurd hlt (lt_irrefl _)

/-- The only request is that of node `v` in cycle `first`. -/
def oneRequest (first : ℕ) (v : Node n) (q : Rw) (t : ℕ) (i : Node n) : Chan Rw :=
  ⟨q, decide (t = first ∧ i = v)⟩

theorem oneRequest_valid {first : ℕ} {v : Node n} {q : Rw} {t : ℕ} {i : Node n}
    (h : (oneRequest first v q t i).valid = true) : t = first ∧ i = v := of_decide_eq_true h

theorem oneAtATime_oneRequest (cfg : Config n) (s₀ : Sys n) (first : ℕ) (v : Node n) (q : Rw) :
    OneAtATime cfg s₀ (oneRequest first v q) :=
  oneAtATime_of_once cfg s₀ fun _ _ hvalid => (oneRequest_valid hvalid).1

/-- Every node issues one request, in a cycle of its own. -/
def onePerNode (sched : Node n → ℕ × Rw) (t : ℕ) (i : Node n) : Chan Rw :=
  ⟨(sched i).2, decide (t = (sched i).1)⟩

end OneRequest

/-- Two by two nodes with 256 words each. -/
def fourNodes : Config 2 := config (by decide) (by decide) 1024

/-- Node 0 writes 7 to word 5 of node 3.  Meanwhile node 1 reads word 9 of node 0 and node 3 a word
    of its own, and later node 2 reads the word that was written. -/
def crossing : ℕ → Node 2 → Chan Rw := onePerNode fun i =>
  match index i with
  | 0 => (1, ⟨true, 3 * 256 + 5, fun _ => 7⟩)
  | 1 => (1, ⟨false, 9, fun _ => 0⟩)
  | 2 => (10, ⟨false, 3 * 256 + 5, fun _ => 0⟩)
  | _ => (2, ⟨false, 3 * 256 + 8, fun _ => 0⟩)

theorem crossing_correct :
    answerAt fourNodes (loadedSys 2 Ocp.numbered) crossing 10 (0, 1) = ⟨fun _ => 9, true⟩ ∧
    answerAt fourNodes (loadedSys 2 Ocp.numbered) crossing 20 (1, 0) = ⟨fun _ => 7, true⟩ ∧
    ∃ arr ans, Correct fourNodes (loadedSys 2 Ocp.numbered) crossing arr ans := by
  refine ⟨by decide +kernel, by decide +kernel, ?_⟩
  refine accesses_correct (by decide) (by decide) (by decide) (isReset_loadedSys _) ?_
    (oneAtATime_of_once _ _ fun _ _ hvalid => of_decide_eq_true hvalid) ?_
  · have hupper : ∀ i : Node 2, ∃ j : Node 2,
        fourNodes.upperAddr (crossing 0 i).data.address = index j := by decide +kernel
    exact fun t i hvalid => (hupper i).imp fun j hj => ⟨hvalid, hj⟩
  · intro t i r hr hissues
    refine ⟨not_leaks_two r hr, fun hzero => ?_⟩
    have hlater : ∀ i : Node 2, (crossing 0 i).valid = false := by decide +kernel
    have hvalid := hissues.1
    rw [hzero, hlater i] at hvalid
    cases hvalid

/-- Three by three nodes with 64 words each. -/
def nineNodes : Config 3 := config two_le_three three_le_ten 1024

/-- The first node writes to word 5 of the node to the south, in the slot of its route. -/
def southWrite : ℕ → Node 3 → Chan Rw := oneRequest 8 sender ⟨true, 3 * 64 + 5, 1⟩

/-- The write arrives, but then it also comes back and changes word 5 of its sender. -/
theorem southWrite_comes_back :
    Issues nineNodes southWrite 8 sender receiver ∧
    OneAtATime nineNodes (resetSys 3) southWrite ∧
    memAt nineNodes (resetSys 3) southWrite 11 receiver 5 = 1 ∧
    memAt nineNodes (resetSys 3) southWrite 12 sender 5 = 0 ∧
    memAt nineNodes (resetSys 3) southWrite 13 sender 5 = 1 ∧
    ¬ ∃ arr ans, Correct nineNodes (resetSys 3) southWrite arr ans := by
  have hbefore : memAt nineNodes (resetSys 3) southWrite 12 sender 5 = 0 := by decide +kernel
  have hafter : memAt nineNodes (resetSys 3) southWrite (12 + 1) sender 5 = 1 := by decide +kernel
  refine ⟨⟨by decide, by decide +kernel⟩, oneAtATime_oneRequest _ _ _ _ _, by decide +kernel,
    hbefore, hafter, ?_⟩
  rintro ⟨arr, ans, h⟩
  have hchanged : memAt nineNodes (resetSys 3) southWrite (12 + 1) sender 5 ≠
      memAt nineNodes (resetSys 3) southWrite 12 sender 5 := by
    rw [hbefore, hafter]
    decide
  rcases h.unchanged 12 sender 5 hchanged with ⟨t, i, hne, hissues, -⟩ | ⟨hissues, -⟩
  · exact hne (oneRequest_valid hissues.1).2
  · exact absurd (oneRequest_valid hissues.1).1 (by decide)

end Patmos.TwoWay
