import Patmos.Arbiter
import Mathlib.Data.Nat.Find
import Mathlib.Tactic.FinCases

/-!
# Runs of the arbiter

A command that is accepted from a master moves through its buffer with the words behind it,
waits in the first place, and is taken by the slave in its master's turn.  The way of a command
is followed from the cycle in which it is accepted; the turn goes round because every command
that is shown to the slave is taken and answered.
-/

namespace Patmos.Arbiter

open Ocp Clocked

section Runs

variable {cnt : Nat} (burstLen : Nat) (y₀ : Bus cnt) (tr : ℕ → Cycle cnt)

/-- The arbiter before cycle `t`. -/
def busAt (t : ℕ) : Bus cnt := stateAt (Bus.next burstLen) y₀ tr t

def turnAt (t : ℕ) : Fin cnt := (busAt burstLen y₀ tr t).arb.turnReg

/-- What the slave is shown in cycle `t`. -/
def slaveM (t : ℕ) : BurstMaster := toSlave (busAt burstLen y₀ tr t).arb

/-- What master `i` sees in cycle `t`. -/
def masterS (i : Fin cnt) (t : ℕ) : BurstSlave := (busAt burstLen y₀ tr t).toMaster i

/-- In cycle `t` a command is accepted from master `i`. -/
def Accepted (i : Fin cnt) (t : ℕ) : Prop :=
  ((tr t).master i).cmd ≠ .idle ∧ (masterS burstLen y₀ tr i t).cmdAccept = true

/-- In cycle `t` the slave accepts a command, in the turn of master `i`. -/
def Taken (i : Fin cnt) (t : ℕ) : Prop :=
  ((slaveM burstLen y₀ tr t).cmd ≠ .idle ∧ (tr t).slave.cmdAccept = true) ∧
    turnAt burstLen y₀ tr t = i

/-- The command that is accepted from master `i` in cycle `t` is the one that the slave accepts
    in cycle `w`: it is the last one from `i` before and the slave takes none from `i` in
    between.  A write has its words in consecutive cycles on both sides. -/
structure Serves (i : Fin cnt) (t w : ℕ) : Prop where
  accepted : Accepted burstLen y₀ tr i t
  taken : Taken burstLen y₀ tr i w
  later : t < w
  last : ∀ u, t < u → u ≤ w → ¬ Accepted burstLen y₀ tr i u
  first : ∀ u, t < u → u < w → ¬ Taken burstLen y₀ tr i u
  command : slaveM burstLen y₀ tr w = (tr t).master i
  words : ((tr t).master i).cmd = .wr → ∀ k, k < burstLen →
    (masterS burstLen y₀ tr i (t + k)).dataAccept = true ∧
    slaveM burstLen y₀ tr (w + k) = (tr (t + k)).master i ∧
    (tr (w + k)).slave.dataAccept = true

/-- The slave does not wait for ever with what it has to do. -/
structure Responsive : Prop where
  accepts : ∀ t, (slaveM burstLen y₀ tr t).cmd ≠ .idle → ∃ u, t ≤ u ∧ (tr u).slave.cmdAccept = true
  answers : ∀ t, 0 < (busAt burstLen y₀ tr t).due → ∃ u, t ≤ u ∧ (tr u).slave.resp ≠ .null

/-- Every command that the slave is shown or accepts comes from a master, and every command
    from a master gets to the slave.  A command is shown to the slave only when every command it
    accepted
    before has all its answers, and then until it is accepted.  In the cycle after an answer
    the master whose command was accepted last sees it, and no other master sees anything. -/
structure Transparent : Prop where
  origin : ∀ i w, Taken burstLen y₀ tr i w → ∃ t, Serves burstLen y₀ tr i t w
  served : Responsive burstLen y₀ tr → ∀ i t, Accepted burstLen y₀ tr i t →
    ∃ w, Serves burstLen y₀ tr i t w
  shown : ∀ w, (slaveM burstLen y₀ tr w).cmd ≠ .idle →
    ∃ t, t < w ∧ Accepted burstLen y₀ tr (turnAt burstLen y₀ tr w) t ∧
      slaveM burstLen y₀ tr w = (tr t).master (turnAt burstLen y₀ tr w) ∧
      ∀ u, t < u → u < w → ¬ Taken burstLen y₀ tr (turnAt burstLen y₀ tr w) u
  exclusive : ∀ t, (slaveM burstLen y₀ tr t).cmd ≠ .idle → (busAt burstLen y₀ tr t).due = 0
  kept : ∀ t, (slaveM burstLen y₀ tr t).cmd ≠ .idle → (tr t).slave.cmdAccept = false →
    turnAt burstLen y₀ tr (t + 1) = turnAt burstLen y₀ tr t ∧
      slaveM burstLen y₀ tr (t + 1) = slaveM burstLen y₀ tr t
  answers : ∀ i t, (masterS burstLen y₀ tr i (t + 1)).resp =
    if (busAt burstLen y₀ tr t).owner = i then (tr t).slave.resp else .null
  data : ∀ i t, (masterS burstLen y₀ tr i (t + 1)).resp ≠ .null →
    (masterS burstLen y₀ tr i (t + 1)).data = (tr t).slave.data

end Runs

/-! ### The way through a buffer -/

section Way

variable {burstLen : ℕ} {b : ℕ → Buffer} {m : ℕ → BurstMaster} {s : ℕ → BurstSlave} {t v p : ℕ}

/-- In cycle `v` the command that was accepted in cycle `t` is at place `p`. -/
structure Enroute (burstLen : ℕ) (b : ℕ → Buffer) (m : ℕ → BurstMaster) (t v p : ℕ) : Prop where
  bound : p < burstLen
  cmd : (m t).cmd ≠ .idle
  moved : t + (burstLen - p) ≤ v
  moving : 0 < p → v = t + (burstLen - p)
  words : ∀ j, p ≤ j → j < burstLen → (b v).mBuffer j = m (t + (j - p))
  quiet : ∀ u, t < u → u < v → (m u).cmd = .idle
  free : ∀ k, k < burstLen → t + k < v → (b (t + k)).free = true

theorem Enroute.head (h : Enroute burstLen b m t v p) : (b v).mBuffer p = m t := by
  rw [h.words p (Nat.le_refl p) h.bound, Nat.sub_self, Nat.add_zero]

variable (hlen : 0 < burstLen) (hb : ∀ t, b (t + 1) = (b t).next burstLen (m t) (s t))
  (halone : ∀ v p, p < burstLen → ((b v).mBuffer p).cmd ≠ .idle →
    (∀ j, j < burstLen → j ≠ p → ((b v).mBuffer j).cmd = .idle) ∧ (m v).cmd = .idle)

include hb in
theorem mBuffer_of_shift (h : (b v).free = true ∨ (s v).cmdAccept = true) (j : ℕ) :
    (b (v + 1)).mBuffer j = if j + 1 < burstLen then (b v).mBuffer (j + 1) else m v := by
  rw [hb]
  exact Buffer.next_of_shift h j

section

include hlen hb

theorem Enroute.of_accepted (hcmd : (m t).cmd ≠ .idle) (hfree : (b t).free = true) :
    Enroute burstLen b m t (t + 1) (burstLen - 1) where
  bound := Nat.sub_one_lt_of_lt hlen
  cmd := hcmd
  moved := by omega
  moving := by omega
  words := by
    intro j hpj hj
    rw [mBuffer_of_shift hb (.inl hfree), if_neg (by omega), Nat.sub_eq_zero_of_le (by omega),
      Nat.add_zero]
  quiet := by
    intro u htu hut
    omega
  free := by
    intro k _ hk
    have hzero : k = 0 := by omega
    subst hzero
    exact hfree

include halone

/-- Until it is taken, a command moves up and then waits in the first place. -/
theorem Enroute.next (h : Enroute burstLen b m t v p) (htaken : ¬ (b v).Taken (s v)) :
    ∃ q, Enroute burstLen b m t (v + 1) q := by
  have hcmd : ((b v).mBuffer p).cmd ≠ .idle := h.head ▸ h.cmd
  obtain ⟨hothers, hidle⟩ := halone v p h.bound hcmd
  have hquiet : ∀ u, t < u → u < v + 1 → (m u).cmd = .idle := by
    intro u htu hu
    rcases Nat.lt_succ_iff_lt_or_eq.mp hu with hlt | rfl
    · exact h.quiet u htu hlt
    · exact hidle
  have hmoved := h.moved
  rcases Nat.eq_zero_or_pos p with rfl | hpos
  · refine ⟨0, h.bound, h.cmd, by omega, fun hp => absurd hp (Nat.lt_irrefl 0), ?_, hquiet, ?_⟩
    · rw [hb, Buffer.next_of_wait hcmd htaken]
      exact h.words
    · intro k hk hkv
      exact h.free k hk (by omega)
  · have hfree : (b v).free = true := beq_iff_eq.mpr (hothers 0 hlen (Nat.ne_of_lt hpos))
    have hv := h.moving hpos
    have hbound := h.bound
    refine ⟨p - 1, by omega, h.cmd, by omega, by omega, ?_, hquiet, ?_⟩
    · intro j hpj hj
      rw [mBuffer_of_shift hb (.inl hfree)]
      split
      · rw [h.words (j + 1) (by omega) ‹_›, show j + 1 - p = j - (p - 1) by omega]
      · rw [show v = t + (j - (p - 1)) by omega]
    · intro k hk hkv
      rcases Nat.lt_succ_iff_lt_or_eq.mp hkv with hlt | heq
      · exact h.free k hk hlt
      · rw [heq]
        exact hfree

theorem enroute_of_accepted (hcmd : (m t).cmd ≠ .idle) (hfree : (b t).free = true) (htv : t < v)
    (hnot : ∀ u, t < u → u < v → ¬ (b u).Taken (s u)) : ∃ p, Enroute burstLen b m t v p := by
  induction v, htv using Nat.le_induction with
  | base => exact ⟨_, .of_accepted hlen hb hcmd hfree⟩
  | succ v htv ih =>
    obtain ⟨p, hp⟩ := ih fun u htu huv => hnot u htu (Nat.lt_succ_of_lt huv)
    exact hp.next hlen hb halone (hnot v htv (Nat.lt_succ_self v))

/-- A command in a buffer was accepted. -/
theorem exists_accepted (hreset : ∀ j, ((b 0).mBuffer j).cmd = .idle) (hp : p < burstLen)
    (hcmd : ((b v).mBuffer p).cmd ≠ .idle) :
    ∃ t, t < v ∧ ((m t).cmd ≠ .idle ∧ (b t).free = true) ∧
      ∀ u, t < u → u < v → ¬ (b u).Taken (s u) := by
  induction v generalizing p with
  | zero => exact absurd (hreset p) hcmd
  | succ v ih =>
    by_cases htaken : (b v).Taken (s v)
    · -- nothing is behind a command that is taken
      obtain ⟨hothers, hidle⟩ := halone v 0 hlen htaken.1
      rw [mBuffer_of_shift hb (.inr htaken.2)] at hcmd
      split at hcmd
      · exact absurd (hothers (p + 1) ‹_› (Nat.succ_ne_zero p)) hcmd
      · exact absurd hidle hcmd
    · by_cases hold : ∃ q, q < burstLen ∧ ((b v).mBuffer q).cmd ≠ .idle
      · obtain ⟨q, hq, hcmd'⟩ := hold
        obtain ⟨t, htv, hacc, hnot⟩ := ih hq hcmd'
        refine ⟨t, Nat.lt_succ_of_lt htv, hacc, ?_⟩
        intro u htu hu
        rcases Nat.lt_succ_iff_lt_or_eq.mp hu with hlt | rfl
        · exact hnot u htu hlt
        · exact htaken
      · have hidle : ∀ q, q < burstLen → ((b v).mBuffer q).cmd = .idle := by
          intro q hq
          by_contra hne
          exact hold ⟨q, hq, hne⟩
        have hfree : (b v).free = true := beq_iff_eq.mpr (hidle 0 hlen)
        rw [mBuffer_of_shift hb (.inl hfree)] at hcmd
        split at hcmd
        · exact absurd (hidle (p + 1) ‹_›) hcmd
        · refine ⟨v, Nat.lt_succ_self v, ⟨hcmd, hfree⟩, ?_⟩
          intro u hvu hu
          exact absurd hu (Nat.not_lt.mpr hvu)

end

end Way

section Turns

variable {cnt burstLen : ℕ} {y : ℕ → Bus cnt} {tr : ℕ → Cycle cnt} {i : Fin cnt} {t v p : ℕ}

variable (hlen : 2 ≤ burstLen) (hy : ∀ t, y (t + 1) = Bus.next burstLen (y t) (tr t))
  (hinv : ∀ t, Bus.Inv burstLen (y t)) (hleg : ∀ t, Bus.Legal (y t) (tr t))

include hy in
theorem next_buffer (i : Fin cnt) (t : ℕ) : (y (t + 1)).arb.masterBuffer i =
    ((y t).arb.masterBuffer i).next burstLen ((tr t).master i) (portS (y t).arb (tr t).slave i) :=
  hy t ▸ rfl

/-- The slave takes the command of master `i`. -/
theorem buffer_taken (htaken : (y v).taken (tr v)) (hturn : (y v).arb.turnReg = i) :
    ((y v).arb.masterBuffer i).Taken (portS (y v).arb (tr v).slave i) :=
  Bus.taken_iff.mpr ⟨htaken, hturn⟩

section

include hlen hinv hleg

theorem alone (i : Fin cnt) (v p : ℕ) (hp : p < burstLen)
    (hcmd : (((y v).arb.masterBuffer i).mBuffer p).cmd ≠ .idle) :
    (∀ j, j < burstLen → j ≠ p → (((y v).arb.masterBuffer i).mBuffer j).cmd = .idle) ∧
      ((tr v).master i).cmd = .idle :=
  ((hinv v).place i).alone hlen ((hleg v).master i) hp hcmd

include hy

/-- While the words of a write come, nothing is answered and the turn stays. -/
theorem write_burst (hwr : (toSlave (y v).arb).cmd = .wr) (htaken : (y v).taken (tr v))
    (hturn : (y v).arb.turnReg = i) {k : ℕ} (hk : k + 1 < burstLen) :
    (y (v + (k + 1))).owner = i ∧ (y (v + (k + 1))).due = 1 ∧
      (y (v + (k + 1))).words = burstLen - (k + 1) ∧
      ∀ j, j + (k + 1) < burstLen → ((y (v + (k + 1))).arb.masterBuffer i).mBuffer j =
        ((y v).arb.masterBuffer i).mBuffer (j + (k + 1)) := by
  have hpos : 0 < burstLen := Nat.lt_of_lt_of_le Nat.two_pos hlen
  have hbuf := buffer_taken htaken hturn
  have hbehind := (alone hlen hinv hleg i v 0 hpos hbuf.1).1
  induction k with
  | zero =>
    obtain ⟨howner, hdue, hwords⟩ := Bus.next_of_taken (hy v) htaken
    rw [hwr] at hdue hwords
    refine ⟨howner.trans hturn, hdue, hwords, ?_⟩
    intro j hj
    rw [next_buffer hy, Buffer.next_of_shift (.inr hbuf.2), if_pos hj]
  | succ k ih =>
    obtain ⟨howner, hdue, hwords, hplace⟩ := ih (Nat.lt_of_succ_lt hk)
    have hfree : ((y (v + (k + 1))).arb.masterBuffer i).free = true := by
      rw [Buffer.free, hplace 0 (by omega)]
      exact beq_iff_eq.mpr (hbehind _ (by omega) (by omega))
    have hnone : ¬ (y (v + (k + 1))).taken (tr (v + (k + 1))) :=
      Bus.not_taken_of_cmd ((hinv _).cmd_of_due hpos (Nat.lt_of_lt_of_eq Nat.one_pos hdue.symm))
    have hresp : (tr (v + (k + 1))).slave.resp = .null := by
      by_contra hne
      have hlast := ((hleg _).resp hne).2.2
      omega
    rw [← Nat.add_assoc v]
    refine ⟨(Bus.next_owner (hy _) hnone).trans howner, ?_, ?_, ?_⟩
    · rw [Bus.next_due (hy _) hnone, hresp, hdue]
      rfl
    · rw [Bus.next_words (hy _) hnone, hwords]
      omega
    · intro j hj
      rw [next_buffer hy, Buffer.next_of_shift (.inl hfree), if_pos (by omega),
        hplace (j + 1) (by omega), show j + 1 + (k + 1) = j + (k + 1 + 1) by omega]

/-- What is shown to the slave in the turn of master `i` is the command in its buffer. -/
theorem enroute_of_shown (hcmd : ((tr t).master i).cmd ≠ .idle)
    (hfree : ((y t).arb.masterBuffer i).free = true) (htv : t < v)
    (hnot : ∀ u, t < u → u < v → ¬ ((y u).taken (tr u) ∧ (y u).arb.turnReg = i))
    (hturn : (y v).arb.turnReg = i) (hshown : (toSlave (y v).arb).cmd ≠ .idle) :
    Enroute burstLen (fun t => (y t).arb.masterBuffer i) (fun t => (tr t).master i) t v 0 := by
  have hpos : 0 < burstLen := Nat.lt_of_lt_of_le Nat.two_pos hlen
  subst hturn
  have halone := alone hlen hinv hleg (y v).arb.turnReg
  obtain ⟨p, hway⟩ := enroute_of_accepted hpos (next_buffer hy _) halone hcmd hfree htv
    fun u htu huv h => hnot u htu huv (Bus.taken_iff.mp h)
  have hp : p = 0 := by
    by_contra hne
    exact hway.cmd (hway.head ▸ (halone v 0 hpos hshown).1 p hway.bound hne)
  exact hp ▸ hway

/-! ### The turn goes round -/

omit hleg in
/-- While answers are due, each comes off the account and the turn stays until the last. -/
theorem due_succ {n : ℕ} (hdue : (y t).due = n + 1) :
    (y (t + 1)).due = n + 1 - beat (tr t).slave.resp ∧
      (0 < (y (t + 1)).due → (y (t + 1)).arb.turnReg = (y t).arb.turnReg) := by
  have hpos : 0 < (y t).due := hdue ▸ Nat.succ_pos n
  have hnone : ¬ (y t).taken (tr t) :=
    Bus.not_taken_of_cmd ((hinv t).cmd_of_due (Nat.lt_of_lt_of_le Nat.two_pos hlen) hpos)
  refine ⟨hdue ▸ Bus.next_due (hy t) hnone, fun hpos' => ?_⟩
  exact ((hinv (t + 1)).phase.owner_of_due hpos').symm.trans
    ((Bus.next_owner (hy t) hnone).trans ((hinv t).phase.owner_of_due hpos))

variable (hresp : ∀ t, 0 < (y t).due → ∃ u, t ≤ u ∧ (tr u).slave.resp ≠ .null)
  (haccept : ∀ t, (toSlave (y t).arb).cmd ≠ .idle → ∃ u, t ≤ u ∧ (tr u).slave.cmdAccept = true)

omit hlen in
theorem turn_of_last (hdue : (y t).due = 1) (hbeat : (tr t).slave.resp ≠ .null) :
    (y (t + 1)).arb.turnReg = RoundRobin.succ (y t).arb.turnReg := by
  have hdva := ((hleg t).resp hbeat).1
  refine (congrArg (·.1) (Bus.next_ctrl (hy t))).trans ?_
  cases (hinv t).phase with
  | idle _ hzero _ | ask _ _ hzero _ => exact absurd (hzero.symm.trans hdue) zero_ne_one
  | read n hctrl _ hcnt _ =>
    have hlast : n = burstLen - 1 := by omega
    simp only [State.ctrl, Prod.mk.injEq] at hctrl
    simp [ctrlNext, hctrl, hdva, hlast]
  | write hctrl _ =>
    rw [State.ctrlNext_of_write hctrl hdva]
    exact congrArg (RoundRobin.succ ·.1) hctrl.symm

section

include hresp

omit hleg in
theorem exists_answer {n : ℕ} (hdue : (y t).due = n + 1) :
    ∃ u, t ≤ u ∧ ((y u).due = n + 1 ∧ (y u).arb.turnReg = (y t).arb.turnReg) ∧
      (tr u).slave.resp ≠ .null := by
  refine holds_until ⟨hdue, rfl⟩ ?_ (hresp t (hdue ▸ Nat.succ_pos n))
  rintro v - ⟨hsame, hturn⟩ hnone
  obtain ⟨hdue', hkept⟩ := due_succ hlen hy hinv hsame
  rw [not_not.mp hnone, beat_null, Nat.sub_zero] at hdue'
  exact ⟨hdue', (hkept (hdue' ▸ Nat.succ_pos n)).trans hturn⟩

/-- A transaction ends, and the turn moves on. -/
theorem turn_of_due {n : ℕ} (hdue : (y t).due = n + 1) :
    ∃ u, t < u ∧ (y u).arb.turnReg = RoundRobin.succ (y t).arb.turnReg := by
  induction n generalizing t with
  | zero =>
    obtain ⟨u, htu, ⟨hone, hturn⟩, hbeat⟩ := exists_answer hlen hy hinv hresp hdue
    refine ⟨u + 1, Nat.lt_succ_of_le htu, ?_⟩
    rw [turn_of_last hy hinv hleg hone hbeat, hturn]
  | succ n ih =>
    obtain ⟨u, htu, ⟨hmore, hturn⟩, hbeat⟩ := exists_answer hlen hy hinv hresp hdue
    obtain ⟨hless, hkept⟩ := due_succ hlen hy hinv hmore
    rw [beat, if_neg hbeat] at hless
    obtain ⟨w, huw, hw⟩ := ih hless
    refine ⟨w, by omega, ?_⟩
    rw [hw, hkept (hless ▸ Nat.succ_pos n), hturn]

end

theorem stays_of_wait (hcmd : (toSlave (y t).arb).cmd ≠ .idle)
    (hwait : (tr t).slave.cmdAccept = false) :
    (y (t + 1)).arb.turnReg = (y t).arb.turnReg ∧
      toSlave (y (t + 1)).arb = toSlave (y t).arb := by
  have hturn := (hinv t).turn_of_cmd (Nat.lt_of_lt_of_le Nat.two_pos hlen) (hleg t) (hy t) hcmd
  refine ⟨hturn, Bus.toSlave_next (hy t) hcmd (fun htaken => ?_) hturn⟩
  exact absurd htaken.2 (Bool.eq_false_iff.mp hwait)

include haccept

theorem taken_of_cmd (hcmd : (toSlave (y t).arb).cmd ≠ .idle) :
    ∃ u, t ≤ u ∧ (y u).taken (tr u) ∧ (y u).arb.turnReg = (y t).arb.turnReg := by
  obtain ⟨u, htu, ⟨hshown, hturn⟩, hu⟩ := holds_until
    (J := fun u => (toSlave (y u).arb).cmd ≠ .idle ∧ (y u).arb.turnReg = (y t).arb.turnReg)
    ⟨hcmd, rfl⟩
    (by
      rintro v - ⟨hshown, hturn⟩ hwait
      obtain ⟨hsame, hslave⟩ :=
        stays_of_wait hlen hy hinv hleg hshown (Bool.not_eq_true _ ▸ hwait)
      rw [hslave, hsame]
      exact ⟨hshown, hturn⟩)
    (haccept t hcmd)
  exact ⟨u, htu, ⟨hshown, hu⟩, hturn⟩

include hresp

theorem turn_moves (t : ℕ) :
    ∃ u, t < u ∧ (y u).arb.turnReg = RoundRobin.succ (y t).arb.turnReg := by
  rcases hdue : (y t).due with _ | n
  · by_cases hcmd : (toSlave (y t).arb).cmd = .idle
    · refine ⟨t + 1, Nat.lt_succ_self t, (congrArg (·.1) (Bus.next_ctrl (hy t))).trans ?_⟩
      cases (hinv t).phase with
      | idle hctrl _ _ => rw [State.ctrlNext_of_idle hctrl hcmd]
      | ask _ hne _ _ => exact absurd hcmd hne
      | read _ _ hpos _ _ => exact absurd hdue (ne_of_gt hpos)
      | write _ hone => exact absurd (hdue.symm.trans hone) zero_ne_one
    · obtain ⟨u, htu, htaken, hturn⟩ := taken_of_cmd hlen hy hinv hleg haccept hcmd
      have hdue' := (Bus.next_of_taken (hy u) htaken).2.1
      obtain ⟨n, hn⟩ := Nat.exists_eq_succ_of_ne_zero fun h => htaken.1 (answers_eq_zero hlen h)
      obtain ⟨w, huw, hw⟩ := turn_of_due hlen hy hinv hleg hresp (hdue'.trans hn)
      refine ⟨w, by omega, ?_⟩
      rw [hw, (hinv u).turn_of_cmd (Nat.lt_of_lt_of_le Nat.two_pos hlen) (hleg u) (hy u) htaken.1,
        hturn]
  · exact turn_of_due hlen hy hinv hleg hresp hdue

theorem exists_turn (i : Fin cnt) (t : ℕ) : ∃ u, t ≤ u ∧ (y u).arb.turnReg = i := by
  -- by induction on the turns until that of `i`
  generalize hd : RoundRobin.dist (y t).arb.turnReg i = d
  induction d generalizing t with
  | zero => exact ⟨t, le_refl t, RoundRobin.eq_of_dist_eq (hd.trans RoundRobin.dist_self.symm)⟩
  | succ d ih =>
    have hne : (y t).arb.turnReg ≠ i := by
      intro heq
      rw [heq, RoundRobin.dist_self] at hd
      exact absurd hd.symm (Nat.succ_ne_zero d)
    obtain ⟨w, htw, hw⟩ := turn_moves hlen hy hinv hleg hresp haccept t
    have hdist := RoundRobin.dist_succ hne
    obtain ⟨u, hwu, hu⟩ := ih w (by rw [hw]; omega)
    exact ⟨u, by omega, hu⟩

/-- A command that is accepted from a master is taken by the slave. -/
theorem exists_taken (hcmd : ((tr t).master i).cmd ≠ .idle)
    (hfree : ((y t).arb.masterBuffer i).free = true) :
    ∃ w, t < w ∧ (y w).taken (tr w) ∧ (y w).arb.turnReg = i := by
  by_contra hnever
  have hnot : ∀ u, t < u → ¬ ((y u).taken (tr u) ∧ (y u).arb.turnReg = i) :=
    fun u htu htaken => hnever ⟨u, htu, htaken⟩
  -- after a burst the command is in the first place, and there it is shown in its turn
  obtain ⟨u, htu, hturn⟩ := exists_turn hlen hy hinv hleg hresp haccept i (t + burstLen)
  obtain ⟨p, hway⟩ := enroute_of_accepted (Nat.lt_of_lt_of_le Nat.two_pos hlen)
    (next_buffer hy i) (alone hlen hinv hleg i) hcmd hfree (v := u) (by omega)
    fun v htv _ h => hnot v htv (Bus.taken_iff.mp h)
  have hfirst : p = 0 := by
    by_contra hne
    have hmoving := hway.moving (Nat.pos_of_ne_zero hne)
    have hbound := hway.bound
    omega
  subst hfirst hturn
  obtain ⟨w, huw, htaken⟩ := taken_of_cmd hlen hy hinv hleg haccept (t := u)
    fun h => hway.cmd ((congrArg BurstMaster.cmd hway.head).symm.trans h)
  exact hnot w (by omega) htaken

end

end Turns

/-! ### Every run -/

section

variable {cnt burstLen : ℕ} {y₀ : Bus cnt} {tr : ℕ → Cycle cnt} {i : Fin cnt} {t v : ℕ}

/-- The command that the slave takes from master `i` is the one in its buffer. -/
theorem serves_of_taken (hlen : 2 ≤ burstLen)
    (hinv : ∀ t, Bus.Inv burstLen (busAt burstLen y₀ tr t))
    (hleg : ∀ t, Bus.Legal (busAt burstLen y₀ tr t) (tr t)) (h : Accepted burstLen y₀ tr i t)
    (htv : t < v) (hnot : ∀ u, t < u → u < v → ¬ Taken burstLen y₀ tr i u)
    (htaken : Taken burstLen y₀ tr i v) : Serves burstLen y₀ tr i t v := by
  have hpos : 0 < burstLen := Nat.lt_of_lt_of_le Nat.two_pos hlen
  have hy : ∀ t, busAt burstLen y₀ tr (t + 1) = Bus.next burstLen (busAt burstLen y₀ tr t) (tr t) :=
    fun _ => rfl
  obtain ⟨hshown, hturn⟩ := htaken
  have hway := enroute_of_shown hlen hy hinv hleg h.1 h.2 htv hnot hturn hshown.1
  subst hturn
  have hcommand : slaveM burstLen y₀ tr v = (tr t).master _ := hway.head
  have hmoved := hway.moved
  refine ⟨h, ⟨hshown, rfl⟩, htv, ?_, hnot, hcommand, ?_⟩
  · intro u htu huv hacc
    rcases Nat.lt_or_eq_of_le huv with hlt | rfl
    · exact hacc.1 (hway.quiet u htu hlt)
    · exact hacc.1 (alone hlen hinv hleg _ _ 0 hpos hshown.1).2
  · intro hwr k hk
    have hwr' : (slaveM burstLen y₀ tr v).cmd = .wr := hcommand ▸ hwr
    refine ⟨hway.free k hk (by omega), ?_⟩
    rcases k with _ | k
    · exact ⟨hcommand, (hleg v).first hwr' hshown.2⟩
    · obtain ⟨howner, hdue, hwords, hplace⟩ := write_burst hlen hy hinv hleg hwr' hshown rfl hk
      have hturn := (hinv _).phase.owner_of_due (Nat.lt_of_lt_of_eq Nat.one_pos hdue.symm)
      constructor
      · rw [slaveM, toSlave, ← hturn, howner, hplace 0 (by omega), Nat.zero_add]
        exact hway.words (k + 1) (Nat.zero_le _) hk
      · exact (hleg _).more (by omega)

/-- The arbiter is transparent. -/
theorem transparent {k : ℕ} (hk : 1 ≤ k) (hpow : burstLen = 2 ^ k) (hreset : y₀.IsReset)
    (hleg : ∀ t, Bus.Legal (busAt burstLen y₀ tr t) (tr t)) : Transparent burstLen y₀ tr := by
  have hlen : 2 ≤ burstLen := hpow ▸ Nat.le_self_pow (Nat.ne_of_gt hk) 2
  have hpos : 0 < burstLen := Nat.lt_of_lt_of_le Nat.two_pos hlen
  have hinv : ∀ t, Bus.Inv burstLen (busAt burstLen y₀ tr t) :=
    inv_stateAt (P := Bus.Legal) (fun _ _ h hl => h.next hl rfl hk hpow) hreset.inv hleg
  have hy : ∀ t, busAt burstLen y₀ tr (t + 1) = Bus.next burstLen (busAt burstLen y₀ tr t) (tr t) :=
    fun _ => rfl
  have hshown : ∀ {i w}, turnAt burstLen y₀ tr w = i → (slaveM burstLen y₀ tr w).cmd ≠ .idle →
      ∃ t, t < w ∧ Accepted burstLen y₀ tr i t ∧
        ∀ u, t < u → u < w → ¬ Taken burstLen y₀ tr i u := by
    rintro i w rfl hcmd
    obtain ⟨t, htw, hacc, hnot⟩ := exists_accepted hpos (next_buffer hy _)
      (alone hlen hinv hleg _) (hreset.mBuffer _) hpos hcmd
    exact ⟨t, htw, hacc, fun u htu huw h => hnot u htu huw (Bus.taken_iff.mpr h)⟩
  constructor
  · intro i w htaken
    obtain ⟨t, htw, hacc, hnot⟩ := hshown htaken.2 htaken.1.1
    exact ⟨t, serves_of_taken hlen hinv hleg hacc htw hnot htaken⟩
  · intro hresp i t hacc
    classical
    have hex : ∃ w, t < w ∧ Taken burstLen y₀ tr i w :=
      exists_taken hlen hy hinv hleg hresp.answers hresp.accepts hacc.1 hacc.2
    obtain ⟨htw, htaken⟩ := Nat.find_spec hex
    refine ⟨Nat.find hex, serves_of_taken hlen hinv hleg hacc htw ?_ htaken⟩
    intro u htu huw htaken'
    exact Nat.find_min hex huw ⟨htu, htaken'⟩
  · intro w hcmd
    obtain ⟨t, htw, hacc, hnot⟩ := hshown rfl hcmd
    refine ⟨t, htw, hacc, ?_, hnot⟩
    exact (enroute_of_shown hlen hy hinv hleg hacc.1 hacc.2 htw hnot rfl hcmd).head
  · intro t hcmd
    exact (hinv t).due_of_cmd hpos hcmd
  · intro t hcmd hwait
    exact stays_of_wait hlen hy hinv hleg hcmd hwait
  · intro i t
    exact (hinv t).portS_resp (hleg t) i
  · intro i t _
    change (portS _ _ i).data = _
    rw [portS]
    split <;> rfl

end

/-! ### A run -/

instance {cnt : Nat} (y : Bus cnt) (c : Cycle cnt) : Decidable (Bus.Legal y c) :=
  decidable_of_iff (_ ∧ _ ∧ _ ∧ _)
    ⟨fun ⟨a, b, c, d⟩ => ⟨a, b, c, d⟩, fun ⟨a, b, c, d⟩ => ⟨a, b, c, d⟩⟩

def noRequest : BurstMaster := ⟨.idle, 0, fun _ => 0, false, noBytes⟩

/-- Two masters and a burst of two words, after reset. -/
def powerUp {cnt : ℕ} [NeZero cnt] : Bus cnt :=
  ⟨⟨0, 0, .idle, fun _ => ⟨fun _ => noRequest, ⟨.null, fun _ => 0, false, false⟩⟩⟩, 0, 0, 0,
    fun _ => 0⟩

def cycleOf (m₀ m₁ : BurstMaster) (resp : OcpResp) (accept : Bool) : Cycle 2 :=
  ⟨![m₀, m₁], ⟨resp, fun _ => 5, accept, true⟩⟩

/-- Master 0 writes and master 1 reads in cycle 0; the slave accepts at once, and answers from
    the cycle after the last word on. -/
def bothAsk : ℕ → Cycle 2 :=
  thenIdle (cycleOf noRequest noRequest .null false)
  [cycleOf ⟨.wr, 8, fun _ => 1, true, allBytes⟩ ⟨.rd, 16, fun _ => 0, false, noBytes⟩ .null false,
    cycleOf ⟨.idle, 0, fun _ => 2, true, allBytes⟩ noRequest .null false,
    cycleOf noRequest noRequest .null true, cycleOf noRequest noRequest .null false,
    cycleOf noRequest noRequest .dva false, cycleOf noRequest noRequest .null true,
    cycleOf noRequest noRequest .dva false, cycleOf noRequest noRequest .dva false]

theorem bothAsk_legal (t : ℕ) : Bus.Legal (busAt 2 powerUp bothAsk t) (bothAsk t) := by
  rcases lt_or_ge t 8 with hlt | hge
  · have hfirst : ∀ u < 8, Bus.Legal (busAt 2 powerUp bothAsk u) (bothAsk u) := by decide +kernel
    exact hfirst t hlt
  · have hidle : bothAsk t = cycleOf noRequest noRequest .null false := by
      rw [bothAsk, thenIdle, List.getD_eq_getElem?_getD, List.getElem?_eq_none hge]
      rfl
    rw [hidle]
    constructor
    · intro i hcmd
      fin_cases i <;> exact absurd rfl hcmd
    · intro hresp
      exact absurd rfl hresp
    · intro _ _
      rfl
    · intro _
      rfl

theorem bothAsk_transparent :
    (powerUp : Bus 2).IsReset ∧ (slaveM 2 powerUp bothAsk 3).data 0 = 2 ∧
      (slaveM 2 powerUp bothAsk 5).addr = 16 ∧ (masterS 2 powerUp bothAsk 1 8).resp = .dva ∧
      Transparent 2 powerUp bothAsk := by
  have hreset : (powerUp : Bus 2).IsReset :=
    ⟨rfl, rfl, rfl, fun _ _ => rfl, fun _ => rfl, rfl, rfl, fun _ => rfl⟩
  exact ⟨hreset, by decide +kernel, by decide +kernel, by decide +kernel,
    transparent (k := 1) (le_refl 1) rfl hreset bothAsk_legal⟩

end Patmos.Arbiter
