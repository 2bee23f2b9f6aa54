import Mathlib.Data.Nat.Size
import Patmos.Clocked
import Patmos.Ocp

/-!
# The priority join of two burst ports

`OcpBurstPriorityJoin` puts the instruction cache (`left`) and the data cache (`right`) on
one burst slave.  A port that shows a command is marked as pending, whether or not the slave
accepts it in that cycle, and stays so until `pendingRespReg` has counted the answers; the
other port is not accepted meanwhile.  When both show a command to a join that serves
nobody, `left` goes first.

Ledgers beside the circuit keep which commands wait to be accepted, how many answers each
port waits for, and how many the slave owes to which port.
-/

namespace Patmos.OcpBurstPriorityJoin

open Ocp Clocked

/-! ### The circuit -/

structure State where
  leftPendingReg : Bool
  rightPendingReg : Bool
  pendingRespReg : Nat

/-- What comes in at the three ports in a cycle. -/
structure Cycle where
  left : BurstMaster
  right : BurstMaster
  joined : BurstSlave

def selLeft (c : Cycle) : Bool := c.left.cmd != .idle

def selRight (c : Cycle) : Bool := c.right.cmd != .idle

/-- The request of the left port is forwarded. -/
def forwardLeft (s : State) (c : Cycle) : Bool := selLeft c && !s.rightPendingReg

/-- The request of the right port is forwarded. -/
def forwardRight (s : State) (c : Cycle) : Bool :=
  selRight c && (!selLeft c && !s.leftPendingReg)

/-- `joined.M`. -/
def joinedM (s : State) (c : Cycle) : BurstMaster :=
  if forwardRight s c then c.right
  else if forwardLeft s c then c.left
  else if s.rightPendingReg then c.right else c.left

/-- `left.S`. -/
def leftS (s : State) (c : Cycle) : BurstSlave :=
  { resp := if s.leftPendingReg then c.joined.resp else .null
    data := c.joined.data
    cmdAccept := if s.rightPendingReg then false else c.joined.cmdAccept
    dataAccept := if s.rightPendingReg then false else c.joined.dataAccept }

/-- `right.S`. -/
def rightS (s : State) (c : Cycle) : BurstSlave :=
  { resp := if s.rightPendingReg then c.joined.resp else .null
    data := c.joined.data
    cmdAccept := if forwardLeft s c then false
      else if s.leftPendingReg then false else c.joined.cmdAccept
    dataAccept := if forwardLeft s c then false
      else if s.leftPendingReg then false else c.joined.dataAccept }

/-- The number of responses to a command. -/
def responses (burstLength : Nat) (k : OcpCmd) : Nat := if k = .wr then 1 else burstLength

/-- The value below `n` in a register that holds the burst length. -/
def decrement (burstLength n : Nat) : Nat :=
  (n + (2 ^ burstLength.size - 1)) % 2 ^ burstLength.size

theorem decrement_of_pos {burstLength n : Nat} (hpos : 0 < n) (hle : n ≤ burstLength) :
    decrement burstLength n = n - 1 := by
  have hlt : n < 2 ^ burstLength.size := lt_of_le_of_lt hle (Nat.lt_size_self burstLength)
  have hsum : n + (2 ^ burstLength.size - 1) = n - 1 + 2 ^ burstLength.size := by omega
  rw [decrement, hsum, Nat.add_mod_right, Nat.mod_eq_of_lt (by omega)]

def next (burstLength : Nat) (s : State) (c : Cycle) : State :=
  let last := c.joined.resp ≠ .null ∧ s.pendingRespReg = 1
  { leftPendingReg := if last ∧ s.leftPendingReg then false
      else if forwardLeft s c then true else s.leftPendingReg
    rightPendingReg := if last ∧ s.rightPendingReg then false
      else if forwardRight s c then true else s.rightPendingReg
    pendingRespReg := if c.joined.resp ≠ .null then decrement burstLength s.pendingRespReg
      else if forwardRight s c then responses burstLength c.right.cmd
      else if forwardLeft s c then responses burstLength c.left.cmd
      else s.pendingRespReg }

/-! ### Masters and slave -/

inductive Port where
  | left
  | right
deriving DecidableEq, Repr

def Port.other : Port → Port
  | .left => .right
  | .right => .left

/-- What master `p` drives. -/
def Cycle.master (c : Cycle) : Port → BurstMaster
  | .left => c.left
  | .right => c.right

/-- The join with its ledgers: the command and address that master `p` showed in the last
    cycle without being accepted (`OcpCmd.idle` for none), the answers it waits for, the
    answers the slave owes and the port it owes them to. -/
structure Bus where
  join : State
  asked : Port → OcpCmd × Nat
  left : Port → Nat
  owner : Port
  due : Nat

namespace Bus

/-- What master `p` sees. -/
def toMaster (y : Bus) (c : Cycle) : Port → BurstSlave
  | .left => leftS y.join c
  | .right => rightS y.join c

def pending (y : Bus) : Port → Bool
  | .left => y.join.leftPendingReg
  | .right => y.join.rightPendingReg

/-- A command of master `p` is accepted. -/
def accepted (y : Bus) (c : Cycle) (p : Port) : Prop :=
  (c.master p).cmd ≠ .idle ∧ (y.toMaster c p).cmdAccept = true

instance (y : Bus) (c : Cycle) (p : Port) : Decidable (y.accepted c p) := instDecidableAnd

/-- The slave accepts a command. -/
def taken (y : Bus) (c : Cycle) : Prop :=
  (joinedM y.join c).cmd ≠ .idle ∧ c.joined.cmdAccept = true

instance (y : Bus) (c : Cycle) : Decidable (y.taken c) := instDecidableAnd

def next (burstLength : Nat) (y : Bus) (c : Cycle) : Bus :=
  { join := OcpBurstPriorityJoin.next burstLength y.join c
    asked := fun p => if y.accepted c p then (.idle, 0) else ((c.master p).cmd, (c.master p).addr)
    left := fun p => if y.accepted c p then answers burstLength (c.master p).cmd
      else if (y.toMaster c p).resp = .null then y.left p else y.left p - 1
    owner := if y.accepted c .left then .left
      else if y.accepted c .right then .right else y.owner
    due := if y.taken c then answers burstLength (joinedM y.join c).cmd
      else if c.joined.resp = .null then y.due else y.due - 1 }

/-- A master holds a command until it is accepted, and shows a new one when all answers to
    the one before have come; the slave gives no answers but those it owes. -/
structure Legal (y : Bus) (c : Cycle) : Prop where
  hold : ∀ p, (y.asked p).1 ≠ .idle → ((c.master p).cmd, (c.master p).addr) = y.asked p
  single : ∀ p, (c.master p).cmd ≠ .idle → y.left p = 0
  resp : c.joined.resp ≠ .null → 0 < y.due

structure IsReset (y : Bus) : Prop where
  leftPendingReg : y.join.leftPendingReg = false
  rightPendingReg : y.join.rightPendingReg = false
  pendingRespReg : y.join.pendingRespReg = 0
  asked : ∀ p, (y.asked p).1 = .idle
  left : ∀ p, y.left p = 0
  due : y.due = 0

/-- What the join promises in a cycle. -/
structure Lossless (burstLength : Nat) (y : Bus) (c : Cycle) : Prop where
  /-- The slave takes the very command that a port sees accepted, and no other. -/
  command : ∀ p, y.accepted c p → y.taken c ∧ joinedM y.join c = c.master p
  heard : y.taken c → ∃ p, y.accepted c p
  one_accept : ¬ (y.accepted c .left ∧ y.accepted c .right)
  one_resp : (y.toMaster c .left).resp = .null ∨ (y.toMaster c .right).resp = .null
  /-- An answer goes to the port whose command it answers, and to no other. -/
  issuer : c.joined.resp ≠ .null →
    (y.toMaster c y.owner).resp = c.joined.resp ∧ (y.toMaster c y.owner).data = c.joined.data ∧
      (y.toMaster c y.owner.other).resp = .null
  /-- What a port still waits for is what the slave owes it. -/
  waits : ∀ p, y.left p = if y.owner = p then y.due else 0
  /-- The words of a write get to the slave, and its acceptance back. -/
  words : 0 < y.due → joinedM y.join c = c.master y.owner ∧
    (y.toMaster c y.owner).dataAccept = c.joined.dataAccept
  /-- The counter returns to zero with the last answer and at no other time. -/
  counter : y.join.pendingRespReg ≠ 0 ∧ (y.next burstLength c).join.pendingRespReg = 0 ↔
    c.joined.resp ≠ .null ∧ y.due = 1

/-! ### The invariant -/

/-- What the pending flags stand for. -/
inductive Phase (burstLength : Nat) (y : Bus) : Prop where
  | free (hpending : ∀ p, y.pending p = false) (hcount : y.join.pendingRespReg = 0)
      (hdue : y.due = 0)
  /-- Port `p` shows a command that is not accepted yet. -/
  | ask (p : Port) (hpending : y.pending p = true) (hother : y.pending p.other = false)
      (hasked : (y.asked p).1 ≠ .idle)
      (hcount : y.join.pendingRespReg = answers burstLength (y.asked p).1) (hdue : y.due = 0)
  /-- The command of port `p` is being answered. -/
  | serve (p : Port) (hpending : y.pending p = true) (hother : y.pending p.other = false)
      (howner : y.owner = p) (hcount : y.join.pendingRespReg = y.due) (hdue : 0 < y.due)
      (hle : y.due ≤ burstLength)

structure Inv (burstLength : Nat) (y : Bus) : Prop where
  waits : ∀ p, y.left p = if y.owner = p then y.due else 0
  phase : Phase burstLength y

section Cycle

variable {burstLength : Nat} {y : Bus} {c : Cycle} {p : Port}

theorem responses_eq {k : OcpCmd} (hk : k ≠ .idle) :
    responses burstLength k = answers burstLength k := by
  cases k with
  | idle => exact absurd rfl hk
  | wr => rfl
  | rd => rfl

theorem answers_pos (hlen : 0 < burstLength) {k : OcpCmd} (hk : k ≠ .idle) :
    0 < answers burstLength k := by
  cases k with
  | idle => exact absurd rfl hk
  | wr => exact one_pos
  | rd => exact hlen

theorem answers_le (hlen : 0 < burstLength) (k : OcpCmd) : answers burstLength k ≤ burstLength := by
  cases k with
  | idle => exact Nat.zero_le _
  | wr => exact hlen
  | rd => exact Nat.le_refl _

theorem Port.eq_other {p q : Port} (h : q ≠ p) : q = p.other := by
  cases p <;> cases q <;> first | rfl | exact absurd rfl h

/-- The slave is shown what port `p` drives, and port `p` sees the slave accept. -/
structure Shown (y : Bus) (c : Cycle) (p : Port) : Prop where
  joined : joinedM y.join c = c.master p
  cmdAccept : (y.toMaster c p).cmdAccept = c.joined.cmdAccept
  dataAccept : (y.toMaster c p).dataAccept = c.joined.dataAccept
  other : ¬ y.accepted c p.other

/-- The request of port `p` is forwarded. -/
def forward (y : Bus) (c : Cycle) : Port → Bool
  | .left => forwardLeft y.join c
  | .right => forwardRight y.join c

theorem cmd_of_forward (h : y.forward c p = true) : (c.master p).cmd ≠ .idle := by
  cases p <;> simp_all [forward, forwardLeft, forwardRight, selLeft, selRight, Cycle.master]

theorem forward_other (h : y.forward c p = true) : y.forward c p.other = false := by
  cases p <;> simp_all [forward, forwardLeft, forwardRight, Port.other]

/-- A pending port keeps the other one from being forwarded. -/
theorem forward_of_pending (h : y.pending p = true) : y.forward c p.other = false := by
  cases p <;> simp_all [forward, forwardLeft, forwardRight, Port.other, pending]

theorem pending_of_null (hresp : c.joined.resp = .null) :
    (y.next burstLength c).pending p = (y.forward c p || y.pending p) := by
  cases p <;> simp [pending, next, OcpBurstPriorityJoin.next, hresp, forward]

theorem count_of_forward (hresp : c.joined.resp = .null) (h : y.forward c p = true) :
    (y.next burstLength c).join.pendingRespReg = answers burstLength (c.master p).cmd := by
  have hother := forward_other h
  have hcmd : responses burstLength (c.master p).cmd = _ := responses_eq (cmd_of_forward h)
  cases p <;> simp_all [next, OcpBurstPriorityJoin.next, forward, Port.other, Cycle.master]

theorem count_of_null (hresp : c.joined.resp = .null) (h : ∀ q, y.forward c q = false) :
    (y.next burstLength c).join.pendingRespReg = y.join.pendingRespReg := by
  have hl : forwardLeft y.join c = false := h .left
  have hr : forwardRight y.join c = false := h .right
  simp [next, OcpBurstPriorityJoin.next, hresp, hl, hr]

/-- A port that is pending or forwarded is shown, whatever the other one does. -/
theorem shown_of_claim (hother : y.pending p.other = false) (hforward : y.forward c p.other = false)
    (hclaim : y.forward c p = true ∨ y.pending p = true) : Shown y c p := by
  cases p with
  | left =>
    have hr : y.join.rightPendingReg = false := hother
    have hfr : forwardRight y.join c = false := hforward
    have hclaim : forwardLeft y.join c = true ∨ y.join.leftPendingReg = true := hclaim
    constructor
    · simp [joinedM, hfr, hr, Cycle.master]
    · simp [toMaster, leftS, hr]
    · simp [toMaster, leftS, hr]
    · rintro ⟨-, haccept⟩
      rcases hclaim with h | h <;> simp [Port.other, toMaster, rightS, h] at haccept
  | right =>
    have hl : y.join.leftPendingReg = false := hother
    have hfl : forwardLeft y.join c = false := hforward
    have hclaim : forwardRight y.join c = true ∨ y.join.rightPendingReg = true := hclaim
    constructor
    · rcases hclaim with h | h <;> simp [joinedM, hfl, h, Cycle.master]
    · simp [toMaster, rightS, hfl, hl]
    · simp [toMaster, rightS, hfl, hl]
    · rintro ⟨hcmd, haccept⟩
      rcases hclaim with h | h
      · simp_all [Port.other, forwardRight, selLeft, Cycle.master]
      · simp [Port.other, toMaster, leftS, h] at haccept

theorem shown_of_pending (hpending : y.pending p = true) (hother : y.pending p.other = false) :
    Shown y c p := shown_of_claim hother (forward_of_pending hpending) (Or.inr hpending)

/-- When no port is pending, one is forwarded unless none asks. -/
theorem forward_or_idle (hfree : ∀ p, y.pending p = false) :
    (∃ p, y.forward c p = true) ∨ ∀ p, (c.master p).cmd = .idle := by
  have hl : y.join.leftPendingReg = false := hfree .left
  have hr : y.join.rightPendingReg = false := hfree .right
  by_cases hleft : c.left.cmd = .idle
  · by_cases hright : c.right.cmd = .idle
    · refine Or.inr fun p => ?_
      cases p with
      | left => exact hleft
      | right => exact hright
    · exact Or.inl ⟨.right, by simp [forward, forwardRight, selLeft, selRight, hleft, hright, hl]⟩
  · exact Or.inl ⟨.left, by simp [forward, forwardLeft, selLeft, hleft, hr]⟩

theorem not_forward_of_idle (h : ∀ p, (c.master p).cmd = .idle) (q : Port) :
    y.forward c q = false := by
  by_contra hf
  exact cmd_of_forward (Bool.eq_true_of_not_eq_false hf) (h q)

theorem shown_of_idle (hfree : ∀ p, y.pending p = false) (hidle : ∀ p, (c.master p).cmd = .idle) :
    Shown y c .left := by
  have hr : y.join.rightPendingReg = false := hfree .right
  have hfr : forwardRight y.join c = false := not_forward_of_idle (y := y) hidle .right
  constructor
  · simp [joinedM, hfr, hr, Cycle.master]
  · simp [toMaster, leftS, hr]
  · simp [toMaster, leftS, hr]
  · exact fun haccept => haccept.1 (hidle .right)

theorem Shown.accepted_iff (h : Shown y c p) : y.accepted c p ↔ y.taken c := by
  rw [accepted, taken, h.joined, h.cmdAccept]

theorem Shown.accepted_eq (h : Shown y c p) {q : Port} (hq : y.accepted c q) : q = p := by
  by_contra hne
  exact h.other (Port.eq_other hne ▸ hq)

theorem Shown.owner_next (h : Shown y c p) :
    (y.next burstLength c).owner = if y.taken c then p else y.owner := by
  have hp := h.accepted_iff
  have hother := h.other
  cases p with
  | left =>
    by_cases htaken : y.taken c
    · simp [next, htaken, hp.mpr htaken]
    · have hleft : ¬ y.accepted c .left := fun ha => htaken (hp.mp ha)
      have hright : ¬ y.accepted c .right := hother
      simp [next, htaken, hleft, hright]
  | right =>
    have hleft : ¬ y.accepted c .left := hother
    by_cases htaken : y.taken c
    · simp [next, htaken, hp.mpr htaken, hleft]
    · have hright : ¬ y.accepted c .right := fun ha => htaken (hp.mp ha)
      simp [next, htaken, hleft, hright]

/-! #### The phases -/

theorem resp_eq : (y.toMaster c p).resp = if y.pending p then c.joined.resp else .null := by
  cases p <;> rfl

theorem resp_of_pending (h : y.pending p = true) : (y.toMaster c p).resp = c.joined.resp := by
  rw [resp_eq, if_pos h]

theorem resp_of_noPending (h : y.pending p = false) : (y.toMaster c p).resp = .null := by
  rw [resp_eq, h, if_neg Bool.false_ne_true]

theorem Phase.exclusive (h : Phase burstLength y) (c : Cycle) :
    (y.toMaster c .left).resp = .null ∨ (y.toMaster c .right).resp = .null := by
  have hone : y.pending .left = false ∨ y.pending .right = false := by
    cases h with
    | free hpending _ _ => exact Or.inl (hpending .left)
    | ask p _ hother _ _ _ | serve p _ hother _ _ _ _ => cases p with
      | left => exact Or.inr hother
      | right => exact Or.inl hother
  exact hone.imp resp_of_noPending resp_of_noPending

theorem resp_of_null (h : c.joined.resp = .null) : (y.toMaster c p).resp = .null := by
  rw [resp_eq, h, ite_self]

theorem Legal.resp_of_due (h : Legal y c) (hdue : y.due = 0) : c.joined.resp = .null := by
  by_contra hresp
  exact lt_irrefl 0 (hdue ▸ h.resp hresp)

theorem data_of_joined : (y.toMaster c p).data = c.joined.data := by
  cases p <;> rfl

theorem Phase.shown (h : Phase burstLength y) (c : Cycle) : ∃ p, Shown y c p := by
  cases h with
  | free hpending _ _ =>
    rcases forward_or_idle (c := c) hpending with ⟨p, hf⟩ | hidle
    · exact ⟨p, shown_of_claim (hpending _) (forward_other hf) (Or.inl hf)⟩
    · exact ⟨.left, shown_of_idle hpending hidle⟩
  | ask p hpending hother _ _ _ | serve p hpending hother _ _ _ _ =>
    exact ⟨p, shown_of_pending hpending hother⟩

/-- Port `p` shows a command that the join forwards: it becomes or stays pending, and the
    counter is set for the command. -/
structure Forward (burstLength : Nat) (y : Bus) (c : Cycle) (p : Port) : Prop where
  shown : Shown y c p
  cmd : (c.master p).cmd ≠ .idle
  due : y.due = 0
  pending : (y.next burstLength c).pending p = true
  other : (y.next burstLength c).pending p.other = false
  count : (y.next burstLength c).join.pendingRespReg = answers burstLength (c.master p).cmd

theorem forward_of_free (hpending : ∀ p, y.pending p = false) (hdue : y.due = 0)
    (hlegal : Legal y c) (hf : y.forward c p = true) : Forward burstLength y c p := by
  have hresp := hlegal.resp_of_due hdue
  refine ⟨shown_of_claim (hpending _) (forward_other hf) (Or.inl hf), cmd_of_forward hf, hdue,
    ?_, ?_,
    count_of_forward hresp hf⟩
  · rw [pending_of_null hresp, hf, Bool.true_or]
  · rw [pending_of_null hresp, forward_other hf, hpending, Bool.or_false]

/-- While the command of the right port waits, a command of the left one keeps the join from
    setting the counter again; it then still has the value for the command that is held. -/
theorem forward_of_ask (hpending : y.pending p = true) (hother : y.pending p.other = false)
    (hasked : (y.asked p).1 ≠ .idle)
    (hcount : y.join.pendingRespReg = answers burstLength (y.asked p).1) (hdue : y.due = 0)
    (hlegal : Legal y c) : Forward burstLength y c p := by
  have hresp := hlegal.resp_of_due hdue
  have hshown : Shown y c p := shown_of_pending hpending hother
  have hheld : (c.master p).cmd = (y.asked p).1 := congrArg Prod.fst (hlegal.hold p hasked)
  have hforward : y.forward c p.other = false := forward_of_pending hpending
  refine ⟨hshown, hheld ▸ hasked, hdue, ?_, ?_, ?_⟩
  · rw [pending_of_null hresp, hpending, Bool.or_true]
  · rw [pending_of_null hresp, hforward, hother, Bool.or_false]
  · cases hf : y.forward c p with
    | true => exact count_of_forward hresp hf
    | false =>
      have hnone : ∀ q, y.forward c q = false := by
        intro q
        by_cases hq : q = p
        · rw [hq, hf]
        · rw [Port.eq_other hq, hforward]
      rw [count_of_null hresp hnone, hcount, hheld]

variable (h : Inv burstLength y) (hlen : 0 < burstLength) (hlegal : Legal y c)

include h in
theorem left_eq_zero (hdue : y.due = 0) (q : Port) : y.left q = 0 := by
  rw [h.waits q, hdue, ite_self]

include h in
/-- In a cycle without an answer, what is waited for follows the command that is taken. -/
theorem waits_of_shown (hshown : Shown y c p) (hdue : y.due = 0) (hresp : c.joined.resp = .null)
    (q : Port) : (y.next burstLength c).left q =
      if (y.next burstLength c).owner = q then (y.next burstLength c).due else 0 := by
  have hleft : ∀ q, ¬ y.accepted c q → (y.next burstLength c).left q = 0 := by
    intro q hq
    simpa [Bus.next, hq, resp_of_null hresp] using left_eq_zero h hdue q
  rw [hshown.owner_next]
  by_cases htaken : y.taken c
  · rw [if_pos htaken]
    by_cases hq : p = q
    · subst hq
      simp [Bus.next, htaken, hshown.accepted_iff.mpr htaken, hshown.joined]
    · rw [if_neg hq]
      exact hleft q fun ha => hq (hshown.accepted_eq ha).symm
  · have hzero : (y.next burstLength c).due = 0 := by simp [Bus.next, htaken, hresp, hdue]
    rw [hzero, ite_self]
    refine hleft q fun ha => htaken ?_
    exact hshown.accepted_iff.mp (hshown.accepted_eq ha ▸ ha)

include h hlen hlegal in
theorem Inv.step_of_forward (hf : Forward burstLength y c p) :
    Inv burstLength (y.next burstLength c) := by
  have hresp := hlegal.resp_of_due hf.due
  refine ⟨waits_of_shown h hf.shown hf.due hresp, ?_⟩
  by_cases htaken : y.taken c
  · have hdue : (y.next burstLength c).due = answers burstLength (c.master p).cmd := by
      simp [Bus.next, htaken, hf.shown.joined]
    refine .serve p hf.pending hf.other ?_ ?_ ?_ ?_
    · rw [hf.shown.owner_next, if_pos htaken]
    · rw [hf.count, hdue]
    · rw [hdue]
      exact answers_pos hlen hf.cmd
    · rw [hdue]
      exact answers_le hlen _
  · have hasked : ((y.next burstLength c).asked p).1 = (c.master p).cmd := by
      have hnot : ¬ y.accepted c p := fun ha => htaken (hf.shown.accepted_iff.mp ha)
      simp [Bus.next, hnot]
    refine .ask p hf.pending hf.other ?_ ?_ ?_
    · rw [hasked]
      exact hf.cmd
    · rw [hf.count, hasked]
    · simp [Bus.next, htaken, hresp, hf.due]

include h hlegal in
theorem Inv.step_of_quiet (hpending : ∀ p, y.pending p = false) (hcount : y.join.pendingRespReg = 0)
    (hdue : y.due = 0) (hidle : ∀ p, (c.master p).cmd = .idle) :
    Inv burstLength (y.next burstLength c) := by
  have hresp := hlegal.resp_of_due hdue
  have hshown : Shown y c .left := shown_of_idle hpending hidle
  have htaken : ¬ y.taken c := fun ht => ht.1 (hshown.joined ▸ hidle .left)
  have hforward := not_forward_of_idle (y := y) hidle
  refine ⟨waits_of_shown h hshown hdue hresp, .free ?_ ?_ ?_⟩
  · intro q
    rw [pending_of_null hresp, hforward, hpending, Bool.or_false]
  · rw [count_of_null hresp hforward, hcount]
  · simp [Bus.next, htaken, hresp, hdue]

/-! #### Answers -/

/-- Port `p` is being answered. -/
structure Serving (y : Bus) (c : Cycle) (p : Port) : Prop where
  shown : Shown y c p
  taken : ¬ y.taken c
  forward : ∀ q, y.forward c q = false

include h hlegal in
/-- A port that waits for answers shows no command, and the other one is not forwarded. -/
theorem serving_of_due (hpending : y.pending p = true) (hother : y.pending p.other = false)
    (howner : y.owner = p) (hdue : 0 < y.due) : Serving y c p := by
  have hshown : Shown y c p := shown_of_pending hpending hother
  have hidle : (c.master p).cmd = .idle := by
    by_contra hcmd
    have hleft := hlegal.single p hcmd
    rw [h.waits p, if_pos howner] at hleft
    exact ne_of_gt hdue hleft
  refine ⟨hshown, fun ht => ht.1 (hshown.joined ▸ hidle), fun q => ?_⟩
  by_cases hq : q = p
  · by_contra hf
    exact cmd_of_forward (Bool.eq_true_of_not_eq_false hf) (hq ▸ hidle)
  · rw [Port.eq_other hq]
    exact forward_of_pending hpending

theorem Serving.not_accepted (h : Serving y c p) (q : Port) : ¬ y.accepted c q := by
  intro ha
  exact h.taken (h.shown.accepted_iff.mp (h.shown.accepted_eq ha ▸ ha))

theorem Serving.owner (h : Serving y c p) : (y.next burstLength c).owner = y.owner := by
  rw [h.shown.owner_next, if_neg h.taken]

theorem Serving.count_of_resp (hresp : c.joined.resp ≠ .null)
    (hpos : 0 < y.join.pendingRespReg) (hle : y.join.pendingRespReg ≤ burstLength) :
    (y.next burstLength c).join.pendingRespReg = y.join.pendingRespReg - 1 := by
  simpa [Bus.next, OcpBurstPriorityJoin.next, hresp] using decrement_of_pos hpos hle

theorem pending_of_resp (hresp : c.joined.resp ≠ .null) (h : ∀ q, y.forward c q = false)
    (q : Port) :
    (y.next burstLength c).pending q = (y.pending q && decide (y.join.pendingRespReg ≠ 1)) := by
  have hl : forwardLeft y.join c = false := h .left
  have hr : forwardRight y.join c = false := h .right
  cases q <;> by_cases hone : y.join.pendingRespReg = 1 <;>
    simp [pending, next, OcpBurstPriorityJoin.next, hresp, hl, hr, hone]

/-- The flags are kept until the last answer. -/
theorem Serving.pending (h : Serving y c p)
    (hmore : c.joined.resp = .null ∨ y.join.pendingRespReg ≠ 1) (q : Port) :
    (y.next burstLength c).pending q = y.pending q := by
  by_cases hresp : c.joined.resp = .null
  · rw [pending_of_null hresp, h.forward, Bool.false_or]
  · rw [pending_of_resp hresp h.forward, decide_eq_true (hmore.resolve_left hresp), Bool.and_true]

theorem Serving.pending_of_last (h : Serving y c p) (hresp : c.joined.resp ≠ .null)
    (hone : y.join.pendingRespReg = 1) (q : Port) :
    (y.next burstLength c).pending q = false := by
  rw [pending_of_resp hresp h.forward, hone]
  exact Bool.and_false _

theorem Serving.due (h : Serving y c p) :
    (y.next burstLength c).due = if c.joined.resp = .null then y.due else y.due - 1 := by
  simp [Bus.next, h.taken]

include h in
theorem Serving.waits (hs : Serving y c p) (hpending : y.pending p = true) (howner : y.owner = p)
    (q : Port) :
    (y.next burstLength c).left q =
      if (y.next burstLength c).owner = q then (y.next burstLength c).due else 0 := by
  have hleft : (y.next burstLength c).left q =
      if (y.toMaster c q).resp = .null then y.left q else y.left q - 1 := by
    simp [Bus.next, hs.not_accepted q]
  rw [hleft, hs.owner, hs.due, h.waits q]
  by_cases hq : y.owner = q
  · have hqp : q = p := hq.symm.trans howner
    rw [if_pos hq, if_pos hq, hqp, resp_of_pending hpending]
  · rw [if_neg hq, if_neg hq, ite_self]

include h in
theorem Inv.step_of_serve (hs : Serving y c p) (hpending : y.pending p = true)
    (hother : y.pending p.other = false) (howner : y.owner = p)
    (hcount : y.join.pendingRespReg = y.due) (hdue : 0 < y.due) (hle : y.due ≤ burstLength) :
    Inv burstLength (y.next burstLength c) := by
  refine ⟨hs.waits h hpending howner, ?_⟩
  by_cases hresp : c.joined.resp = .null
  · have hkept : (y.next burstLength c).due = y.due := by rw [hs.due, if_pos hresp]
    have hpend : ∀ q, (y.next burstLength c).pending q = y.pending q := hs.pending (Or.inl hresp)
    refine .serve p ?_ ?_ (hs.owner.trans howner) ?_ ?_ ?_
    · rw [hpend, hpending]
    · rw [hpend, hother]
    · rw [count_of_null hresp hs.forward, hcount, hkept]
    · rw [hkept]
      exact hdue
    · rw [hkept]
      exact hle
  · have hless : (y.next burstLength c).due = y.due - 1 := by rw [hs.due, if_neg hresp]
    have hcnt : (y.next burstLength c).join.pendingRespReg = y.due - 1 := by
      rw [Serving.count_of_resp hresp (hcount ▸ hdue) (hcount ▸ hle), hcount]
    by_cases hone : y.due = 1
    · refine .free (hs.pending_of_last hresp (hcount.trans hone)) ?_ ?_
      · rw [hcnt, hone]
      · rw [hless, hone]
    · have hmore : y.join.pendingRespReg ≠ 1 := by rwa [hcount]
      have hpend : ∀ q, (y.next burstLength c).pending q = y.pending q :=
        hs.pending (Or.inr hmore)
      refine .serve p ?_ ?_ (hs.owner.trans howner) ?_ ?_ ?_
      · rw [hpend, hpending]
      · rw [hpend, hother]
      · rw [hcnt, hless]
      · omega
      · omega

include h hlen hlegal in
theorem Inv.step : Inv burstLength (y.next burstLength c) := by
  cases h.phase with
  | free hpending hcount hdue =>
    rcases forward_or_idle (c := c) hpending with ⟨p, hf⟩ | hidle
    · exact h.step_of_forward hlen hlegal (forward_of_free hpending hdue hlegal hf)
    · exact h.step_of_quiet hlegal hpending hcount hdue hidle
  | ask p hpending hother hasked hcount hdue =>
    exact h.step_of_forward hlen hlegal
      (forward_of_ask hpending hother hasked hcount hdue hlegal)
  | serve p hpending hother howner hcount hdue hle =>
    have hs := serving_of_due h hlegal hpending hother howner hdue
    exact h.step_of_serve hs hpending hother howner hcount hdue hle

/-! #### What a cycle shows -/

include h hlen hlegal in
theorem Inv.counter :
    y.join.pendingRespReg ≠ 0 ∧ (y.next burstLength c).join.pendingRespReg = 0 ↔
      c.joined.resp ≠ .null ∧ y.due = 1 := by
  cases h.phase with
  | free hpending hcount hdue =>
    constructor
    · rintro ⟨hne, _⟩
      exact absurd hcount hne
    · rintro ⟨hresp, _⟩
      exact absurd (hlegal.resp_of_due hdue) hresp
  | ask p hpending hother hasked hcount hdue =>
    have hf := forward_of_ask hpending hother hasked hcount hdue hlegal
    constructor
    · rintro ⟨_, hzero⟩
      rw [hf.count] at hzero
      exact absurd hzero (ne_of_gt (answers_pos hlen hf.cmd))
    · rintro ⟨hresp, _⟩
      exact absurd (hlegal.resp_of_due hdue) hresp
  | serve p hpending hother howner hcount hdue hle =>
    have hs := serving_of_due h hlegal hpending hother howner hdue
    by_cases hresp : c.joined.resp = .null
    · rw [count_of_null hresp hs.forward]
      constructor
      · rintro ⟨hne, hzero⟩
        exact absurd hzero hne
      · rintro ⟨hne, _⟩
        exact absurd hresp hne
    · rw [Serving.count_of_resp hresp (hcount ▸ hdue) (hcount ▸ hle), hcount]
      constructor
      · rintro ⟨_, hzero⟩
        exact ⟨hresp, by omega⟩
      · rintro ⟨_, hone⟩
        exact ⟨by omega, by omega⟩

include h in
/-- While answers are due, the port they are due to is the pending one. -/
theorem Inv.pending_of_due (hdue : 0 < y.due) :
    y.pending y.owner = true ∧ y.pending y.owner.other = false := by
  cases h.phase with
  | free _ _ hzero | ask _ _ _ _ _ hzero => exact absurd hzero (ne_of_gt hdue)
  | serve p hpending hother howner _ _ _ => exact howner ▸ ⟨hpending, hother⟩

include h hlen hlegal in
theorem Inv.lossless : Lossless burstLength y c := by
  obtain ⟨p, hshown⟩ := h.phase.shown c
  constructor
  · intro q hq
    have hqp := hshown.accepted_eq hq
    exact ⟨hshown.accepted_iff.mp (hqp ▸ hq), hqp ▸ hshown.joined⟩
  · intro htaken
    exact ⟨p, hshown.accepted_iff.mpr htaken⟩
  · rintro ⟨hleft, hright⟩
    have hsame : Port.left = Port.right :=
      (hshown.accepted_eq hleft).trans (hshown.accepted_eq hright).symm
    exact Port.noConfusion hsame
  · exact h.phase.exclusive c
  · intro hresp
    obtain ⟨hpending, hother⟩ := h.pending_of_due (hlegal.resp hresp)
    exact ⟨resp_of_pending hpending, data_of_joined, resp_of_noPending hother⟩
  · exact h.waits
  · intro hdue
    obtain ⟨hpending, hother⟩ := h.pending_of_due hdue
    have hserved : Shown y c y.owner := shown_of_pending hpending hother
    exact ⟨hserved.joined, hserved.dataAccept⟩
  · exact h.counter hlen hlegal

theorem IsReset.inv (h : IsReset y) : Inv burstLength y := by
  constructor
  · intro p
    rw [h.left p, h.due, ite_self]
  · refine .free ?_ h.pendingRespReg h.due
    intro p
    cases p with
    | left => exact h.leftPendingReg
    | right => exact h.rightPendingReg

end Cycle

end Bus

/-! ### Every run -/

/-- The join loses nothing, for every interleaving of requests. -/
theorem lossless_of_legal {burstLength : Nat} (hlen : 0 < burstLength) {y : Bus}
    (hreset : y.IsReset) {cs : List Cycle} (hlegal : Along (Bus.next burstLength) Bus.Legal y cs) :
    Along (Bus.next burstLength) (Bus.Lossless burstLength) y cs := by
  have hinv : Along (Bus.next burstLength)
      (fun y c => Bus.Inv burstLength y ∧ Bus.Legal y c) y cs :=
    Along.with_inv (fun _ _ h hl => h.step hlen hl) hreset.inv hlegal
  exact hinv.mono fun _ _ h => h.1.lossless hlen h.2

/-! ### A run -/

namespace Bus

theorem forall_port {q : Port → Prop} : (∀ p, q p) ↔ q .left ∧ q .right := by
  constructor
  · intro h
    exact ⟨h .left, h .right⟩
  · rintro ⟨hleft, hright⟩ p
    cases p with
    | left => exact hleft
    | right => exact hright

instance (y : Bus) (c : Cycle) : Decidable (Legal y c) :=
  decidable_of_iff
    ((((y.asked .left).1 ≠ .idle → (c.left.cmd, c.left.addr) = y.asked .left) ∧
        ((y.asked .right).1 ≠ .idle → (c.right.cmd, c.right.addr) = y.asked .right)) ∧
      ((c.left.cmd ≠ .idle → y.left .left = 0) ∧ (c.right.cmd ≠ .idle → y.left .right = 0)) ∧
      (c.joined.resp ≠ .null → 0 < y.due))
    ⟨fun h => ⟨forall_port.mpr h.1, forall_port.mpr h.2.1, h.2.2⟩,
      fun h => ⟨forall_port.mp h.hold, forall_port.mp h.single, h.resp⟩⟩

end Bus

def powerUp : Bus := ⟨⟨false, false, 0⟩, fun _ => (.idle, 0), fun _ => 0, .left, 0⟩

def quiet : BurstMaster := ⟨.idle, 0, fun _ => 0, false, noBytes⟩

def store : BurstMaster := ⟨.wr, 8, fun _ => 1, true, allBytes⟩

def fetch : BurstMaster := ⟨.rd, 16, fun _ => 0, false, noBytes⟩

/-- The right port writes; before it is accepted the left port begins to read, and is accepted
    after the answer to the write. -/
def crossing : List Cycle :=
  [⟨quiet, store, ⟨.null, fun _ => 0, false, false⟩⟩,
    ⟨fetch, store, ⟨.null, fun _ => 0, true, true⟩⟩,
    ⟨fetch, { quiet with dataValid := true }, ⟨.null, fun _ => 0, false, true⟩⟩,
    ⟨fetch, quiet, ⟨.dva, fun _ => 0, true, true⟩⟩,
    ⟨fetch, quiet, ⟨.null, fun _ => 0, true, true⟩⟩,
    ⟨quiet, quiet, ⟨.dva, fun _ => 5, false, false⟩⟩,
    ⟨quiet, quiet, ⟨.dva, fun _ => 6, false, false⟩⟩]

theorem crossing_lossless :
    (run (Bus.next 2) powerUp (crossing.take 5)).left .left = 2 ∧
      Along (Bus.next 2) (Bus.Lossless 2) powerUp crossing := by
  have hreset : powerUp.IsReset := ⟨rfl, rfl, rfl, fun _ => rfl, fun _ => rfl, rfl⟩
  exact ⟨by decide +kernel, lossless_of_legal Nat.two_pos hreset (by decide +kernel)⟩

end Patmos.OcpBurstPriorityJoin
