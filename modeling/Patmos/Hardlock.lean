import Mathlib.Data.Fin.Tuple.Basic
import Mathlib.Data.Fintype.Basic
import Patmos.Clocked
import Patmos.MemBlock
import Patmos.RoundRobin

/-!
# Hardware locks

`Hardlock` has a queue bit for every lock and core, and for every lock a pointer that moves to
the next core with a queue bit, going round.  A core is blocked while it has a queue bit of a
lock whose pointer is elsewhere; there is no register for the owner.  `HardlockOCPWrapper`
makes a write to its port an acquire or a release, and answers when the core is not blocked.

Ledgers beside the circuit keep the outstanding request of each core and the locks it owns:
from the answer to an acquire to the release.
-/

namespace Patmos.Hardlock

open Ocp Clocked RoundRobin

/-! ### The circuit -/

/-- What a core sends, less address and byte enables, which are not read. -/
structure CoreM where
  cmd : OcpCmd
  data : Nat
deriving DecidableEq, Repr

/-- `HardlockIO`, the inputs. -/
structure HardlockIn where
  sel : Nat
  op : Bool
  en : Bool

structure Locks (coreCnt lckCnt : Nat) where
  queueReg : Fin lckCnt → Fin coreCnt → Bool
  curReg : Fin lckCnt → Fin coreCnt

/-- `HardlockOCPWrapper`. -/
structure State (coreCnt lckCnt : Nat) where
  hardlock : Locks coreCnt lckCnt
  reqReg : Fin coreCnt → Bool

section Circuit

variable {coreCnt lckCnt : Nat}

/-- The first index with `p`, and the last one if there is none. -/
def priorityEncoder [NeZero coreCnt] (p : Fin coreCnt → Bool) : Fin coreCnt :=
  (Fin.find? p).getD ⟨coreCnt - 1, Nat.sub_one_lt (NeZero.ne coreCnt)⟩

namespace Locks

def lo (s : Locks coreCnt lckCnt) (i : Fin lckCnt) (j : Fin coreCnt) : Bool :=
  s.queueReg i j && decide (s.curReg i > j)

def hi (s : Locks coreCnt lckCnt) (i : Fin lckCnt) (j : Fin coreCnt) : Bool :=
  s.queueReg i j && decide (s.curReg i ≤ j)

/-- `io.cores(i).blck`. -/
def blck (s : Locks coreCnt lckCnt) (i : Fin coreCnt) : Bool :=
  decide (∃ j, (s.queueReg j i && decide (s.curReg j ≠ i)) = true)

def next [NeZero coreCnt] (s : Locks coreCnt lckCnt) (cores : Fin coreCnt → HardlockIn) :
    Locks coreCnt lckCnt where
  queueReg i j := if (cores j).sel = i.val ∧ (cores j).en then (cores j).op else s.queueReg i j
  curReg i := if ∃ j, s.hi i j = true then priorityEncoder (s.hi i) else priorityEncoder (s.lo i)

end Locks

/-- The inputs of `Hardlock` for what a core sends; `sel` has `log2Up(lckCnt)` bits. -/
def toHardlock (lckCnt : Nat) (m : CoreM) : HardlockIn where
  sel := m.data / 2 % 2 ^ MemBlock.log2Up lckCnt
  op := m.data % 2 == 1
  en := m.cmd == .wr

/-- `io.cores(i).S.Resp`. -/
def resp (s : State coreCnt lckCnt) (i : Fin coreCnt) : OcpResp :=
  if s.reqReg i && !s.hardlock.blck i then .dva else .null

def next [NeZero coreCnt] (s : State coreCnt lckCnt) (cores : Fin coreCnt → CoreM) :
    State coreCnt lckCnt where
  hardlock := s.hardlock.next fun i => toHardlock lckCnt (cores i)
  reqReg i := if (cores i).cmd ≠ .idle then true
    else if s.reqReg i && !s.hardlock.blck i then false else s.reqReg i

end Circuit

/-! ### Cores -/

section Requests

variable {lckCnt : Nat}

/-- The request is for lock `l`. -/
def acquires (m : CoreM) (l : Fin lckCnt) : Bool :=
  (toHardlock lckCnt m).en && (toHardlock lckCnt m).op && (toHardlock lckCnt m).sel == l.val

/-- The request gives lock `l` back. -/
def releases (m : CoreM) (l : Fin lckCnt) : Bool :=
  (toHardlock lckCnt m).en && !(toHardlock lckCnt m).op && (toHardlock lckCnt m).sel == l.val

end Requests

/-- The locks with their ledgers. -/
structure Sys (coreCnt lckCnt : Nat) where
  locks : State coreCnt lckCnt
  pend : Fin coreCnt → Option CoreM
  own : Fin coreCnt → Fin lckCnt → Bool

abbrev Cycle (coreCnt : Nat) := Fin coreCnt → CoreM

namespace Sys

variable {coreCnt lckCnt : Nat}

/-- Core `j` waits for lock `l`. -/
def asks (y : Sys coreCnt lckCnt) (j : Fin coreCnt) (l : Fin lckCnt) : Bool :=
  match y.pend j with
  | some m => acquires m l
  | none => false

/-- Core `j` sees the answer to its acquire of lock `l`. -/
def granted (y : Sys coreCnt lckCnt) (j : Fin coreCnt) (l : Fin lckCnt) : Bool :=
  y.asks j l && resp y.locks j == .dva

/-- Core `j` is between the answer to an acquire and the release of lock `l`. -/
def holds (y : Sys coreCnt lckCnt) (j : Fin coreCnt) (l : Fin lckCnt) : Bool :=
  y.own j l || y.granted j l

def next [NeZero coreCnt] (y : Sys coreCnt lckCnt) (c : Cycle coreCnt) : Sys coreCnt lckCnt where
  locks := Hardlock.next y.locks c
  pend j := if (c j).cmd ≠ .idle then some (c j)
    else if resp y.locks j = .dva then none else y.pend j
  own j l := y.holds j l && !releases (c j) l

/-- A core has one request outstanding, and sends the next one at the earliest when it is
    answered; it releases only locks that it owns, and acquires none of them. -/
structure Legal (y : Sys coreCnt lckCnt) (c : Cycle coreCnt) : Prop where
  single : ∀ j, (c j).cmd ≠ .idle → y.pend j = none ∨ resp y.locks j = .dva
  release : ∀ j l, releases (c j) l = true → y.holds j l = true
  acquire : ∀ j l, acquires (c j) l = true → y.holds j l = false

structure IsReset (y : Sys coreCnt lckCnt) : Prop where
  queueReg : ∀ l j, y.locks.hardlock.queueReg l j = false
  curReg : ∀ l, (y.locks.hardlock.curReg l).val = 0
  reqReg : ∀ j, y.locks.reqReg j = false
  pend : ∀ j, y.pend j = none
  own : ∀ j l, y.own j l = false

/-- The circuit has core `j` as the owner of lock `l`. -/
def Owner (y : Sys coreCnt lckCnt) (l : Fin lckCnt) (j : Fin coreCnt) : Prop :=
  y.locks.hardlock.queueReg l j = true ∧ y.locks.hardlock.curReg l = j

/-- Mutual exclusion, in a cycle. -/
structure Exclusive [NeZero coreCnt] (y : Sys coreCnt lckCnt) (c : Cycle coreCnt) : Prop where
  one : ∀ l j k, y.holds j l = true → y.holds k l = true → j = k
  owner : ∀ l j, y.holds j l = true → y.Owner l j
  keeps : ∀ l j, y.holds j l = true → releases (c j) l = false →
    (y.next c).holds j l = true ∧ (y.next c).Owner l j

/-- The grants of lock `l` to core `k`. -/
def grants (k : Fin coreCnt) (l : Fin lckCnt) (y : Sys coreCnt lckCnt) (_ : Cycle coreCnt) :
    List (Fin coreCnt) := if y.granted k l then [k] else []

/-- From the cycle in which core `j` asks for lock `l` to its grant, another core is granted the
    lock at most once. -/
def InTurn [NeZero coreCnt] (y : Sys coreCnt lckCnt) (cs : List (Cycle coreCnt)) : Prop :=
  ∀ p c q j k l, cs = p ++ c :: q → acquires (c j) l = true → k ≠ j →
    Along next (fun y _ => y.granted j l = false) (run next y (p ++ [c])) q →
    (emitted next (grants k l) (run next y p) (c :: q)).length ≤ 1

/-! ### The pointer -/

section Pointer

variable [NeZero coreCnt]

theorem priorityEncoder_spec {p : Fin coreCnt → Bool} {i : Fin coreCnt} (hi : p i = true) :
    p (priorityEncoder p) = true ∧ priorityEncoder p ≤ i := by
  obtain ⟨e, he⟩ := Option.isSome_iff_exists.mp (Fin.isSome_find?_of_eq_true hi)
  have henc : priorityEncoder p = e := by rw [priorityEncoder, he, Option.getD_some]
  obtain ⟨hmem, hfirst⟩ := Fin.find?_eq_some_iff.mp he
  rw [henc]
  refine ⟨hmem, not_lt.mp fun hlt => ?_⟩
  rw [hfirst i hlt] at hi
  cases hi

theorem isNext_curReg (s : Locks coreCnt lckCnt) (cores : Fin coreCnt → HardlockIn)
    {l : Fin lckCnt} {j : Fin coreCnt} (hj : s.queueReg l j = true) :
    IsNext (s.queueReg l) (s.curReg l) ((s.next cores).curReg l) := by
  by_cases hhi : ∃ k, s.hi l k = true
  · obtain ⟨k, hk⟩ := hhi
    have hcur : (s.next cores).curReg l = priorityEncoder (s.hi l) := if_pos ⟨k, hk⟩
    have hmem := (priorityEncoder_spec hk).1
    rw [hcur]
    simp only [Locks.hi, Bool.and_eq_true, decide_eq_true_eq] at hmem
    refine ⟨hmem.1, fun i hi => ?_⟩
    rcases le_or_gt (s.curReg l) i with hle | hlt
    · have hfirst := (priorityEncoder_spec (p := s.hi l) (i := i) (by simp [Locks.hi, hi, hle])).2
      rw [dist_of_le hmem.2, dist_of_le hle]
      exact Nat.sub_le_sub_right hfirst _
    · rw [dist_of_le hmem.2, dist_of_lt hlt]
      have hbound := (priorityEncoder (s.hi l)).isLt
      omega
  · have hcur : (s.next cores).curReg l = priorityEncoder (s.lo l) := if_neg hhi
    have hbelow : ∀ i, s.queueReg l i = true → i < s.curReg l := by
      intro i hi
      by_contra hle
      exact hhi ⟨i, by simp [Locks.hi, hi, not_lt.mp hle]⟩
    have hlo : ∀ i, s.queueReg l i = true → s.lo l i = true := by
      intro i hi
      simp [Locks.lo, hi, hbelow i hi]
    have hmem := (priorityEncoder_spec (hlo j hj)).1
    rw [hcur]
    simp only [Locks.lo, Bool.and_eq_true, decide_eq_true_eq] at hmem
    refine ⟨hmem.1, fun i hi => ?_⟩
    have hfirst := (priorityEncoder_spec (hlo i hi)).2
    rw [dist_of_lt hmem.2, dist_of_lt (hbelow i hi)]
    exact Nat.sub_le_sub_right (Nat.add_le_add_right hfirst _) _

end Pointer

/-! ### The invariant -/

structure Inv (y : Sys coreCnt lckCnt) : Prop where
  req : ∀ j, y.locks.reqReg j = (y.pend j).isSome
  own : ∀ j l, y.own j l = true → y.Owner l j
  queue : ∀ j l, y.locks.hardlock.queueReg l j = (y.own j l || y.asks j l)
  apart : ∀ j l, y.own j l = true → y.asks j l = false

section Registers

variable {y : Sys coreCnt lckCnt} {j : Fin coreCnt} {l : Fin lckCnt}

theorem acquires_of_idle {m : CoreM} (h : m.cmd = .idle) : acquires m l = false := by
  simp [acquires, toHardlock, h]

theorem releases_of_idle {m : CoreM} (h : m.cmd = .idle) : releases m l = false := by
  simp [releases, toHardlock, h]

theorem not_acquires_of_releases {m : CoreM} (h : releases m l = true) : acquires m l = false := by
  simp only [releases, Bool.and_eq_true, Bool.not_eq_true'] at h
  simp [acquires, h.1.2]

theorem resp_eq_dva : resp y.locks j = .dva ↔
    (y.locks.reqReg j && !y.locks.hardlock.blck j) = true := by
  unfold resp
  split
  · simp_all
  · simp_all

/-- A core that is answered is not blocked. -/
theorem owner_of_resp (hresp : resp y.locks j = .dva)
    (hqueue : y.locks.hardlock.queueReg l j = true) : y.Owner l j := by
  refine ⟨hqueue, ?_⟩
  by_contra hcur
  have hblck : y.locks.hardlock.blck j = true := by
    simp only [Locks.blck, decide_eq_true_eq]
    exact ⟨l, by simp [hqueue, hcur]⟩
  simp [resp, hblck] at hresp

theorem Inv.owner_of_holds (h : Inv y) (hholds : y.holds j l = true) : y.Owner l j := by
  rcases Bool.or_eq_true_iff.mp hholds with hown | hgranted
  · exact h.own j l hown
  · simp only [granted, Bool.and_eq_true, beq_iff_eq] at hgranted
    refine owner_of_resp hgranted.2 ?_
    rw [h.queue, hgranted.1, Bool.or_true]

theorem Inv.queue_of_asks (h : Inv y) (hasks : y.asks j l = true) :
    y.locks.hardlock.queueReg l j = true := by
  rw [h.queue, hasks, Bool.or_true]

theorem IsReset.inv (h : IsReset y) : Inv y := by
  have hasks : ∀ j l, y.asks j l = false := by
    intro j l
    simp [asks, h.pend j]
  constructor
  · intro j
    rw [h.reqReg j, h.pend j, Option.isSome_none]
  · intro j l hown
    rw [h.own j l] at hown
    cases hown
  · intro j l
    rw [h.queueReg l j, h.own j l, hasks j l, Bool.or_false]
  · intro j l _
    exact hasks j l

end Registers

section Cycle

variable [NeZero coreCnt] {y : Sys coreCnt lckCnt} {c : Cycle coreCnt} {j k : Fin coreCnt}
  {l : Fin lckCnt}

theorem queueReg_next : (y.next c).locks.hardlock.queueReg l j =
    if acquires (c j) l then true else if releases (c j) l then false
      else y.locks.hardlock.queueReg l j := by
  change (if (toHardlock lckCnt (c j)).sel = l.val ∧ (toHardlock lckCnt (c j)).en then
    (toHardlock lckCnt (c j)).op else _) = _
  rw [acquires, releases]
  cases (toHardlock lckCnt (c j)).en <;> cases (toHardlock lckCnt (c j)).op <;>
    by_cases hsel : (toHardlock lckCnt (c j)).sel = l.val <;> simp [hsel]

theorem asks_next : (y.next c).asks j l =
    if (c j).cmd ≠ .idle then acquires (c j) l
      else if resp y.locks j = .dva then false else y.asks j l := by
  rw [asks, next]
  by_cases hcmd : (c j).cmd = .idle <;> by_cases hresp : resp y.locks j = .dva <;>
    simp [asks, hcmd, hresp]

theorem own_next : (y.next c).own j l =
    ((y.own j l || y.asks j l && resp y.locks j == .dva) && !releases (c j) l) := rfl

theorem asks_next_of_acquires (h : acquires (c j) l = true) : (y.next c).asks j l = true := by
  rw [asks_next, if_pos fun hcmd => Bool.false_ne_true ((acquires_of_idle hcmd).symm.trans h), h]

omit [NeZero coreCnt] in
/-- A core that sends a request has none outstanding that is not answered. -/
theorem Legal.asks (h : Legal y c) (hcmd : (c j).cmd ≠ .idle) :
    y.asks j l = false ∨ resp y.locks j = .dva := by
  rcases h.single j hcmd with hnone | hresp
  · exact Or.inl (by simp [Sys.asks, hnone])
  · exact Or.inr hresp

theorem isNext_next (hj : y.locks.hardlock.queueReg l j = true) :
    IsNext (y.locks.hardlock.queueReg l) (y.locks.hardlock.curReg l)
      ((y.next c).locks.hardlock.curReg l) := isNext_curReg _ _ hj

theorem Owner.next (h : y.Owner l j) (hkeep : releases (c j) l = false) :
    (y.next c).Owner l j := by
  obtain ⟨hqueue, hcur⟩ := h
  constructor
  · rw [queueReg_next, hkeep, hqueue]
    simp
  · have hnext := isNext_next (c := c) hqueue
    rw [hcur] at hnext
    exact hnext.eq_of_mem hqueue

theorem Inv.req_next (h : Inv y) (j : Fin coreCnt) :
    (y.next c).locks.reqReg j = ((y.next c).pend j).isSome := by
  by_cases hcmd : (c j).cmd = .idle
  · by_cases hresp : resp y.locks j = .dva
    · have hdone := resp_eq_dva.mp hresp
      simp only [Sys.next, Hardlock.next, hcmd, hresp, hdone]
      simp
    · have hwait : (y.locks.reqReg j && !y.locks.hardlock.blck j) = false := by
        rw [Bool.eq_false_iff]
        exact fun hdone => hresp (resp_eq_dva.mpr hdone)
      simp only [Sys.next, Hardlock.next, hcmd, hresp, hwait]
      simpa using h.req j
  · simp [Sys.next, Hardlock.next, hcmd]

/-- An acquire that is answered has become ownership. -/
theorem Inv.queue_next (h : Inv y) (hlegal : Legal y c) (j : Fin coreCnt) (l : Fin lckCnt) :
    (y.next c).locks.hardlock.queueReg l j = ((y.next c).own j l || (y.next c).asks j l) := by
  rw [queueReg_next, asks_next, own_next, h.queue]
  by_cases hcmd : (c j).cmd = .idle
  · rw [acquires_of_idle hcmd, releases_of_idle hcmd]
    by_cases hresp : resp y.locks j = .dva
    · simp [hcmd, hresp]
    · simp [hcmd, hresp, beq_eq_false_iff_ne.mpr hresp]
  · cases hreleases : releases (c j) l with
    | true => simp [hcmd, not_acquires_of_releases hreleases]
    | false => rcases hlegal.asks (l := l) hcmd with h | h <;> simp [hcmd, h, Bool.or_comm]

theorem Inv.apart_next (h : Inv y) (hlegal : Legal y c) (hown : (y.next c).own j l = true) :
    (y.next c).asks j l = false := by
  have hholds : y.holds j l = true := (Bool.and_eq_true_iff.mp hown).1
  rw [asks_next]
  by_cases hcmd : (c j).cmd = .idle
  · rw [if_neg (not_not.mpr hcmd)]
    by_cases hresp : resp y.locks j = .dva
    · rw [if_pos hresp]
    · have hgranted : y.granted j l = false := by simp [granted, hresp]
      rw [holds, hgranted, Bool.or_false] at hholds
      rw [if_neg hresp, h.apart j l hholds]
  · rw [if_pos hcmd]
    by_contra hacquires
    have hfree := hlegal.acquire j l (Bool.eq_true_of_not_eq_false hacquires)
    exact Bool.false_ne_true (hfree.symm.trans hholds)

theorem Inv.next (h : Inv y) (hlegal : Legal y c) : Inv (y.next c) := by
  refine ⟨h.req_next, ?_, h.queue_next hlegal, fun j l => h.apart_next hlegal⟩
  intro j l hown
  simp only [Sys.next, Bool.and_eq_true, Bool.not_eq_true'] at hown
  exact (h.owner_of_holds hown.1).next hown.2

theorem Inv.exclusive (h : Inv y) (c : Cycle coreCnt) : Exclusive y c := by
  constructor
  · intro l j k hj hk
    exact (h.owner_of_holds hj).2.symm.trans (h.owner_of_holds hk).2
  · intro l j hj
    exact h.owner_of_holds hj
  · intro l j hj hkeep
    have hown : (y.next c).own j l = true := by simp [Sys.next, hj, hkeep]
    exact ⟨by rw [holds, hown, Bool.true_or], (h.owner_of_holds hj).next hkeep⟩

/-! ### Waiting -/

/-- Core `j` waits for lock `l`, and core `k` has had its turn: it owns the lock, has just
    released it, or the pointer is beyond it on the way to `j`. -/
structure Passed (l : Fin lckCnt) (j k : Fin coreCnt) (y : Sys coreCnt lckCnt) : Prop where
  inv : Inv y
  asks : y.asks j l = true
  turn : y.own k l = true ∨
    (y.locks.hardlock.curReg l = k ∧ y.locks.hardlock.queueReg l k = false) ∨
    dist (y.locks.hardlock.curReg l) j < dist k j

theorem asks_of_wait (hlegal : Legal y c) (hasks : y.asks j l = true)
    (hwait : y.granted j l = false) : (y.next c).asks j l = true := by
  have hresp : resp y.locks j ≠ .dva := by
    intro hresp
    simp [granted, hasks, hresp] at hwait
  have hcmd : (c j).cmd = .idle := by
    by_contra hcmd
    exact (hlegal.asks hcmd).elim (ne_of_eq_of_ne hasks Bool.noConfusion) hresp
  rw [asks_next, if_neg (not_not.mpr hcmd), if_neg hresp, hasks]

/-- The owner keeps the lock or leaves the queue, with the pointer still on it. -/
theorem turn_of_holds (h : Inv y) (hholds : y.holds k l = true) : (y.next c).own k l = true ∨
    ((y.next c).locks.hardlock.curReg l = k ∧
      (y.next c).locks.hardlock.queueReg l k = false) := by
  cases hreleases : releases (c k) l with
  | false =>
    left
    simp [Sys.next, hholds, hreleases]
  | true =>
    right
    obtain ⟨hqueue, hcur⟩ := h.owner_of_holds hholds
    have hnext := isNext_next (c := c) hqueue
    rw [hcur] at hnext
    refine ⟨hnext.eq_of_mem hqueue, ?_⟩
    rw [queueReg_next, not_acquires_of_releases hreleases, hreleases]
    simp

theorem Passed.next (h : Passed l j k y) (hlegal : Legal y c) (hwait : y.granted j l = false) :
    Passed l j k (y.next c) := by
  refine ⟨h.inv.next hlegal, asks_of_wait hlegal h.asks hwait, ?_⟩
  have hqueue := h.inv.queue_of_asks h.asks
  have hnext := isNext_next (c := c) hqueue
  rcases h.turn with hown | ⟨hcur, hleft⟩ | hbeyond
  · have hholds : y.holds k l = true := by rw [holds, hown, Bool.true_or]
    exact (turn_of_holds h.inv hholds).imp_right Or.inl
  · rw [hcur] at hnext
    exact Or.inr (Or.inr (hnext.dist_lt hqueue hleft))
  · exact Or.inr (Or.inr (lt_of_le_of_lt (hnext.dist_le hqueue) hbeyond))

omit [NeZero coreCnt] in
/-- A core that has had its turn is not granted the lock. -/
theorem Passed.not_granted (h : Passed l j k y) : y.granted k l = false := by
  by_contra hgranted
  have hgranted := Bool.eq_true_of_not_eq_false hgranted
  have howner := h.inv.owner_of_holds (j := k) (l := l) (by rw [holds, hgranted, Bool.or_true])
  simp only [granted, Bool.and_eq_true, beq_iff_eq] at hgranted
  rcases h.turn with hown | ⟨_, hleft⟩ | hbeyond
  · rw [h.inv.apart k l hown] at hgranted
    exact Bool.noConfusion hgranted.1
  · rw [howner.1] at hleft
    cases hleft
  · rw [howner.2] at hbeyond
    exact lt_irrefl _ hbeyond

theorem passed_of_granted (h : Inv y) (hlegal : Legal y c) (hgranted : y.granted k l = true)
    (hasks : (y.next c).asks j l = true) : Passed l j k (y.next c) := by
  have hholds : y.holds k l = true := by rw [holds, hgranted, Bool.or_true]
  exact ⟨h.next hlegal, hasks, (turn_of_holds h hholds).imp_right Or.inl⟩

omit [NeZero coreCnt] in
theorem length_grants_le (k : Fin coreCnt) (l : Fin lckCnt) (y : Sys coreCnt lckCnt)
    (c : Cycle coreCnt) : (grants k l y c).length ≤ 1 := by
  unfold grants
  split
  · exact Nat.le_refl 1
  · exact Nat.zero_le 1

omit [NeZero coreCnt] in
theorem grants_of_not_granted (h : y.granted k l = false) : grants k l y c = [] := by
  simp [grants, h]

omit [NeZero coreCnt] in
theorem granted_of_grants (h : grants k l y c ≠ []) : y.granted k l = true := by
  by_contra hgranted
  exact h (grants_of_not_granted (Bool.eq_false_iff.mpr hgranted))

/-- While core `j` waits, core `k` is granted the lock at most once, and not at all when it has
    had its turn. -/
theorem length_emitted_of_asks {q : List (Cycle coreCnt)} (h : Inv y) (hasks : y.asks j l = true)
    (hrun : Along next (fun y c => Legal y c ∧ y.granted j l = false) y q) :
    (emitted next (grants k l) y q).length ≤ 1 := by
  refine length_emitted_le_one (W := fun y => Inv y ∧ y.asks j l = true) (J := Passed l j k)
    (length_grants_le k l) ?_ ?_ ?_ ?_ ⟨h, hasks⟩ hrun
  · rintro y c ⟨hinv, hasks⟩ ⟨hlegal, hwait⟩
    exact ⟨hinv.next hlegal, asks_of_wait hlegal hasks hwait⟩
  · rintro y c ⟨hinv, hasks⟩ ⟨hlegal, hwait⟩ hgrants
    exact passed_of_granted hinv hlegal (granted_of_grants hgrants)
      (asks_of_wait hlegal hasks hwait)
  · rintro y c hpassed ⟨hlegal, hwait⟩
    exact hpassed.next hlegal hwait
  · intro y c hpassed
    exact grants_of_not_granted hpassed.not_granted

theorem emitted_of_passed {q : List (Cycle coreCnt)} (h : Passed l j k y)
    (hrun : Along next (fun y c => Legal y c ∧ y.granted j l = false) y q) :
    emitted next (grants k l) y q = [] :=
  emitted_eq_nil (fun _ _ h hl => h.next hl.1 hl.2)
    (fun _ _ h => grants_of_not_granted h.not_granted) h hrun

end Cycle

/-! ### Every run -/

/-- **Mutual exclusion and round-robin service**, for every number of cores and locks. -/
theorem exclusive_and_inTurn [NeZero coreCnt] {y : Sys coreCnt lckCnt} (hreset : y.IsReset)
    {cs : List (Cycle coreCnt)} (hlegal : Along next Legal y cs) :
    Along next Exclusive y cs ∧ InTurn y cs := by
  have hkeep : ∀ (y : Sys coreCnt lckCnt) c, Inv y → Legal y c → Inv (y.next c) :=
    fun _ _ h hl => h.next hl
  constructor
  · exact (hlegal.with_inv hkeep hreset.inv).mono fun _ c h => h.1.exclusive c
  · rintro p c q j k l rfl hacquires - hwait
    obtain ⟨hp, hc, hq⟩ := (along_append _ _ _).mp hlegal
    have hinv : Inv (run next y p) := inv_run hkeep hreset.inv hp
    have hasks := asks_next_of_acquires (y := run next y p) hacquires
    rw [run_concat] at hwait
    have hrun := hq.and hwait
    rw [emitted_cons]
    cases hgranted : (run next y p).granted k l with
    | false =>
      rw [grants_of_not_granted hgranted, List.nil_append]
      exact length_emitted_of_asks (hinv.next hc) hasks hrun
    | true =>
      rw [emitted_of_passed (passed_of_granted hinv hc hgranted hasks) hrun, List.append_nil]
      exact length_grants_le k l _ c

/-! ### A run -/

instance (y : Sys coreCnt lckCnt) (c : Cycle coreCnt) : Decidable (Legal y c) :=
  decidable_of_iff (_ ∧ _ ∧ _) ⟨fun ⟨a, b, c⟩ => ⟨a, b, c⟩, fun ⟨a, b, c⟩ => ⟨a, b, c⟩⟩

/-- Three cores and one lock, after reset. -/
def powerUp : Sys 3 1 :=
  ⟨⟨⟨fun _ _ => false, fun _ => 0⟩, fun _ => false⟩, fun _ => none, fun _ _ => false⟩

/-- Cores that send `1` acquire the lock, those that send `0` release it. -/
def cycle (sends : List (Option Nat)) : Cycle 3 := fun j =>
  match sends.getD j.val none with
  | some d => ⟨.wr, d⟩
  | none => ⟨.idle, 0⟩

/-- Cores 1 and 2 ask together; core 2 is first, releases the lock and asks again while core 1
    has it. -/
def handover : List (Cycle 3) :=
  [cycle [none, some 1, some 1], cycle [], cycle [none, none, some 0], cycle [],
    cycle [none, none, some 1], cycle [none, some 0], cycle [], cycle [], cycle []]

theorem handover_exclusive :
    (run next powerUp (handover.take 2)).own 2 0 = true ∧
      (run next powerUp (handover.take 5)).own 1 0 = true ∧
      Along next Exclusive powerUp handover ∧ InTurn powerUp handover := by
  have hreset : powerUp.IsReset :=
    ⟨fun _ _ => rfl, fun _ => rfl, fun _ => rfl, fun _ => rfl, fun _ _ => rfl⟩
  exact ⟨by decide +kernel, by decide +kernel, exclusive_and_inTurn hreset (by decide +kernel)⟩

end Sys

end Patmos.Hardlock
