import Patmos.Clocked

/-!
# The bubble FIFO

`BubbleFifo` of the S4NoC: a chain of registers for one word each.  A register takes a word only
when it is empty and gives it away only when it is full, so a word moves on by one stage in a
cycle and leaves a bubble behind.

The stages stand in a list from the output end on: `buffers(depth - 1)` is its head, and
`buffers(0)`, which takes the writes, is its last element.
-/

namespace Patmos.BubbleFifo

open Clocked

inductive Fsm where
  | empty
  | full
deriving DecidableEq, Repr

structure FifoRegister (α : Type) where
  stateReg : Fsm
  dataReg : α
deriving DecidableEq

variable {α : Type}

/-- One clock of a `FifoRegister`, with `enq.write`, `enq.din` and `deq.read`. -/
def FifoRegister.next (b : FifoRegister α) (write : Bool) (din : α) (read : Bool) :
    FifoRegister α :=
  match b.stateReg with
  | .empty => if write then ⟨.full, din⟩ else b
  | .full => if read then { b with stateReg := .empty } else b

/-- One clock of the buffers.  The first one is read from outside, each other one while the
    one before it is empty. -/
def clock (write : Bool) (din : α) : Bool → List (FifoRegister α) → List (FifoRegister α)
  | _, [] => []
  | read, [b] => [b.next write din read]
  | read, b :: c :: l => b.next (c.stateReg == .full) c.dataReg read ::
      clock write din (b.stateReg == .empty) (c :: l)

/-- `enq.full`. -/
def full : List (FifoRegister α) → Bool
  | [] => true
  | [b] => b.stateReg == .full
  | _ :: c :: l => full (c :: l)

/-- `deq.empty`. -/
def empty : List (FifoRegister α) → Bool
  | [] => true
  | b :: _ => b.stateReg == .empty

/-- The signals from outside. -/
structure Cycle (α : Type) where
  write : Bool
  din : α
  read : Bool

def next (l : List (FifoRegister α)) (x : Cycle α) : List (FifoRegister α) :=
  clock x.write x.din x.read l

/-- Writes are issued while `full` is low, and reads while `empty` is low. -/
def Legal (l : List (FifoRegister α)) (x : Cycle α) : Prop :=
  (x.write = true → full l = false) ∧ (x.read = true → empty l = false)

def written (_ : List (FifoRegister α)) (x : Cycle α) : List α := if x.write then [x.din] else []

/-- `deq.dout` of a cycle with a read. -/
def readOut (l : List (FifoRegister α)) (x : Cycle α) : List α :=
  if x.read then l.head?.toList.map FifoRegister.dataReg else []

/-! ### Contents -/

def word (b : FifoRegister α) : Option α :=
  match b.stateReg with
  | .empty => none
  | .full => some b.dataReg

/-- The words in the chain, the oldest one first. -/
def stored (l : List (FifoRegister α)) : List α := l.filterMap word

/-- The word that leaves the chain. -/
def taken : Bool → List (FifoRegister α) → List α
  | true, ⟨.full, w⟩ :: _ => [w]
  | _, _ => []

@[simp] theorem stored_nil : stored ([] : List (FifoRegister α)) = [] := rfl

@[simp] theorem stored_empty (v : α) (l : List (FifoRegister α)) :
    stored (⟨.empty, v⟩ :: l) = stored l := rfl

@[simp] theorem stored_full (v : α) (l : List (FifoRegister α)) :
    stored (⟨.full, v⟩ :: l) = v :: stored l := rfl

variable {l : List (FifoRegister α)} {w r : Bool} {d : α}

/-- A register that is read gives its word to the one before it. -/
theorem taken_append_word (b c : FifoRegister α) :
    taken r (b :: c :: l) ++ stored [b.next (c.stateReg == .full) c.dataReg r] =
      stored [b] ++ taken (b.stateReg == .empty) (c :: l) := by
  obtain ⟨_ | _, v⟩ := b <;> obtain ⟨_ | _, u⟩ := c <;> cases r <;> rfl

/-- Words move on in order: what leaves is at the front, and what enters is at the back. -/
theorem taken_append_stored (hl : l ≠ []) :
    taken r l ++ stored (clock w d r l) = stored l ++ if w && !full l then [d] else [] := by
  induction l generalizing r with
  | nil => exact absurd rfl hl
  | cons b l ih =>
    cases l with
    | nil => obtain ⟨_ | _, v⟩ := b <;> cases r <;> cases w <;> rfl
    | cons c l =>
      have hsplit : ∀ (x : FifoRegister α) (m : List (FifoRegister α)),
          stored (x :: m) = stored [x] ++ stored m := fun x m => List.filterMap_append (l := [x])
      rw [clock, hsplit (b.next _ _ _), ← List.append_assoc, taken_append_word, List.append_assoc,
        ih (List.cons_ne_nil c l), hsplit b (c :: l), List.append_assoc]
      rfl

theorem length_clock : (clock w d r l).length = l.length := by
  induction l generalizing r with
  | nil => rfl
  | cons b l ih =>
    cases l with
    | nil => rfl
    | cons c l => exact congrArg (· + 1) ih

theorem clock_ne_nil (hl : l ≠ []) : clock w d r l ≠ [] := by
  rw [← List.length_pos_iff, length_clock]
  exact List.length_pos_iff.mpr hl

/-- In a legal run the words read, followed by those in the chain, are the words written. -/
theorem emitted_append_stored {xs : List (Cycle α)} (hl : l ≠ []) (hleg : Along next Legal l xs) :
    emitted next readOut l xs ++ stored (run next l xs) =
      stored l ++ emitted next written l xs := by
  induction xs generalizing l with
  | nil => simp
  | cons x xs ih =>
    obtain ⟨⟨hwrite, hread⟩, hleg⟩ := hleg
    have hstep : _ ++ stored (next l x) = _ := taken_append_stored hl
    have hrest := ih (l := next l x) (clock_ne_nil hl) hleg
    have hout : taken x.read l = readOut l x := by
      unfold readOut
      cases hr : x.read with
      | false => rfl
      | true =>
        have hfull := hread hr
        match l with
        | ⟨.full, _⟩ :: _ => rfl
    have hin : (if x.write && !full l then [x.din] else []) = written l x := by
      unfold written
      cases hw : x.write with
      | false => rfl
      | true => rw [hwrite hw]; rfl
    rw [hout, hin] at hstep
    rw [emitted_cons, run_cons, emitted_cons, List.append_assoc, hrest, ← List.append_assoc, hstep,
      List.append_assoc]

/-! ### Settling -/

/-- How often a word has to pass a bubble until all words are at the output end. -/
def rank : List (FifoRegister α) → Nat
  | [] => 0
  | b :: l => rank l + if b.stateReg = .empty then (stored l).length else 0

/-- The words are at the output end. -/
def Settled (l : List (FifoRegister α)) : Prop :=
  ∃ front back, l = front ++ back ∧ (∀ b ∈ front, b.stateReg = .full) ∧
    ∀ b ∈ back, b.stateReg = .empty

/-- A word that leaves a chain makes a bubble that the others have to pass; otherwise some word
    passes one. -/
theorem rank_clock (b : FifoRegister α) :
    rank (clock false d r (b :: l)) ≤
      if r = true ∧ b.stateReg = .full then rank l + (stored l).length else rank (b :: l) - 1 := by
  induction l generalizing b r with
  | nil => obtain ⟨_ | _, v⟩ := b <;> cases r <;> simp [clock, FifoRegister.next, rank, stored]
  | cons c l ih =>
    have hlen := congrArg List.length (taken_append_stored (w := false) (d := d)
      (r := b.stateReg == .empty) (List.cons_ne_nil c l))
    have hrest := ih (r := b.stateReg == .empty) c
    obtain ⟨_ | _, v⟩ := b <;> obtain ⟨_ | _, u⟩ := c <;> cases r <;>
      simp [clock, FifoRegister.next, rank, taken] at hlen hrest ⊢ <;> omega

theorem settled_of_rank (h : rank l = 0) : Settled l := by
  induction l with
  | nil => exact ⟨[], [], rfl, by simp, by simp⟩
  | cons b l ih =>
    rw [rank, Nat.add_eq_zero_iff] at h
    cases hb : b.stateReg with
    | full =>
      obtain ⟨front, back, rfl, hfront, hback⟩ := ih h.1
      exact ⟨b :: front, back, rfl, by simpa [hb] using hfront, hback⟩
    | empty =>
      refine ⟨[], b :: l, rfl, by simp, ?_⟩
      rw [if_pos hb, List.length_eq_zero_iff, stored, List.filterMap_eq_nil_iff] at h
      intro c hc
      rcases List.mem_cons.mp hc with rfl | hc
      · exact hb
      · have hnone := h.2 c hc
        unfold word at hnone
        split at hnone
        · assumption
        · cases hnone

/-- A cycle without a read and a write. -/
def idle (d : α) : Cycle α := ⟨false, d, false⟩

/-- Without reads and writes the words stay in the chain and bubble to its output end. -/
theorem settles (hl : l ≠ []) (ds : List α) :
    stored (run next l (ds.map idle)) = stored l ∧
      rank (run next l (ds.map idle)) ≤ rank l - ds.length := by
  induction ds generalizing l with
  | nil => exact ⟨rfl, Nat.le_refl _⟩
  | cons d ds ih =>
    obtain ⟨hstored, hrank⟩ := ih (clock_ne_nil hl (w := false) (d := d) (r := false))
    obtain ⟨b, m, rfl⟩ := List.exists_cons_of_ne_nil hl
    have hone := rank_clock (d := d) (r := false) (l := m) b
    have hsame := taken_append_stored (w := false) (d := d) (r := false) hl
    rw [if_neg (by simp)] at hone
    simp [taken] at hsame
    refine ⟨hstored.trans hsame, Nat.le_trans hrank ?_⟩
    rw [List.length_cons]
    omega

/-! ### Room at the input end -/

/-- The reads in the last `j` cycles, for a list `rs` that has the latest cycle first. -/
def readsIn (j : Nat) (rs : List Bool) : Nat := (rs.take j).count true

/-- A word that could not move on in the last cycle has as many words before it as there are
    registers, less those that were read while their bubbles were on the way to it.  `c` words
    are in the `j` registers before `l`, and `fresh` says that the last cycle wrote a word. -/
def Waits (fresh : Bool) (rs : List Bool) : Nat → Nat → List (FifoRegister α) → Prop
  | _, _, [] => True
  | c, j, [b] => b.stateReg = .full → fresh = false → c + readsIn j rs = j
  | c, j, b :: b' :: l => (b.stateReg = .full → b'.stateReg = .full → c + readsIn j rs = j) ∧
      Waits fresh rs (c + (stored [b]).length) (j + 1) (b' :: l)

variable {fresh : Bool} {rs : List Bool} {c c' j : Nat}

theorem waits_of_empty (h : ∀ b ∈ l, b.stateReg = .empty) : Waits fresh rs c j l := by
  induction l generalizing c j with
  | nil => trivial
  | cons b l ih =>
    have hb : b.stateReg ≠ .full := by
      rw [h b List.mem_cons_self]
      exact Fsm.noConfusion
    cases l with
    | nil => exact fun hfull => absurd hfull hb
    | cons b' l => exact ⟨fun hfull => absurd hfull hb,
      ih fun b hm => h b (List.mem_cons_of_mem _ hm)⟩

theorem exists_clock_cons (b : FifoRegister α) :
    ∃ x u m, clock w d r (b :: l) = b.next x u r :: m := by
  cases l with
  | nil => exact ⟨w, d, [], rfl⟩
  | cons b' l => exact ⟨_, _, _, rfl⟩

/-- One cycle, in which the chain before `l` takes a word if `r` is set, and `read` is the read of
    the whole chain. -/
theorem Waits.clock {read : Bool} (h : Waits fresh rs c j l)
    (hhead : ∀ v m, l = ⟨.full, v⟩ :: m → r = false → c' + readsIn j (read :: rs) = j)
    (hcount : c' + read.toNat = c + (taken r l).length) :
    Waits (w && !full l) (read :: rs) c' j (clock w d r l) := by
  induction l generalizing r c c' j with
  | nil => trivial
  | cons b l ih =>
    cases l with
    | nil =>
      intro hfull hfresh
      obtain ⟨_ | _, v⟩ := b
      · cases w
        · exact Fsm.noConfusion hfull
        · exact Bool.noConfusion hfresh
      · cases r
        · exact hhead v [] rfl rfl
        · exact Fsm.noConfusion hfull
    | cons b' l =>
      obtain ⟨hpair, hrest⟩ := h
      have hwaits : Waits (w && !full (b' :: l)) (read :: rs)
          (c' + (stored [b.next (b'.stateReg == .full) b'.dataReg r]).length) (j + 1)
          (clock w d (b.stateReg == .empty) (b' :: l)) := ih hrest ?_ ?_
      · obtain ⟨x, u, m, hm⟩ :=
          exists_clock_cons (w := w) (d := d) (r := b.stateReg == .empty) (l := l) b'
        rw [hm] at hwaits
        rw [BubbleFifo.clock, hm]
        refine ⟨fun hb hb' => ?_, hwaits⟩
        -- a register that takes a word leaves the one behind it empty
        obtain ⟨_ | _, v⟩ := b
        · obtain ⟨_ | _, v'⟩ := b'
          · exact Fsm.noConfusion hb
          · exact Fsm.noConfusion hb'
        · cases r
          · exact hhead v _ rfl rfl
          · exact Fsm.noConfusion hb
      · rintro v' m hl hr
        obtain ⟨rfl, rfl⟩ := List.cons.inj hl
        obtain ⟨_ | _, v⟩ := b
        · exact Bool.noConfusion hr
        · have hone := hpair rfl rfl
          have htake : readsIn (j + 1) (read :: rs) = read.toNat + readsIn j rs := by
            cases read <;> simp [readsIn, Nat.add_comm]
          rw [htake]
          cases r <;> simp [taken, FifoRegister.next] at hcount ⊢ <;> omega
      · obtain ⟨_ | _, v⟩ := b <;> obtain ⟨_ | _, v'⟩ := b' <;> cases r <;>
          simp [taken, FifoRegister.next] at hcount ⊢ <;> omega

/-- A chain whose input end is full without a new word has a word in every register, or had it when
    the reads that made the bubbles had not come yet. -/
theorem Waits.length_add (h : Waits false rs c j l) (hl : l ≠ []) (hfull : full l = true) :
    c + (stored l).length + readsIn (j + (l.length - 1)) rs = j + l.length := by
  induction l generalizing c j with
  | nil => exact absurd rfl hl
  | cons b l ih =>
    cases l with
    | nil =>
      obtain ⟨_ | _, v⟩ := b
      · exact Bool.noConfusion hfull
      · have hone := h rfl rfl
        simp
        omega
    | cons b' l =>
      have hrest := ih h.2 (List.cons_ne_nil _ _) hfull
      have hsplit : (stored (b :: b' :: l)).length =
          (stored [b]).length + (stored (b' :: l)).length := by
        rw [← List.length_append, stored, stored, stored, ← List.filterMap_append]
        rfl
      simp only [List.length_cons, Nat.add_sub_cancel] at hrest ⊢
      rw [hsplit, show j + (l.length + 1) = j + 1 + l.length by omega]
      omega

/-- The bubble FIFO after reset: every stage is empty and holds any data. -/
def IsReset (depth : Nat) (l : List (FifoRegister α)) : Prop :=
  l.length = depth ∧ ∀ b ∈ l, b.stateReg = .empty

/-- **The bubble FIFO is a FIFO.**  After every legal run the words that were read, followed by
    at most `depth` words in the chain, are the words that were written; and in finitely many
    cycles without reads and writes those in the chain move to its output end. -/
theorem fifo_of_legal {depth : Nat} (hdepth : 1 ≤ depth) (hreset : IsReset depth l)
    {xs : List (Cycle α)} (hleg : Along next Legal l xs) :
    emitted next readOut l xs ++ stored (run next l xs) = emitted next written l xs ∧
      (stored (run next l xs)).length ≤ depth ∧
      ∃ k, ∀ ds : List α, k ≤ ds.length →
        stored (run next l (xs ++ ds.map idle)) = stored (run next l xs) ∧
          Settled (run next l (xs ++ ds.map idle)) := by
  have hl : l ≠ [] := by
    rw [← List.length_pos_iff, hreset.1]
    exact hdepth
  have hnone : stored l = [] := by
    refine List.filterMap_eq_nil_iff.mpr fun b hb => ?_
    rw [word, hreset.2 b hb]
  have hlength : (run next l xs).length = l.length :=
    inv_run (I := fun m => m.length = l.length) (fun m x hm _ => length_clock.trans hm) rfl hleg
  have hrun : run next l xs ≠ [] := by
    rw [← List.length_pos_iff, hlength]
    exact List.length_pos_iff.mpr hl
  refine ⟨?_, ?_, rank (run next l xs), fun ds hds => ?_⟩
  · rw [emitted_append_stored hl hleg, hnone, List.nil_append]
  · rw [← hreset.1, ← hlength]
    exact List.length_filterMap_le _ _
  · obtain ⟨hstored, hrank⟩ := settles hrun ds
    rw [run_append]
    rw [Nat.sub_eq_zero_of_le hds] at hrank
    exact ⟨hstored, settled_of_rank (Nat.le_zero.mp hrank)⟩

instance (l : List (FifoRegister α)) (x : Cycle α) : Decidable (Legal l x) :=
  inferInstanceAs (Decidable (_ ∧ _))

def threeStages : List (FifoRegister Nat) := List.replicate 3 ⟨.empty, 0⟩

/-- Two words are written, and one of them is read. -/
def twoWords : List (Cycle Nat) := [⟨true, 7, false⟩, idle 0, ⟨true, 8, false⟩, ⟨false, 0, true⟩]

theorem fifo_of_twoWords : emitted next readOut threeStages twoWords = [7] ∧
    emitted next readOut threeStages twoWords ++ stored (run next threeStages twoWords) =
      emitted next written threeStages twoWords :=
  ⟨by decide, (fifo_of_legal (by decide) (⟨rfl, by decide⟩ : IsReset 3 threeStages) (by decide)).1⟩

end Patmos.BubbleFifo
