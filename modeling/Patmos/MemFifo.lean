import Patmos.Clocked
import Patmos.Ring
import Mathlib.Data.Nat.Log

/-!
# The memory FIFO

`MemFifo` stores words in a synchronous memory between a read and a write
pointer and hides the one cycle of memory latency behind a three-state output
stage with a shadow register.  The model below follows the Chisel text block by
block; where two blocks assign one register, the later assignment wins, as it
does there.

The refinement result is stated for what the circuit *stores*: in every run the
words delivered at `deq` are the stored words, in order (`Inv.step`).  What the
ports promise is more than that.  A word is accepted when `enq.valid` meets
`enq.ready`, and the two flags are to say how many accepted words wait in the
memory.  That holds exactly in the runs that avoid two kinds of cycles: a store
while `writeToFIFO` keeps `enq.ready` low, and a store in the very cycle that
fetches the last waiting word.
-/

namespace Patmos.MemFifo

open Clocked Patmos.Ring

/-! ### The circuit -/

/-- States of the output stage. -/
inductive OutState where
  | idle
  | valid
  | full
deriving DecidableEq, Repr

structure State (α : Type) where
  mem : Nat → α
  readPtr : Nat
  writePtr : Nat
  emptyReg : Bool
  fullReg : Bool
  stateReg : OutState
  shadowReg : α
  /-- The output register of the synchronous memory. -/
  data : α

/-- The signals sampled in one cycle.  `undef` is what the memory returns when a
    cell is read in the cycle in which it is written. -/
structure Inputs (α : Type) where
  enqValid : Bool
  enqBits : α
  deqReady : Bool
  writeToFIFO : Bool
  undef : α

variable {α : Type}

/-- The registers that have a reset value have it; the others are arbitrary. -/
structure State.IsReset (s : State α) : Prop where
  readPtr : s.readPtr = 0
  writePtr : s.writePtr = 0
  emptyReg : s.emptyReg = true
  fullReg : s.fullReg = false
  stateReg : s.stateReg = .idle

/-- `nextVal` of the wrapping `counter`, in `log2Ceil(depth)` bits. -/
def nextVal (depth cntReg : Nat) : Nat :=
  if cntReg = depth - 1 then 0 else (cntReg + 1) % 2 ^ Nat.clog 2 depth

def enqReady (s : State α) (i : Inputs α) : Bool := !s.fullReg && i.writeToFIFO

def deqValid (s : State α) : Bool := s.stateReg == .valid || s.stateReg == .full

def deqBits (s : State α) : α := if s.stateReg = .valid then s.data else s.shadowReg

def next (depth : Nat) (s : State α) (i : Inputs α) : State α :=
  let nextRead := nextVal depth s.readPtr
  let nextWrite := nextVal depth s.writePtr
  let data := if (i.enqValid && !s.fullReg) && s.writePtr == s.readPtr then i.undef
    else s.mem s.readPtr
  let s1 :=
    if i.enqValid && !s.fullReg then
      { s with
        mem := Function.update s.mem s.writePtr i.enqBits
        emptyReg := false
        fullReg := nextWrite == s.readPtr
        writePtr := nextWrite
        data := data }
    else { s with data := data }
  let fetched :=
    { s1 with
      stateReg := .valid
      fullReg := false
      emptyReg := nextRead == s.writePtr
      readPtr := nextRead }
  match s.stateReg with
  | .idle => if !s.emptyReg then fetched else s1
  | .valid =>
    if i.deqReady then
      if !s.emptyReg then fetched else { s1 with stateReg := .idle }
    else { s1 with shadowReg := s.data, stateReg := .full }
  | .full =>
    if i.deqReady then
      if !s.emptyReg then fetched else { s1 with stateReg := .idle }
    else s1

/-! ### What happens at the ports in one cycle -/

/-- The memory is written. -/
def stores (s : State α) (i : Inputs α) : Bool := i.enqValid && !s.fullReg

/-- The output stage takes the next word out of the memory. -/
def fetches (s : State α) (i : Inputs α) : Bool :=
  !s.emptyReg && (s.stateReg == .idle || i.deqReady)

def storedAt (s : State α) (i : Inputs α) : List α :=
  if stores s i then [i.enqBits] else []

def acceptedAt (s : State α) (i : Inputs α) : List α :=
  if i.enqValid && enqReady s i then [i.enqBits] else []

def deliveredAt (s : State α) (i : Inputs α) : List α :=
  if deqValid s && i.deqReady then [deqBits s] else []

def fetchedAt (s : State α) (i : Inputs α) : List Unit :=
  if fetches s i then [()] else []

/-- The word in the output stage, if there is one. -/
def held (s : State α) : List α := if deqValid s then [deqBits s] else []

/-! ### The registers after one cycle -/

section Next

variable (depth : Nat) (s : State α) (i : Inputs α)

theorem next_mem : (next depth s i).mem =
    if stores s i then Function.update s.mem s.writePtr i.enqBits else s.mem := by
  unfold next stores
  cases s.stateReg <;> cases s.emptyReg <;> cases i.deqReady <;> simp <;> split <;> rfl

theorem next_writePtr : (next depth s i).writePtr =
    if stores s i then nextVal depth s.writePtr else s.writePtr := by
  unfold next stores
  cases s.stateReg <;> cases s.emptyReg <;> cases i.deqReady <;> simp <;> split <;> rfl

theorem next_readPtr : (next depth s i).readPtr =
    if fetches s i then nextVal depth s.readPtr else s.readPtr := by
  unfold next fetches
  cases s.stateReg <;> cases s.emptyReg <;> cases i.deqReady <;> simp <;> split <;> rfl

theorem next_data (h : stores s i = true → s.writePtr ≠ s.readPtr) :
    (next depth s i).data = s.mem s.readPtr := by
  unfold stores at h
  unfold next
  cases hst : (i.enqValid && !s.fullReg) <;>
    cases s.stateReg <;> cases s.emptyReg <;> cases i.deqReady <;> simp_all

theorem next_fullReg : (next depth s i).fullReg =
    if fetches s i then false
    else if stores s i then nextVal depth s.writePtr == s.readPtr else s.fullReg := by
  unfold next stores fetches
  cases s.stateReg <;> cases s.emptyReg <;> cases i.deqReady <;> simp <;> split <;> rfl

theorem next_emptyReg : (next depth s i).emptyReg =
    if fetches s i then nextVal depth s.readPtr == s.writePtr
    else if stores s i then false else s.emptyReg := by
  unfold next stores fetches
  cases hst : (i.enqValid && !s.fullReg) <;>
    cases s.stateReg <;> cases s.emptyReg <;> cases i.deqReady <;> simp

theorem next_stateReg : (next depth s i).stateReg =
    if fetches s i then .valid
    else match s.stateReg with
      | .idle => .idle
      | _ => if i.deqReady then .idle else .full := by
  unfold next fetches
  cases hs : s.stateReg <;> cases s.emptyReg <;> cases i.deqReady <;> simp <;> split <;> simp_all

theorem next_shadowReg : (next depth s i).shadowReg =
    if s.stateReg = .valid ∧ i.deqReady = false then s.data else s.shadowReg := by
  unfold next
  cases hs : s.stateReg <;> cases s.emptyReg <;> cases i.deqReady <;> simp <;> split <;> rfl

end Next

/-! ### The refinement of a queue of stored words -/

theorem nextVal_eq {depth p : Nat} (hp : p < depth) : nextVal depth p = (p + 1) % depth := by
  unfold nextVal
  by_cases hlast : p = depth - 1
  · rw [if_pos hlast, show p + 1 = depth by omega, Nat.mod_self]
  · have hle : depth ≤ 2 ^ Nat.clog 2 depth := Nat.le_pow_clog (by omega) depth
    rw [if_neg hlast, Nat.mod_eq_of_lt (by omega), Nat.mod_eq_of_lt (by omega)]

/-- The registers represent the queue `q` of stored words that wait in the memory.
    The full flag is exact.  The empty flag is only reliable up to one word: it may
    claim an empty memory while a single word waits. -/
structure Inv (depth : Nat) (s : State α) (q : List α) : Prop
    extends Span depth s.mem s.readPtr s.writePtr q where
  fullReg_eq : s.fullReg = decide (q.length = depth)
  nonempty : s.emptyReg = false → q ≠ []
  empty_le : s.emptyReg = true → q.length ≤ 1

theorem State.IsReset.inv {depth : Nat} (hd : 0 < depth) {s : State α} (h : s.IsReset) :
    Inv depth s [] where
  readPtr_lt := by rw [h.readPtr]; exact hd
  writePtr_eq := by simp [h.readPtr, h.writePtr]
  length_le := Nat.zero_le _
  holds := holds_nil
  fullReg_eq := by rw [h.fullReg]; simp; omega
  nonempty := by rw [h.emptyReg]; simp
  empty_le := by simp

namespace Inv

variable {depth : Nat} {s : State α} {q : List α} {i : Inputs α}

theorem lt_of_stores (h : Inv depth s q) (hst : stores s i = true) : q.length < depth := by
  have hfull : s.fullReg = false := by
    cases hf : s.fullReg <;> simp [stores, hf] at hst ⊢
  have hne : ¬ q.length = depth := by simpa [hfull] using h.fullReg_eq
  exact lt_of_le_of_ne h.length_le hne

theorem ne_nil_of_fetches (h : Inv depth s q) (hf : fetches s i = true) : q ≠ [] := by
  refine h.nonempty ?_
  cases he : s.emptyReg <;> simp [fetches, he] at hf ⊢

/-- After a store the pointers meet exactly when the store filled the memory. -/
theorem nextWrite_eq_iff (h : Inv depth s q) (hlt : q.length < depth) :
    nextVal depth s.writePtr = s.readPtr ↔ q.length + 1 = depth := by
  rw [nextVal_eq h.writePtr_lt, (h.push hlt s.data).meet_iff]
  simp

/-- The read pointer would meet the write pointer exactly when one word waits. -/
theorem nextRead_eq_iff (h : Inv depth s q) (hq : q ≠ []) :
    nextVal depth s.readPtr = s.writePtr ↔ q.length = 1 := by
  obtain ⟨x, rest, rfl⟩ := List.exists_cons_of_ne_nil hq
  have hle : rest.length + 1 ≤ depth := h.length_le
  rw [nextVal_eq h.readPtr_lt, eq_comm, h.toSpan.pop.meet_iff, List.length_cons]
  omega

/-- The queue after a cycle: the stored word joins at the end, a fetch takes the
    front. -/
def after (s : State α) (i : Inputs α) (q : List α) : List α :=
  (if fetches s i then q.tail else q) ++ storedAt s i

theorem after_length (h : Inv depth s q) (i : Inputs α) :
    (after s i q).length + (fetchedAt s i).length = q.length + (storedAt s i).length := by
  unfold after fetchedAt
  by_cases hf : fetches s i = true
  · have hpos : 0 < q.length := List.length_pos_iff.mpr (h.ne_nil_of_fetches hf)
    simp [hf]
    omega
  · simp [hf]

/-- The pointers after a cycle enclose the queue after it. -/
theorem span_step (h : Inv depth s q) (i : Inputs α) :
    Span depth (next depth s i).mem (next depth s i).readPtr (next depth s i).writePtr
      (after s i q) := by
  have hrest : Span depth s.mem (next depth s i).readPtr s.writePtr
      (if fetches s i then q.tail else q) := by
    rw [next_readPtr]
    by_cases hf : fetches s i = true
    · obtain ⟨x, rest, rfl⟩ := List.exists_cons_of_ne_nil (h.ne_nil_of_fetches hf)
      rw [if_pos hf, if_pos hf, nextVal_eq h.readPtr_lt]
      exact h.toSpan.pop
    · rw [if_neg hf, if_neg hf]
      exact h.toSpan
  rw [next_mem, next_writePtr, after, storedAt]
  by_cases hst : stores s i = true
  · have hlen : (if fetches s i then q.tail else q).length ≤ q.length := by
      split <;> simp
    rw [if_pos hst, if_pos hst, if_pos hst, nextVal_eq h.writePtr_lt]
    exact hrest.push (lt_of_le_of_lt hlen (h.lt_of_stores hst)) _
  · rw [if_neg hst, if_neg hst, if_neg hst, List.append_nil]
    exact hrest

/-- **One cycle keeps the representation.** -/
theorem step (h : Inv depth s q) (i : Inputs α) : Inv depth (next depth s i) (after s i q) := by
  refine ⟨h.span_step i, ?_, ?_, ?_⟩
  · -- the full flag: a fetch always makes room, a store alone may fill the memory
    rw [next_fullReg, after, List.length_append, storedAt]
    by_cases hf : fetches s i = true
    · have hpos : 0 < q.length := List.length_pos_iff.mpr (h.ne_nil_of_fetches hf)
      have hle := h.length_le
      by_cases hst : stores s i = true
      · have := h.lt_of_stores hst
        simp [hf, hst]; omega
      · simp [hf, hst]; omega
    · by_cases hst : stores s i = true
      · simp only [hf, hst, if_true, List.length_singleton]
        simp [beq_eq_decide, h.nextWrite_eq_iff (h.lt_of_stores hst)]
      · simpa [hf, hst] using h.fullReg_eq
  · -- a cleared empty flag is right
    rw [next_emptyReg, after, storedAt]
    by_cases hf : fetches s i = true
    · have hq := h.ne_nil_of_fetches hf
      intro hne
      simp only [hf, if_true, beq_eq_false_iff_ne] at hne
      have h1 : q.length ≠ 1 := fun h1 => hne ((h.nextRead_eq_iff hq).mpr h1)
      have hpos : 0 < q.length := List.length_pos_iff.mpr hq
      have htail : q.tail ≠ [] := by
        rw [← List.length_pos_iff, List.length_tail]; omega
      simp [hf, htail]
    · by_cases hst : stores s i = true
      · simp [hst]
      · simpa [hf, hst] using h.nonempty
  · -- a set empty flag may hide the one word stored in the cycle of the last fetch
    rw [next_emptyReg, after, storedAt]
    by_cases hf : fetches s i = true
    · intro he
      simp only [hf, if_true, beq_iff_eq] at he
      have h1 := (h.nextRead_eq_iff (h.ne_nil_of_fetches hf)).mp he
      simp only [hf, if_true, List.length_append, List.length_tail, h1]
      split <;> simp
    · by_cases hst : stores s i = true
      · simp [hf, hst]
      · simpa [hf, hst] using h.empty_le

/-- A fetch brings the front of the queue into the output stage. -/
theorem held_of_fetches (h : Inv depth s q) (hf : fetches s i = true) :
    held (next depth s i) ++ q.tail = q := by
  obtain ⟨x, rest, rfl⟩ := List.exists_cons_of_ne_nil (h.ne_nil_of_fetches hf)
  have hdata : (next depth s i).data = s.mem s.readPtr := by
    refine next_data depth s i fun hst heq => ?_
    rcases h.meet_iff.mp heq with h0 | hfull
    · simp at h0
    · have := h.lt_of_stores hst
      omega
  have hx : s.mem s.readPtr = x := by
    have := (holds_cons.mp h.holds).1
    rwa [Nat.mod_eq_of_lt h.readPtr_lt] at this
  simp [held, deqValid, deqBits, next_stateReg, hf, hdata, hx]

end Inv

/-- The output stage hands over or keeps the word it holds, and is emptied before a
    fetch refills it. -/
theorem held_step (depth : Nat) (s : State α) (i : Inputs α) :
    held s = deliveredAt s i ++ if fetches s i then [] else held (next depth s i) := by
  unfold held deliveredAt deqValid deqBits
  rw [next_stateReg, next_shadowReg]
  cases hf : fetches s i <;> cases hs : s.stateReg <;> cases hr : i.deqReady <;>
    simp_all [fetches]

/-- **One cycle refines a queue**: what leaves is in front of what is kept, what is
    stored joins at the end. -/
theorem Inv.conservation {depth : Nat} {s : State α} {q : List α} (h : Inv depth s q)
    (i : Inputs α) :
    held s ++ q ++ storedAt s i =
      deliveredAt s i ++ (held (next depth s i) ++ Inv.after s i q) := by
  rw [held_step depth s i, Inv.after]
  by_cases hf : fetches s i = true
  · have := h.held_of_fetches hf
    simp only [hf, if_true, List.append_nil, List.append_assoc]
    rw [← List.append_assoc (held _), this]
  · simp [hf]

/-! ### Runs -/

section Runs

variable (depth : Nat) (s : State α) (is : List (Inputs α))

def stored : List α := emitted (next depth) storedAt s is

def accepted : List α := emitted (next depth) acceptedAt s is

def delivered : List α := emitted (next depth) deliveredAt s is

/-- One entry for each word that the output stage took out of the memory. -/
def fetched : List Unit := emitted (next depth) fetchedAt s is

/-- After the run the registers represent `q`, and `q` is what is left of the stored
    words behind the delivered ones and the one in the output stage. -/
structure Tracks (q : List α) : Prop where
  inv : Inv depth (run (next depth) s is) q
  stored_eq : stored depth s is =
    delivered depth s is ++ (held (run (next depth) s is) ++ q)
  count : q.length + (fetched depth s is).length = (stored depth s is).length

end Runs

section Results

variable {depth : Nat} {s : State α} {is : List (Inputs α)} {q : List α}

theorem State.IsReset.tracks (hd : 0 < depth) (hs : s.IsReset) : Tracks depth s [] [] where
  inv := hs.inv hd
  stored_eq := by simp [stored, delivered, held, deqValid, hs.stateReg]
  count := by simp [stored, fetched]

theorem Tracks.step (h : Tracks depth s is q) (i : Inputs α) :
    Tracks depth s (is ++ [i]) (Inv.after (run (next depth) s is) i q) where
  inv := by rw [run_concat]; exact h.inv.step i
  stored_eq := by
    have hcons := h.inv.conservation i
    have hst := h.stored_eq
    unfold stored delivered at hst ⊢
    rw [emitted_concat, emitted_concat, run_concat, hst]
    simp only [List.append_assoc] at hcons ⊢
    rw [hcons]
  count := by
    have hlen := h.inv.after_length i
    have hc := h.count
    unfold fetched stored at hc ⊢
    rw [emitted_concat, emitted_concat, List.length_append, List.length_append]
    omega

/-- **The stored words leave in order.**  This holds in every run, also in those that
    confuse the empty flag. -/
theorem exists_tracks (hd : 0 < depth) (hs : s.IsReset) (is : List (Inputs α)) :
    ∃ q, Tracks depth s is q := by
  induction is using List.reverseRecOn with
  | nil => exact ⟨[], hs.tracks hd⟩
  | append_singleton is i ih =>
    obtain ⟨q, hq⟩ := ih
    exact ⟨_, hq.step i⟩

/-- A store in a cycle in which `writeToFIFO` keeps `enq.ready` low. -/
def strayStore (s : State α) (i : Inputs α) : Bool := stores s i && !i.writeToFIFO

/-- A store in the cycle that fetches the last word waiting in the memory. -/
def lastWordRace (depth : Nat) (s : State α) (i : Inputs α) : Bool :=
  stores s i && fetches s i && nextVal depth s.readPtr == s.writePtr

/-- Neither of the two cycles that break the queue. -/
def Clean (depth : Nat) (s : State α) (i : Inputs α) : Prop :=
  strayStore s i = false ∧ lastWordRace depth s i = false

instance (depth : Nat) (s : State α) (i : Inputs α) : Decidable (Clean depth s i) :=
  inferInstanceAs (Decidable (_ ∧ _))

/-- What the ports and the two flags promise about a run: the delivered words are the
    first accepted ones, the flags count the accepted words that wait in the memory,
    and nothing is stored behind the back of `enq.ready`. -/
structure IsQueue (depth : Nat) (s : State α) (is : List (Inputs α)) : Prop where
  delivered_first : delivered depth s is <+: accepted depth s is
  full_iff : (run (next depth) s is).fullReg = true ↔
    (accepted depth s is).length = (fetched depth s is).length + depth
  empty_iff : (run (next depth) s is).emptyReg = true ↔
    (accepted depth s is).length = (fetched depth s is).length
  stored_ready : Along (next depth) (fun s i => stores s i = true → enqReady s i = true) s is

theorem accepted_eq_stored
    (h : Along (next depth) (fun s i => stores s i = true → enqReady s i = true) s is) :
    accepted depth s is = stored depth s is := by
  refine emitted_congr (h.mono fun s i hready => ?_)
  unfold acceptedAt storedAt
  cases hst : stores s i
  · have hno : (i.enqValid && enqReady s i) = false := by
      cases hv : i.enqValid <;> cases hf : s.fullReg <;> simp_all [stores, enqReady]
    simp [hno]
  · have hv : i.enqValid = true := by simp [stores] at hst; exact hst.1
    simp [hv, hready hst]

theorem ready_of_clean {i : Inputs α} (h : strayStore s i = false) (hst : stores s i = true) :
    enqReady s i = true := by
  cases hw : i.writeToFIFO <;> cases hf : s.fullReg <;> simp_all [strayStore, stores, enqReady]

/-- Without the race a set empty flag means that nothing waits. -/
theorem Inv.empty_step {i : Inputs α} (h : Inv depth s q) (he : s.emptyReg = true → q = [])
    (hrace : lastWordRace depth s i = false) (hnext : (next depth s i).emptyReg = true) :
    Inv.after s i q = [] := by
  rw [next_emptyReg] at hnext
  rw [Inv.after, storedAt]
  by_cases hf : fetches s i = true
  · simp only [hf, if_true, beq_iff_eq] at hnext
    have h1 := (h.nextRead_eq_iff (h.ne_nil_of_fetches hf)).mp hnext
    have hst : stores s i = false := by
      cases hst : stores s i <;> simp_all [lastWordRace]
    have htail : q.tail = [] := by
      rw [← List.length_eq_zero_iff, List.length_tail, h1]
    simp [hf, hst, htail]
  · by_cases hst : stores s i = true
    · simp [hf, hst] at hnext
    · simp only [hf, hst, Bool.false_eq_true, if_false, List.append_nil] at hnext ⊢
      exact he hnext

theorem exists_tracks_of_clean (hd : 0 < depth) (hs : s.IsReset)
    (hclean : Along (next depth) (Clean depth) s is) :
    ∃ q, Tracks depth s is q ∧ ((run (next depth) s is).emptyReg = true → q = []) := by
  refine inv_history (I := fun p t => ∃ q, Tracks depth s p q ∧ (t.emptyReg = true → q = []))
    ⟨[], hs.tracks hd, fun _ => rfl⟩ ?_ hclean
  rintro p i ⟨q, hq, he⟩ hcycle
  exact ⟨_, hq.step i, hq.inv.empty_step he hcycle.2⟩

theorem isQueue_of_clean (hd : 0 < depth) (hs : s.IsReset)
    (hclean : Along (next depth) (Clean depth) s is) : IsQueue depth s is := by
  obtain ⟨q, hq, he⟩ := exists_tracks_of_clean hd hs hclean
  have hready : Along (next depth) (fun s i => stores s i = true → enqReady s i = true) s is :=
    hclean.mono fun s i h hst => ready_of_clean (s := s) (i := i) h.1 hst
  have hacc := accepted_eq_stored hready
  have hcount := hq.count
  refine ⟨?_, ?_, ?_, hready⟩
  · rw [hacc, hq.stored_eq]
    exact List.prefix_append _ _
  · rw [hacc, hq.inv.fullReg_eq, decide_eq_true_eq]
    omega
  · rw [hacc]
    constructor
    · intro hempty
      have hlen : q.length = 0 := by rw [he hempty]; rfl
      omega
    · intro hlen
      by_contra hne
      have hq0 := hq.inv.nonempty (by simpa using hne)
      have := List.length_pos_iff.mpr hq0
      omega

/-- **When the FIFO is a queue.**  Every state of a run from reset keeps the promises
    of the ports and flags exactly when no cycle of the run is a stray store or a race
    for the last word. -/
theorem isQueue_iff_clean (hd : 2 ≤ depth) (hs : s.IsReset) (is : List (Inputs α)) :
    (∀ p, p <+: is → IsQueue depth s p) ↔ Along (next depth) (Clean depth) s is := by
  have hpos : 0 < depth := Nat.zero_lt_of_lt hd
  constructor
  · intro hall
    induction is using List.reverseRecOn with
    | nil => trivial
    | append_singleton is i ih =>
      have hclean := ih fun p hp => hall p (hp.trans (List.prefix_append _ _))
      obtain ⟨q, hq⟩ := exists_tracks hpos hs is
      have hlast := hall (is ++ [i]) (List.prefix_refl _)
      have hready := hlast.stored_ready
      have hcount := (hq.step i).count
      have hlen := hq.inv.after_length i
      rw [along_concat]
      refine ⟨hclean, ?_, ?_⟩
      · by_contra hstray
        simp only [strayStore, Bool.not_eq_false, Bool.and_eq_true, Bool.not_eq_true'] at hstray
        have := ((along_concat _ _ _).mp hready).2 hstray.1
        simp [enqReady, hstray.2] at this
      · -- the race sets the empty flag while the word just stored waits
        by_contra hrace
        simp only [lastWordRace, Bool.not_eq_false, Bool.and_eq_true, beq_iff_eq] at hrace
        obtain ⟨⟨hst, hf⟩, hmeet⟩ := hrace
        have hflag : (run (next depth) s (is ++ [i])).emptyReg = true := by
          rw [run_concat, next_emptyReg]
          simp [hf, hmeet]
        have hempty := hlast.empty_iff.mp hflag
        rw [accepted_eq_stored hready] at hempty
        have h1 := (hq.inv.nextRead_eq_iff (hq.inv.ne_nil_of_fetches hf)).mp hmeet
        simp only [fetchedAt, storedAt, hf, hst, if_true, List.length_singleton] at hlen
        omega
  · intro hclean p hp
    exact isQueue_of_clean hpos hs (hclean.restrict hp)

end Results

/-- A FIFO of numbers out of reset. -/
def powerUp : State Nat := ⟨fun _ => 0, 0, 0, true, false, .idle, 0, 0⟩

theorem powerUp_isReset : powerUp.IsReset := ⟨rfl, rfl, rfl, rfl, rfl⟩

/-- A cycle that offers `w` at `enq`. -/
def offer (w : Nat) (writeToFIFO : Bool) : Inputs Nat := ⟨true, w, false, writeToFIFO, 0⟩

/-- A cycle that takes a word at `deq`. -/
def take : Inputs Nat := ⟨false, 0, true, true, 0⟩

/-- The second of two words stored back to back meets the fetch of the first: the FIFO
    then claims to be empty with that word in its memory.  A word offered while
    `writeToFIFO` is low is not accepted and is stored all the same. -/
theorem stranded_and_stray_words :
    ¬ IsQueue 2 powerUp [offer 1 true, offer 2 true] ∧
      ¬ IsQueue 2 powerUp [offer 1 false] := by
  constructor
  · intro h
    have := h.empty_iff.mp (by decide)
    revert this
    decide
  · intro h
    have := h.stored_ready.1 (by decide)
    revert this
    decide

theorem isQueue_of_spaced_offers :
    IsQueue 2 powerUp [offer 1 true, take, offer 2 true, take, take] :=
  (isQueue_iff_clean (by decide) powerUp_isReset _).mpr (by decide) _ List.prefix_rfl

end Patmos.MemFifo
