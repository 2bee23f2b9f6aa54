import Patmos.Clocked
import Patmos.Frames
import Patmos.Ring

/-!
# The circular buffer

`CircularBuffer(1518, 16)` collects the words of a frame behind a free slot for
its header.  A control beat closes the frame: `addHeader` writes the header into
the slot and starts the reader, `flushFrame` moves the head back.  One flag, one
length and one counter describe the frame that the reader drains, and the next
header beat overwrites them.

The model follows the Chisel text: `depth = 1518` gives `bitWidth = 11` and
`actualDepth = 2048`; the arithmetic on `tdata` is 16 bits wide and the pointers
are 11 bits wide.  The main result is that the words transferred at `deq` are
always the first words of the kept frames, provided no header beat arrives while
an earlier frame is still being drained.
-/

namespace Patmos.CircularBuffer

open Clocked Patmos.Ring Frames

/-! ### The circuit -/

/-- `2 ^ log2Ceil(1518)`. -/
def actualDepth : Nat := 2048

/-- One cycle of `filter_bus` as driven by the filter. -/
structure Beat where
  valid : Bool
  flushFrame : Bool
  addHeader : Bool
  tdata : Nat
deriving DecidableEq, Repr

structure State where
  readFrom : Bool
  mem : Nat → Nat
  head : Nat
  tail : Nat
  readValue : Nat
  counter : Nat
  /-- The register of `RegNext(false.B)`; it has no reset value and is only clocked
      in the branch that creates it. -/
  lowReg : Bool

structure Inputs where
  beat : Beat
  deqReady : Bool
deriving DecidableEq, Repr

structure State.IsReset (s : State) : Prop where
  readFrom : s.readFrom = false
  head : s.head = 1
  tail : s.tail = 0
  readValue : s.readValue = 0
  counter : s.counter = 0

/-- Subtraction of 16-bit values. -/
def sub16 (a b : Nat) : Nat := (a + 65536 - b) % 65536

/-- `(tdata + 1) / 2` in 16 bits. -/
def halfUp (tdata : Nat) : Nat := (tdata + 1) % 65536 / 2

def bufferLength (s : State) : Nat :=
  let difference := ((s.head + 2047) % 2048 + 2048 - s.tail) % 2048
  if difference < 0 then difference + actualDepth else difference

def bufferEmpty (s : State) : Bool := bufferLength s == 0

def bufferFull (s : State) : Bool := decide (bufferLength s ≥ actualDepth - 1)

/-- `filter_bus.ready`. -/
def ready (s : State) : Bool := !bufferFull s

def flush (s : State) (b : Beat) : Nat :=
  if b.flushFrame then sub16 s.head ((halfUp b.tdata + 1) % 65536) else s.head

def address (s : State) (b : Beat) : Nat :=
  if b.addHeader then sub16 s.head ((halfUp b.tdata + 2) % 65536) else flush s b

/-- The reader takes the word at the tail. -/
def reads (s : State) (deqReady : Bool) : Bool := deqReady && !bufferEmpty s && s.readFrom

/-- The word at the tail is the last one of the frame being drained. -/
def lastWord (s : State) : Bool :=
  s.counter == (s.readValue + 1) % 65536 && s.readValue != 0

def deqValid (s : State) (deqReady : Bool) : Bool := deqReady && s.readFrom

def deqBits (s : State) (deqReady : Bool) : Nat :=
  let bufferValue := if reads s deqReady then s.mem s.tail else 0
  if deqReady && s.readFrom then bufferValue else 0

def endOfFrame (b : Beat) : Bool := b.addHeader

def frameRecieving (s : State) (deqReady : Bool) : Bool :=
  if reads s deqReady then (if lastWord s then s.lowReg else true) else false

def next (s : State) (i : Inputs) : State :=
  let b := i.beat
  let s1 := if bufferEmpty s then { s with readFrom := false } else s
  let s2 := if b.addHeader then { s1 with readFrom := true, readValue := halfUp b.tdata } else s1
  let s3 :=
    if b.valid && !bufferFull s then
      { s2 with
        head := if s.head = actualDepth then 1 else (s.head + 1) % 2048
        mem := Function.update s.mem (address s b % 2048) b.tdata }
    else s2
  let s4 :=
    if reads s i.deqReady then
      let s3' := { s3 with tail := if s.tail = actualDepth then 0 else (s.tail + 1) % 2048 }
      if lastWord s then
        { s3' with readFrom := false, counter := 0, readValue := 0, lowReg := false }
      else { s3' with counter := (s.counter + 1) % 2048 }
    else s3
  if b.flushFrame then { s4 with head := flush s b % 2048 } else s4

/-! ### The registers after one cycle -/

section Next

variable (s : State) (i : Inputs)

/-- Each register with its last assignment. -/
theorem next_eq : next s i =
    { readFrom :=
        if reads s i.deqReady && lastWord s then false
        else if i.beat.addHeader then true
        else if bufferEmpty s then false else s.readFrom
      mem :=
        if i.beat.valid && !bufferFull s then
          Function.update s.mem (address s i.beat % 2048) i.beat.tdata
        else s.mem
      head :=
        if i.beat.flushFrame then flush s i.beat % 2048
        else if i.beat.valid && !bufferFull s then
          if s.head = actualDepth then 1 else (s.head + 1) % 2048
        else s.head
      tail :=
        if reads s i.deqReady then if s.tail = actualDepth then 0 else (s.tail + 1) % 2048
        else s.tail
      readValue :=
        if reads s i.deqReady && lastWord s then 0
        else if i.beat.addHeader then halfUp i.beat.tdata else s.readValue
      counter :=
        if reads s i.deqReady then if lastWord s then 0 else (s.counter + 1) % 2048
        else s.counter
      lowReg := if reads s i.deqReady && lastWord s then false else s.lowReg } := by
  obtain ⟨⟨valid, flushFrame, addHeader, tdata⟩, deqReady⟩ := i
  simp only [next]
  cases flushFrame <;> cases addHeader <;> cases reads s deqReady <;> cases lastWord s <;>
    cases (valid && !bufferFull s) <;> cases bufferEmpty s <;> rfl

end Next

/-- An 11-bit pointer never reaches `actualDepth`; it wraps by itself. -/
theorem ne_actualDepth {p : Nat} (hp : p < 2048) : p ≠ actualDepth := by
  unfold actualDepth; omega

/-! ### Frames on the bus -/

/-- What an observer of the two ports has seen: the data beats of the frame in
    progress, the kept frames, and the words transferred at `deq`. -/
structure Bus where
  cur : List Nat
  kept : List (List Nat)
  out : List Nat
deriving DecidableEq, Repr

/-- The words transferred at `deq` in one cycle. -/
def transferredAt (s : State) (i : Inputs) : List Nat :=
  if deqValid s i.deqReady && i.deqReady then [deqBits s i.deqReady] else []

def Bus.next (bus : Bus) (s : State) (i : Inputs) : Bus where
  cur := if i.beat.valid then
      if i.beat.addHeader || i.beat.flushFrame then [] else bus.cur ++ [i.beat.tdata]
    else bus.cur
  kept := if i.beat.valid && i.beat.addHeader then bus.kept ++ [bus.cur] else bus.kept
  out := bus.out ++ transferredAt s i

/-- The circuit together with the observer. -/
structure Sys where
  st : State
  bus : Bus

def Sys.next (y : Sys) (i : Inputs) : Sys := ⟨CircularBuffer.next y.st i, y.bus.next y.st i⟩

def Sys.IsReset (y : Sys) : Prop := y.st.IsReset ∧ y.bus = ⟨[], [], []⟩

/-- No beat. -/
def Beat.isIdle (b : Beat) : Bool := !b.valid && !b.flushFrame && !b.addHeader

def Beat.isData (b : Beat) : Bool := b.valid && !b.flushFrame && !b.addHeader

/-- A header beat or a flush beat for a frame of `w` words. -/
def Beat.closes (b : Beat) (w : Nat) : Bool :=
  b.valid && (b.flushFrame != b.addHeader) && b.tdata == 2 * (w - 1)

/-- The filter keeps to the framing of the bus: beats only while `ready`, and at least
    two data beats before the control beat that carries their length. -/
def Legal (y : Sys) (i : Inputs) : Prop :=
  i.beat.isIdle = true ∨
    ready y.st = true ∧
      (i.beat.isData = true ∨ 2 ≤ y.bus.cur.length ∧ i.beat.closes y.bus.cur.length = true)

/-- A header beat does not meet a frame that is still being drained. -/
def HeaderAfterDrain (y : Sys) (i : Inputs) : Prop :=
  i.beat.addHeader = true → y.st.readFrom = false

instance (y : Sys) (i : Inputs) : Decidable (Legal y i) := inferInstanceAs (Decidable (_ ∨ _))

instance (y : Sys) (i : Inputs) : Decidable (HeaderAfterDrain y i) :=
  inferInstanceAs (Decidable (_ → _))

/-! ### Where the words stand -/

/-- `rem` is what is left of the frames to be drained; it starts at the tail.  Behind it are the
    free header slot and the data beats `cur` of the frame in progress. -/
structure Layout (s : State) (tail : Nat) (rem cur : List Nat) : Prop where
  tail_lt : tail < 2048
  head_eq : s.head = (tail + (rem.length + 1 + cur.length)) % 2048
  length_le : rem.length + cur.length ≤ 2047
  rem_holds : Holds 2048 s.mem tail rem
  cur_holds : Holds 2048 s.mem (tail + rem.length + 1) cur

namespace Layout

variable {s : State} {i : Inputs} {tail : Nat} {rem cur : List Nat}

/-- The buffer counts the words to be drained and the data beats of the open frame. -/
theorem bufferLength_eq (h : Layout s s.tail rem cur) :
    bufferLength s = rem.length + cur.length := by
  have hhead := h.head_eq
  have htail := h.tail_lt
  have hlen := h.length_le
  unfold bufferLength
  simp only [Nat.not_lt_zero, if_false]
  omega

theorem ready_iff (h : Layout s s.tail rem cur) :
    ready s = true ↔ rem.length + cur.length < 2047 := by
  unfold ready bufferFull
  rw [h.bufferLength_eq]
  simp [actualDepth]

theorem pop {x : Nat} (h : Layout s tail (x :: rem) cur) :
    Layout s ((tail + 1) % 2048) rem cur := by
  have hhead := h.head_eq
  have hlen := h.length_le
  rw [List.length_cons] at hhead hlen
  exact ⟨Nat.mod_lt _ (by decide), by omega, by omega,
    (holds_cons.mp h.rem_holds).2.congr_mod (by omega),
    h.cur_holds.congr_mod (by rw [List.length_cons]; omega)⟩

/-! ### The write side of the four kinds of cycles -/

theorem idle (h : Layout s tail rem cur) (hb : i.beat.isIdle = true) :
    Layout (next s i) tail rem cur := by
  simp only [Beat.isIdle, Bool.and_eq_true, Bool.not_eq_true'] at hb
  have hmem : (next s i).mem = s.mem := by simp [next_eq, hb]
  have hhead : (next s i).head = s.head := by simp [next_eq, hb]
  exact ⟨h.tail_lt, hhead ▸ h.head_eq, h.length_le, hmem ▸ h.rem_holds, hmem ▸ h.cur_holds⟩

variable (h : Layout s s.tail rem cur) (hready : ready s = true)
include h hready

theorem data (hb : i.beat.isData = true) :
    Layout (next s i) s.tail rem (cur ++ [i.beat.tdata]) := by
  simp only [Beat.isData, Bool.and_eq_true, Bool.not_eq_true'] at hb
  have hlt := h.ready_iff.mp hready
  have hfull : bufferFull s = false := by simpa [ready] using hready
  have hhead := h.head_eq
  have haddr : s.head % 2048 = (s.tail + (rem.length + 1 + cur.length)) % 2048 := by omega
  have hmem : (next s i).mem = Function.update s.mem (s.head % 2048) i.beat.tdata := by
    simp [next_eq, hfull, address, flush, hb]
  refine ⟨h.tail_lt, ?_, ?_, ?_, ?_⟩
  · simp only [next_eq, hb, hfull, Bool.false_eq_true, if_false, Bool.not_false, Bool.and_true,
      if_true, List.length_append, List.length_singleton]
    rw [if_neg (ne_actualDepth (by omega))]
    omega
  · rw [List.length_append, List.length_singleton]
    omega
  · rw [hmem]
    exact h.rem_holds.write_behind (k := rem.length + 1 + cur.length) (by omega) (by omega) haddr _
  · rw [hmem]
    exact h.cur_holds.push (by omega) (haddr.trans (by rw [← add_assoc, ← add_assoc])) _

variable (hcur : 1 ≤ cur.length) (hb : i.beat.closes cur.length = true)
include hcur hb

theorem flush (hf : i.beat.addHeader = false) : Layout (next s i) s.tail rem [] := by
  simp only [Beat.closes, hf, Bool.and_eq_true, bne_iff_ne, ne_eq, Bool.not_eq_false,
    beq_iff_eq] at hb
  have hlt := h.ready_iff.mp hready
  have hfull : bufferFull s = false := by simpa [ready] using hready
  have hhead := h.head_eq
  -- the head goes back over the data beats, to the cell behind the slot
  have hflush : sub16 s.head ((halfUp (2 * (cur.length - 1)) + 1) % 65536) % 2048 =
      (s.tail + (rem.length + 1)) % 2048 := by
    unfold sub16 halfUp; omega
  refine ⟨h.tail_lt, ?_, ?_, ?_, holds_nil⟩
  · simpa [next_eq, CircularBuffer.flush, hb] using hflush
  · exact Nat.le_trans (Nat.le_add_right _ cur.length) h.length_le
  · simp only [next_eq, hfull, address, CircularBuffer.flush, hf, hb]
    exact h.rem_holds.write_behind (k := rem.length + 1) (by omega) (by omega) hflush _

/-- A header beat closes the open frame behind the words that stand there. -/
theorem header (hf : i.beat.addHeader = true) :
    Layout (next s i) s.tail (rem ++ encode cur) [] := by
  simp only [Beat.closes, hf, Bool.and_eq_true, bne_iff_ne, ne_eq, Bool.not_eq_true,
    beq_iff_eq] at hb
  have hlt := h.ready_iff.mp hready
  have hfull : bufferFull s = false := by simpa [ready] using hready
  have hhead := h.head_eq
  -- the slot is the cell behind `rem`, one turn less one cell behind the data
  have hslot : sub16 s.head ((halfUp (2 * (cur.length - 1)) + 2) % 65536) % 2048 =
      (s.tail + rem.length) % 2048 := by
    unfold sub16 halfUp; omega
  have hlen : (rem ++ encode cur).length = rem.length + (cur.length + 1) := by simp
  refine ⟨h.tail_lt, ?_, ?_, ?_, holds_nil⟩
  · simp only [next_eq, hfull, hb, hlen, Bool.false_eq_true, if_false, Bool.not_false,
      Bool.and_true, if_true, List.length_nil]
    rw [if_neg (ne_actualDepth (by omega))]
    omega
  · rw [hlen, List.length_nil]
    omega
  · simp only [next_eq, hfull, hb, hf, address, encode, holds_append, holds_cons, Bool.not_false,
      Bool.and_true, if_true]
    rw [hslot]
    exact ⟨h.rem_holds.write_behind (k := rem.length) (le_refl _) (by omega) rfl _,
      Function.update_self _ _ _,
      h.cur_holds.write_behind (k := 2047) (by omega) (by omega) (by omega) _⟩

end Layout

/-! ### The invariant -/

structure Inv (y : Sys) (rem : List Nat) : Prop extends
    Layout y.st y.st.tail rem y.bus.cur where
  out_eq : y.bus.out ++ rem = stream y.bus.kept
  readFrom_eq : y.st.readFrom = decide (rem ≠ [])
  rested : rem = [] → y.st.counter = 0
  draining : rem ≠ [] → y.st.readValue ≠ 0 ∧ y.st.readValue ≤ 2045 ∧
    y.st.counter + rem.length = y.st.readValue + 2

theorem Sys.IsReset.inv {y : Sys} (h : y.IsReset) : Inv y [] := by
  obtain ⟨st, bus⟩ := y
  obtain ⟨hst, rfl⟩ := h
  replace hst : st.IsReset := hst
  exact ⟨⟨by simp [hst.tail], by simp [hst.head, hst.tail], by simp, holds_nil, holds_nil⟩,
    rfl, by simp [hst.readFrom], fun _ => hst.counter, fun h => absurd rfl h⟩

namespace Inv

variable {y : Sys} {i : Inputs} {rem : List Nat}

/-- The reader moves exactly when it may and there is a word of a kept frame. -/
theorem reads_eq (h : Inv y rem) (deqReady : Bool) :
    reads y.st deqReady = (deqReady && decide (rem ≠ [])) := by
  unfold reads bufferEmpty
  rw [h.bufferLength_eq, h.readFrom_eq]
  cases rem <;> simp

/-- The reader recognises the last word of the frame. -/
theorem lastWord_iff (h : Inv y rem) (hrem : rem ≠ []) :
    lastWord y.st = true ↔ rem.length = 1 := by
  obtain ⟨hne, hle, hsum⟩ := h.draining hrem
  unfold lastWord
  simp only [Bool.and_eq_true, beq_iff_eq, bne_iff_ne, ne_eq, hne, not_false_eq_true, and_true]
  omega

theorem transferredAt_eq (h : Inv y rem) (i : Inputs) :
    transferredAt y.st i ++ (if reads y.st i.deqReady then rem.tail else rem) = rem := by
  unfold transferredAt deqValid deqBits
  rw [h.reads_eq, h.readFrom_eq]
  cases hr : i.deqReady
  · simp
  · cases rem with
    | nil => simp
    | cons x rest =>
      have hx := (holds_cons.mp h.rem_holds).1
      rw [Nat.mod_eq_of_lt h.tail_lt] at hx
      simp [hx]

/-- The read side of a cycle without a header beat. -/
theorem drain (h : Inv y rem) (hb : i.beat.addHeader = false)
    (hl : Layout (CircularBuffer.next y.st i) y.st.tail rem (y.next i).bus.cur) :
    Inv (y.next i) (if reads y.st i.deqReady then rem.tail else rem) := by
  have hout : (y.next i).bus.out ++ (if reads y.st i.deqReady then rem.tail else rem) =
      stream (y.next i).bus.kept := by
    simp only [Sys.next, Bus.next, hb, Bool.and_false, List.append_assoc, h.transferredAt_eq]
    exact h.out_eq
  have hreads := h.reads_eq i.deqReady
  by_cases hr : reads y.st i.deqReady = true
  · -- the reader takes the front word of `rem`
    cases rem with
    | nil => simp [hr] at hreads
    | cons x rest =>
      obtain ⟨hv0, hvle, hsum⟩ := h.draining (List.cons_ne_nil x rest)
      have hlast := h.lastWord_iff (List.cons_ne_nil x rest)
      have htail : (y.next i).st.tail = (y.st.tail + 1) % 2048 := by
        simp only [Sys.next, next_eq, hr, if_true]
        rw [if_neg (ne_actualDepth h.tail_lt)]
      simp only [hr, if_true, List.tail_cons] at hout ⊢
      have hlay : Layout (y.next i).st (y.next i).st.tail rest (y.next i).bus.cur := htail ▸ hl.pop
      cases rest with
      | nil =>
        have hlw : lastWord y.st = true := hlast.mpr rfl
        exact ⟨hlay, hout, by simp [Sys.next, next_eq, hr, hlw],
          fun _ => by simp [Sys.next, next_eq, hr, hlw], fun h => absurd rfl h⟩
      | cons z zs =>
        have hlw : lastWord y.st = false := by simpa using hlast
        have hempty : bufferEmpty y.st = false := by simp [bufferEmpty, h.bufferLength_eq]
        refine ⟨hlay, hout, by simp [Sys.next, next_eq, hb, hlw, hempty, h.readFrom_eq],
          fun hnil => absurd hnil (List.cons_ne_nil z zs), fun _ => ?_⟩
        simp only [Sys.next, next_eq, hr, hlw, hb, Bool.and_false, if_true, Bool.false_eq_true,
          if_false]
        simp only [List.length_cons] at hsum ⊢
        exact ⟨hv0, hvle, by omega⟩
  · -- the reader rests
    have htail : (y.next i).st.tail = y.st.tail := by simp [Sys.next, next_eq, hr]
    simp only [hr, Bool.false_eq_true, if_false] at hout ⊢
    refine ⟨htail ▸ hl, hout, ?_, ?_, ?_⟩
    · simp only [Sys.next, next_eq, hr, hb, Bool.false_and, Bool.false_eq_true, if_false]
      by_cases he : bufferEmpty y.st = true
      · have hnil : rem = [] := by
          have : rem.length + y.bus.cur.length = 0 := by
            rw [← h.bufferLength_eq]; simpa [bufferEmpty] using he
          exact List.length_eq_zero_iff.mp (by omega)
        simp [he, hnil]
      · simp [he, h.readFrom_eq]
    · intro hnil
      simpa [Sys.next, next_eq, hr] using h.rested hnil
    · intro hne
      simpa [Sys.next, next_eq, hr, hb] using h.draining hne

/-- A header beat that finds no frame being drained puts the closed frame at the tail. -/
theorem header (h : Inv y []) (hready : ready y.st = true)
    (hcur : 2 ≤ y.bus.cur.length) (hb : i.beat.closes y.bus.cur.length = true)
    (hf : i.beat.addHeader = true) : Inv (y.next i) (encode y.bus.cur) := by
  have hlt := h.ready_iff.mp hready
  have hreads : reads y.st i.deqReady = false := by simp [h.reads_eq]
  have htr : transferredAt y.st i = [] := by simpa using h.transferredAt_eq i
  have hl := h.toLayout.header hready (by omega) hb hf
  simp only [Beat.closes, Bool.and_eq_true, beq_iff_eq] at hb
  obtain ⟨⟨hvalid, -⟩, hdata⟩ := hb
  have htail : (y.next i).st.tail = y.st.tail := by simp [Sys.next, next_eq, hreads]
  have hcur' : (y.next i).bus.cur = [] := by simp [Sys.next, Bus.next, hvalid, hf]
  refine ⟨htail ▸ hcur' ▸ hl, ?_, ?_, ?_, ?_⟩
  · have hout := h.out_eq
    rw [List.append_nil] at hout
    simp [Sys.next, Bus.next, htr, hout, hvalid, hf]
  · simp [Sys.next, next_eq, hreads, hf, encode]
  · intro hnil; simp [encode] at hnil
  · intro _
    simp only [List.length_nil, zero_add] at hlt
    simp only [Sys.next, next_eq, hreads, hf, hdata, Bool.false_and, Bool.false_eq_true, if_false,
      if_true, h.rested rfl, encode_length, halfUp]
    omega

end Inv

/-- The words to be drained after a cycle. -/
def after (y : Sys) (i : Inputs) (rem : List Nat) : List Nat :=
  if i.beat.addHeader then encode y.bus.cur
  else if reads y.st i.deqReady then rem.tail else rem

theorem Inv.step {y : Sys} {i : Inputs} {rem : List Nat} (h : Inv y rem)
    (hlegal : Legal y i) (hdrain : HeaderAfterDrain y i) : Inv (y.next i) (after y i rem) := by
  unfold after
  rcases hlegal with hidle | ⟨hready, hdata | ⟨hcur, hclose⟩⟩
  · have hl := h.idle hidle
    simp only [Beat.isIdle, Bool.and_eq_true, Bool.not_eq_true'] at hidle
    rw [hidle.2]
    exact h.drain hidle.2 (by simpa [Sys.next, Bus.next, hidle] using hl)
  · have hl := h.data hready hdata
    simp only [Beat.isData, Bool.and_eq_true, Bool.not_eq_true'] at hdata
    rw [hdata.2]
    exact h.drain hdata.2 (by simpa [Sys.next, Bus.next, hdata] using hl)
  · cases hb : i.beat.addHeader with
    | true =>
      have hnil : rem = [] := by
        have hread := h.readFrom_eq
        rw [hdrain hb] at hread
        simpa using hread
      subst hnil
      exact h.header hready hcur hclose hb
    | false =>
      have hl := h.flush hready (by omega) hclose hb
      simp only [Beat.closes, hb, Bool.and_eq_true, bne_iff_ne, ne_eq, Bool.not_eq_false] at hclose
      exact h.drain hb (by simpa [Sys.next, Bus.next, hclose] using hl)

theorem exists_inv {y : Sys} {is : List Inputs} (hy : y.IsReset)
    (h : Along Sys.next (fun y i => Legal y i ∧ HeaderAfterDrain y i) y is) :
    ∃ rem, Inv (run Sys.next y is) rem :=
  inv_run (I := fun y => ∃ rem, Inv y rem)
    (fun _ _ ⟨_, hinv⟩ hP => ⟨_, hinv.step hP.1 hP.2⟩) ⟨[], hy.inv⟩ h

/-- **The buffer delivers the kept frames.**  In every run in which no header beat meets
    a frame that is still being drained, the words transferred at `deq` are the first
    words of the kept frames, each with its header in front. -/
theorem drained_of_headerAfterDrain {y : Sys} {is : List Inputs} (hy : y.IsReset)
    (h : Along Sys.next (fun y i => Legal y i ∧ HeaderAfterDrain y i) y is) :
    (run Sys.next y is).bus.out <+: stream (run Sys.next y is).bus.kept := by
  obtain ⟨rem, hinv⟩ := exists_inv hy h
  rw [← hinv.out_eq]
  exact List.prefix_append _ _

/-- A buffer out of reset. -/
def powerUp : Sys := ⟨⟨false, fun _ => 0, 1, 0, 0, 0, false⟩, [], [], []⟩

theorem powerUp_isReset : powerUp.IsReset := ⟨⟨rfl, rfl, rfl, rfl, rfl⟩, rfl⟩

def dataCycle (w : Nat) (deqReady : Bool) : Inputs := ⟨⟨true, false, false, w⟩, deqReady⟩

def headerCycle (w : Nat) (deqReady : Bool) : Inputs := ⟨⟨true, false, true, 2 * (w - 1)⟩, deqReady⟩

def idleCycle (deqReady : Bool) : Inputs := ⟨⟨false, false, false, 0⟩, deqReady⟩

/-- A frame of five words of which four entries, header included, are drained when the
    header beat of a frame of two words arrives.  The counter is then past the new
    length: the reader runs to the end of the buffer and hands over one word more. -/
def overtaken : List Inputs :=
  [dataCycle 11 false, dataCycle 12 false, dataCycle 13 false, dataCycle 14 false,
    dataCycle 15 false, headerCycle 5 false, dataCycle 21 false, dataCycle 22 false] ++
  List.replicate 4 (idleCycle true) ++ [headerCycle 2 false] ++ List.replicate 6 (idleCycle true)

theorem overtaken_spurious_word :
    Along Sys.next Legal powerUp overtaken ∧
      (run Sys.next powerUp overtaken).bus.kept = [[11, 12, 13, 14, 15], [21, 22]] ∧
      (run Sys.next powerUp overtaken).bus.out =
        stream [[11, 12, 13, 14, 15], [21, 22]] ++ [0] ∧
      ¬ (run Sys.next powerUp overtaken).bus.out <+:
        stream (run Sys.next powerUp overtaken).bus.kept := by
  decide

/-- Two kept frames around a dropped one, each drained before the next header beat. -/
def spaced : List Inputs :=
  [dataCycle 1 true, dataCycle 2 true, headerCycle 2 true, dataCycle 3 true, dataCycle 4 true,
    ⟨⟨true, true, false, 2⟩, true⟩, dataCycle 5 true, dataCycle 6 true, headerCycle 2 true,
    idleCycle true, idleCycle true]

theorem spaced_drained :
    (run Sys.next powerUp spaced).bus.out <+: stream (run Sys.next powerUp spaced).bus.kept :=
  drained_of_headerAfterDrain powerUp_isReset (by decide)

/-! ### One frame from any position of the pointers -/

/-- Data beats that fit, with pauses between them, collect the open frame. -/
theorem layout_of_beats {s : State} {ws cur : List Nat} {ds : List Inputs}
    (h : Layout s s.tail ws cur) (hrest : s.readFrom = false)
    (hdata : ∀ d ∈ ds, d.beat.isIdle = true ∨ d.beat.isData = true)
    (hroom : ws.length + cur.length + ds.countP (·.beat.isData) < 2047) :
    (run next s ds).tail = s.tail ∧ (run next s ds).readFrom = false ∧ ∃ cur',
      Layout (run next s ds) s.tail ws cur' ∧
      cur'.length = cur.length + ds.countP (·.beat.isData) := by
  induction ds generalizing s cur with
  | nil => exact ⟨rfl, hrest, cur, h, rfl⟩
  | cons d ds ih =>
    obtain ⟨hd, hds⟩ := List.forall_mem_cons.mp hdata
    have htail : (next s d).tail = s.tail := by simp [next_eq, reads, hrest]
    rw [List.countP_cons] at hroom ⊢
    rw [run_cons, ← htail]
    rcases hd with hd | hd
    · have hl := h.idle hd
      simp only [Beat.isIdle, Bool.and_eq_true, Bool.not_eq_true'] at hd
      have hno : d.beat.isData = false := by simp [Beat.isData, hd]
      rw [hno] at hroom ⊢
      exact ih (htail ▸ hl) (by simp [next_eq, hd, hrest]) hds hroom
    · rw [hd, if_pos rfl] at hroom ⊢
      have hl := h.data (h.ready_iff.mpr (by omega)) hd
      simp only [Beat.isData, Bool.and_eq_true, Bool.not_eq_true'] at hd
      obtain ⟨ht, hr, cur', hl', hlen⟩ := ih (htail ▸ hl) (by simp [next_eq, hd, hrest]) hds
        (by rw [List.length_append, List.length_singleton]; omega)
      rw [List.length_append, List.length_singleton] at hlen
      exact ⟨ht, hr, cur', hl', by omega⟩

/-- **The pointer law.**  From any position of the pointers with nothing being drained,
    and `w ≥ 1` data words that fit: a flush beat puts the head back and keeps the words
    `ws` between tail and head; a header beat fills the slot before the first word, and the
    head and the length grow by `w + 1`. -/
theorem pointer_law {s : State} (hhead : s.head < 2048) (htail : s.tail < 2048)
    (hrest : s.readFrom = false) {ws : List Nat} (hws : ws.length = bufferLength s)
    (hold : Holds 2048 s.mem s.tail ws) {ds : List Inputs} {w : Nat}
    (hdata : ∀ d ∈ ds, d.beat.isIdle = true ∨ d.beat.isData = true)
    (hw : ds.countP (·.beat.isData) = w) (hpos : 1 ≤ w) (hroom : bufferLength s + w < 2047)
    {i : Inputs} (hclose : i.beat.closes w = true) :
    (i.beat.flushFrame = true → (next (run next s ds) i).head = s.head ∧
      Holds 2048 (next (run next s ds) i).mem s.tail ws) ∧
    (i.beat.addHeader = true →
      (next (run next s ds) i).mem ((s.head + 2047) % 2048) = 2 * (w - 1) ∧
      (next (run next s ds) i).head = (s.head + (w + 1)) % 2048 ∧
      bufferLength (next (run next s ds) i) = bufferLength s + (w + 1)) := by
  have hs : s.head = (s.tail + (ws.length + 1)) % 2048 := by
    rw [hws]
    unfold bufferLength
    simp only [Nat.not_lt_zero, if_false]
    omega
  have h : Layout s s.tail ws [] := ⟨htail, hs, by simp; omega, hold, holds_nil⟩
  obtain ⟨ht, hr, cur, hl, hc⟩ := layout_of_beats h hrest hdata (by simp; omega)
  generalize run next s ds = z at hl hr ht
  rw [List.length_nil, Nat.zero_add, hw] at hc
  subst hc
  rw [← ht] at hl
  have hready : ready z = true := hl.ready_iff.mpr (by omega)
  refine ⟨fun hf => ?_, fun hf => ?_⟩
  · have ha : i.beat.addHeader = false := by
      simp only [Beat.closes, hf, Bool.and_eq_true, bne_iff_ne, ne_eq] at hclose
      simpa using Ne.symm hclose.1.2
    have hflush := hl.flush hready hpos hclose ha
    rw [ht] at hflush
    exact ⟨hflush.head_eq.trans hs.symm, hflush.rem_holds⟩
  · have hlay := hl.header hready hpos hclose hf
    have hnt : (next z i).tail = z.tail := by simp [next_eq, reads, hr]
    rw [← hnt] at hlay
    have hh := hlay.head_eq
    have hlen := hlay.bufferLength_eq
    have hmem := (holds_cons.mp (holds_append.mp hlay.rem_holds).2).1
    rw [List.length_append, encode_length, List.length_nil] at hh hlen
    rw [hnt, ht] at hh hmem
    refine ⟨?_, hh.trans (by omega), hlen.trans (by omega)⟩
    rw [show (s.head + 2047) % 2048 = (s.tail + ws.length) % 2048 by omega]
    exact hmem

/-- Three words stranded at the end of the memory, the head past its wrap. -/
def wrapped : State := ⟨false, fun a => a, 1, 2045, 0, 0, false⟩

theorem wrapped_pointer_law :
    (next (run next wrapped [dataCycle 7 true, idleCycle true, dataCycle 8 true])
      (headerCycle 2 true)).mem 0 = 2 ∧
    (next (run next wrapped [dataCycle 7 true, idleCycle true, dataCycle 8 true])
      (headerCycle 2 true)).head = 4 :=
  have h := (@pointer_law wrapped (by decide) (by decide) rfl [2045, 2046, 2047] (by decide)
    (by simp [wrapped]) [dataCycle 7 true, idleCycle true, dataCycle 8 true] 2 (by decide)
    (by decide) (by decide) (by decide) (headerCycle 2 true) (by decide)).2 rfl
  ⟨h.1, h.2.1⟩

end Patmos.CircularBuffer
