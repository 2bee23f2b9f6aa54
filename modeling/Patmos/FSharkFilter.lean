import Patmos.CircularBuffer
import Mathlib.Logic.Function.Iterate

/-!
# The frame filter

`FShark_filter` with `datawidth = 16` looks at one byte of each frame on the
AXI-Stream input, passes the words on to the circular buffer and closes the
frame with a control beat: `addHeader` when the byte has the wanted value,
`flushFrame` otherwise.

The model is the six-state machine with its three counters; a register that is
assigned twice keeps the later value.  The result about whole frame sequences is
an equivalence.  Frames are consumed one by one, each with the right verdict,
exactly when the inspected word is never the last word of a frame: in that word
`bufferEvaluate` decides without looking at `tlast`.
-/

namespace Patmos.FSharkFilter

open CircularBuffer (Beat)

/-! ### The circuit -/

inductive BufferState where
  | bufferIdle
  | bufferEvaluate
  | bufferBadFrame
  | bufferGoodFrame
  | bufferFlushFrame
  | bufferAddHeader
deriving DecidableEq, Repr

structure State where
  cntFrame : Nat
  cntBytes : Nat
  indexHighLow : Nat
  stateBuffer : BufferState
deriving DecidableEq, Repr

/-- The AXI-Stream signals from the MAC. -/
structure Axis where
  tvalid : Bool
  tkeep : Nat
  tdata : Nat
  tlast : Bool
deriving DecidableEq, Repr

structure Inputs where
  axis : Axis
  ready : Bool
  filterIndex : Nat
  filterValue : Nat
  filterSet : Bool

structure Outputs where
  tready : Bool
  beat : Beat

def reset : State := ⟨0, 0, 0, .bufferIdle⟩

/-- `PopCount` of the two bits of `tkeep`. -/
def popCount (tkeep : Nat) : Nat := tkeep % 2 + tkeep / 2 % 2

/-- The word with the inspected byte is on the bus: the upper eleven bits agree. -/
def atIndex (s : State) (i : Inputs) : Bool := s.cntFrame / 2 % 2048 == i.filterIndex / 2 % 2048

/-- The inspected byte, shifted down and masked, has the wanted value. -/
def byteMatches (s : State) (i : Inputs) : Bool :=
  i.axis.tdata / 2 ^ (s.indexHighLow * 8) % 256 == i.filterValue

/-- The frame ends before the inspected byte. -/
def endsBefore (s : State) (i : Inputs) : Bool :=
  decide (s.cntFrame < i.filterIndex) && i.axis.tlast

def out (s : State) (i : Inputs) : Outputs :=
  if i.ready && i.filterSet then
    match s.stateBuffer with
    | .bufferIdle => ⟨false, false, false, false, 0⟩
    | .bufferEvaluate =>
      if atIndex s i then ⟨true, true, false, false, i.axis.tdata⟩
      else if endsBefore s i then ⟨false, true, false, false, i.axis.tdata⟩
      else ⟨true, true, false, false, i.axis.tdata⟩
    | .bufferGoodFrame => ⟨!i.axis.tlast, true, false, false, i.axis.tdata⟩
    | .bufferAddHeader => ⟨true, true, false, true, s.cntFrame⟩
    | .bufferBadFrame => ⟨!i.axis.tlast, i.axis.tlast, false, false, 0⟩
    | .bufferFlushFrame => ⟨true, true, true, false, s.cntFrame⟩
  else ⟨false, false, false, false, 0⟩

def next (s : State) (i : Inputs) : State :=
  let s1 : State :=
    { cntFrame := if i.axis.tvalid && i.filterSet then (s.cntFrame + s.cntBytes) % 4096
        else s.cntFrame
      cntBytes := popCount i.axis.tkeep
      indexHighLow := i.filterIndex % 2
      stateBuffer := s.stateBuffer }
  if i.ready && i.filterSet then
    match s.stateBuffer with
    | .bufferIdle =>
      { s1 with
        cntFrame := 0
        stateBuffer := if i.axis.tvalid then .bufferEvaluate else .bufferIdle }
    | .bufferEvaluate =>
      if atIndex s i then
        { s1 with stateBuffer := if byteMatches s i then .bufferGoodFrame else .bufferBadFrame }
      else if endsBefore s i then
        { s1 with cntFrame := s.cntFrame, stateBuffer := .bufferFlushFrame }
      else s1
    | .bufferGoodFrame =>
      if i.axis.tlast then { s1 with cntFrame := s.cntFrame, stateBuffer := .bufferAddHeader }
      else s1
    | .bufferAddHeader => { s1 with stateBuffer := .bufferIdle }
    | .bufferBadFrame =>
      { s1 with
        cntFrame := s.cntFrame
        stateBuffer := if i.axis.tlast then .bufferFlushFrame else .bufferBadFrame }
    | .bufferFlushFrame => { s1 with cntFrame := s.cntFrame, stateBuffer := .bufferIdle }
  else s1

/-! ### Frames on the AXI-Stream -/

/-- A frame: the words before the last one, the last word, and whether only the low
    byte of the last word belongs to it. -/
structure Frame where
  init : List Nat
  last : Nat
  half : Bool
deriving DecidableEq, Repr

namespace Frame

/-- The low and the high byte of a word, in frame order. -/
def wordBytes (w : Nat) : List Nat := [w % 256, w / 256 % 256]

def bytes (f : Frame) : List Nat :=
  f.init.flatMap wordBytes ++ if f.half then [f.last % 256] else wordBytes f.last

/-- A word before the last one on the bus. -/
def inner (w : Nat) : Axis := ⟨true, 3, w, false⟩

def final (f : Frame) : Axis := ⟨true, if f.half then 1 else 3, f.last, true⟩

/-- The frame as the MAC presents it. -/
def axis (f : Frame) : List Axis := f.init.map inner ++ [f.final]

theorem flatMap_wordBytes_length (ws : List Nat) :
    (ws.flatMap wordBytes).length = 2 * ws.length := by
  induction ws with
  | nil => rfl
  | cons w ws ih => simp only [List.flatMap_cons, List.length_append, ih, List.length_cons,
      wordBytes, List.length_nil]; omega

theorem getElem?_flatMap_wordBytes (ws : List Nat) (k : Nat) :
    (ws.flatMap wordBytes)[k]? = ws[k / 2]?.map fun w => w / 2 ^ (k % 2 * 8) % 256 := by
  induction ws generalizing k with
  | nil => simp
  | cons w ws ih =>
    rcases k with _ | _ | k
    · simp [wordBytes]
    · simp [wordBytes]
    · have := ih k
      simp only [List.flatMap_cons, wordBytes, List.cons_append, List.nil_append,
        List.getElem?_cons_succ, this]
      rw [show (k + 1 + 1) / 2 = k / 2 + 1 by omega, show (k + 1 + 1) % 2 = k % 2 by omega]
      simp

/-- The inspected byte of a frame whose inspected word is not its last word. -/
theorem getElem?_bytes (f : Frame) {k : Nat} (hk : k / 2 ≠ f.init.length) :
    f.bytes[k]? = f.init[k / 2]?.map fun w => w / 2 ^ (k % 2 * 8) % 256 := by
  rw [← getElem?_flatMap_wordBytes, bytes]
  have hlen := flatMap_wordBytes_length f.init
  rcases lt_or_ge k (f.init.flatMap wordBytes).length with hlt | hge
  · exact List.getElem?_append_left hlt
  · rw [List.getElem?_append_right hge, List.getElem?_eq_none hge, List.getElem?_eq_none]
    cases f.half <;> simp [wordBytes] <;> omega

end Frame

/-! ### The filter at the end of a back-to-back stream -/

/-- The values written to the filter registers. -/
structure Config where
  filterIndex : Nat
  filterValue : Nat
  index_lt : filterIndex < 4096
  value_lt : filterValue < 256

/-- What is observed at the two ports: a word taken from the stream, or a control beat
    with its verdict. -/
inductive Event where
  | word (a : Axis)
  | control (keep : Bool)
deriving DecidableEq, Repr

/-- The filter, the words that the MAC has still to deliver, and what was observed. -/
structure Line where
  filter : State
  pending : List Axis
  log : List Event
deriving DecidableEq, Repr

def quiet : Axis := ⟨false, 0, 0, false⟩

def Config.inputs (c : Config) (a : Axis) : Inputs := ⟨a, true, c.filterIndex, c.filterValue, true⟩

/-- The word on the bus is taken. -/
def takes (s : State) (i : Inputs) : Bool := i.axis.tvalid && (out s i).tready

/-- The beat on the filter bus is a control beat. -/
def controls (s : State) (i : Inputs) : Bool :=
  (out s i).beat.valid && ((out s i).beat.addHeader || (out s i).beat.flushFrame)

def eventsAt (s : State) (i : Inputs) : List Event :=
  (if takes s i then [.word i.axis] else []) ++
    if controls s i then [.control (out s i).beat.addHeader] else []

/-- One cycle: the first pending word is presented and held until it is taken. -/
def tick (c : Config) (y : Line) : Line :=
  let i := c.inputs (y.pending.headD quiet)
  { filter := next y.filter i
    pending := if takes y.filter i then y.pending.tail else y.pending
    log := y.log ++ eventsAt y.filter i }

def start (fs : List Frame) : Line := ⟨reset, fs.flatMap Frame.axis, []⟩

/-- The verdict on a frame: it has the inspected byte, and with the wanted value. -/
def Config.wants (c : Config) (f : Frame) : Bool := f.bytes[c.filterIndex]? == some c.filterValue

/-- The words of a frame and then its verdict. -/
def Config.expected (c : Config) (f : Frame) : List Event :=
  f.axis.map .word ++ [.control (c.wants f)]

/-- The filter handles the frames one by one: at every time what was observed is a first
    part of the expected sequence, and after some time it is all of it. -/
def Config.Handles (c : Config) (fs : List Frame) : Prop :=
  (∀ n, ((tick c)^[n] (start fs)).log <+: fs.flatMap c.expected) ∧
    ∃ n, ((tick c)^[n] (start fs)).log = fs.flatMap c.expected

section Frames

variable {c : Config} {y : Line} {r : List Axis} {l : List Event} {P Q : Line → Prop}

/-- A line with `P` is reached. -/
def Gets (c : Config) (y : Line) (P : Line → Prop) : Prop := ∃ n, P ((tick c)^[n] y)

theorem Gets.here (h : P y) : Gets c y P := ⟨0, h⟩

theorem Gets.tick (h : Gets c (tick c y) P) : Gets c y P := by
  obtain ⟨n, hn⟩ := h
  exact ⟨n + 1, hn⟩

theorem Gets.trans (h : Gets c y P) (h' : ∀ z, P z → Gets c z Q) : Gets c y Q := by
  obtain ⟨n, hn⟩ := h
  obtain ⟨m, hm⟩ := h' _ hn
  rw [← Function.iterate_add_apply] at hm
  exact ⟨m + n, hm⟩

theorem log_iterate (n : Nat) (y : Line) : y.log <+: ((tick c)^[n] y).log := by
  induction n generalizing y with
  | zero => exact List.prefix_refl _
  | succ n ih => exact (List.prefix_append _ _).trans (ih (tick c y))

/-- What was observed earlier is a first part of what is observed later. -/
theorem log_le {m n : Nat} (hmn : m ≤ n) (y : Line) :
    ((tick c)^[m] y).log <+: ((tick c)^[n] y).log := by
  obtain ⟨k, rfl⟩ := Nat.exists_eq_add_of_le hmn
  rw [add_comm, Function.iterate_add_apply]
  exact log_iterate k _

/-- The line in a given state of the filter, whatever its counters. -/
structure InState (st : BufferState) (pending : List Axis) (log : List Event) (y : Line) :
    Prop where
  state : y.filter.stateBuffer = st
  pending : y.pending = pending
  log : y.log = log

/-- From `bufferIdle` the first word of a frame starts the evaluation and stays on the
    bus. -/
theorem tick_idle {a : Axis} (h : InState .bufferIdle (a :: r) l y) (ha : a.tvalid = true) :
    tick c y = ⟨⟨0, popCount a.tkeep, c.filterIndex % 2, .bufferEvaluate⟩, a :: r, l⟩ := by
  obtain ⟨hs, hp, hl⟩ := h
  simp [tick, hp, hl, next, out, takes, controls, eventsAt, hs, Config.inputs, ha]

theorem tick_evaluate_inner {k w : Nat} (hk : k ≠ c.filterIndex / 2) (hk' : k < 2047) :
    tick c ⟨⟨2 * k, 2, c.filterIndex % 2, .bufferEvaluate⟩, Frame.inner w :: r, l⟩ =
      ⟨⟨2 * (k + 1), 2, c.filterIndex % 2, .bufferEvaluate⟩, r,
        l ++ [.word (Frame.inner w)]⟩ := by
  have hidx := c.index_lt
  have hat : ¬ k % 2048 = c.filterIndex / 2 % 2048 := by omega
  have hcnt : (2 * k + 2) % 4096 = 2 * (k + 1) := by omega
  simp [tick, next, out, takes, controls, eventsAt, Config.inputs, Frame.inner, atIndex,
    endsBefore, hat, hcnt, popCount]

/-- The words before the inspected one. -/
theorem evaluate_inner (ws : List Nat) {k : Nat} (hk : k + ws.length ≤ c.filterIndex / 2)
    (hk' : k + ws.length ≤ 2047) :
    Gets c ⟨⟨2 * k, 2, c.filterIndex % 2, .bufferEvaluate⟩, ws.map Frame.inner ++ r, l⟩
      (· = ⟨⟨2 * (k + ws.length), 2, c.filterIndex % 2, .bufferEvaluate⟩, r,
        l ++ (ws.map Frame.inner).map .word⟩) := by
  induction ws generalizing k l with
  | nil => exact .here (by simp)
  | cons w ws ih =>
    simp only [List.length_cons] at hk hk'
    refine Gets.tick ?_
    simp only [List.map_cons, List.cons_append]
    rw [tick_evaluate_inner (by omega) (by omega)]
    have := ih (k := k + 1) (l := l ++ [.word (Frame.inner w)]) (by omega) (by omega)
    simpa [add_assoc, add_comm 1] using this

/-- The states in which the verdict is known. -/
def decided (keep : Bool) : BufferState := if keep then .bufferGoodFrame else .bufferBadFrame

/-- The inspected word decides, be it the last word or not. -/
theorem tick_evaluate_index {b : Nat} {a : Axis} (ha : a.tvalid = true) :
    InState (decided (decide (a.tdata / 2 ^ (c.filterIndex % 2 * 8) % 256 = c.filterValue))) r
      (l ++ [.word a])
      (tick c ⟨⟨2 * (c.filterIndex / 2), b, c.filterIndex % 2, .bufferEvaluate⟩, a :: r, l⟩) := by
  refine ⟨?_, ?_, ?_⟩ <;>
    simp [tick, next, out, takes, controls, eventsAt, Config.inputs, atIndex, byteMatches,
      decided, ha]

/-- The last word of a frame that ends before the inspected byte is held for the flush
    beat. -/
theorem evaluate_final {k b : Nat} {a : Axis} (hk : k < c.filterIndex / 2)
    (ha : a.tvalid = true) (hlast : a.tlast = true) :
    Gets c ⟨⟨2 * k, b, c.filterIndex % 2, .bufferEvaluate⟩, a :: r, l⟩
      (InState .bufferIdle r (l ++ [.word a, .control false])) := by
  have hidx := c.index_lt
  have hat : ¬ k % 2048 = c.filterIndex / 2 % 2048 := by omega
  have hlt : 2 * k < c.filterIndex := by omega
  refine .tick (.tick (.here ⟨?_, ?_, ?_⟩)) <;>
    simp [tick, next, out, takes, controls, eventsAt, Config.inputs, atIndex, endsBefore, hat,
      hlt, ha, hlast]

theorem tick_decided_inner {keep : Bool} {w : Nat}
    (h : InState (decided keep) (Frame.inner w :: r) l y) :
    InState (decided keep) r (l ++ [.word (Frame.inner w)]) (tick c y) := by
  obtain ⟨hs, hp, hl⟩ := h
  cases keep <;> refine ⟨?_, ?_, ?_⟩ <;>
    simp_all [decided, tick, next, out, takes, controls, eventsAt, Config.inputs, Frame.inner]

/-- With the verdict known, the words up to the last one are taken. -/
theorem decided_inner {keep : Bool} (ws : List Nat)
    (h : InState (decided keep) (ws.map Frame.inner ++ r) l y) :
    Gets c y (InState (decided keep) r (l ++ (ws.map Frame.inner).map .word)) := by
  induction ws generalizing y l with
  | nil => exact .here (by simpa using h)
  | cons w ws ih => exact .tick (by simpa using ih (tick_decided_inner (c := c) h))

theorem decided_final {keep : Bool} {a : Axis} (h : InState (decided keep) (a :: r) l y)
    (ha : a.tvalid = true) (hlast : a.tlast = true) :
    Gets c y (InState .bufferIdle r (l ++ [.word a, .control keep])) := by
  obtain ⟨hs, hp, hl⟩ := h
  refine .tick (.tick (.here ?_))
  cases keep <;> refine ⟨?_, ?_, ?_⟩ <;>
    simp_all [decided, tick, next, out, takes, controls, eventsAt, Config.inputs]

variable {f : Frame}

/-- The start of a frame, up to its inspected word or its last word. -/
theorem idle_to_evaluate (h : InState .bufferIdle (f.axis ++ r) l y) {ws vs : List Nat}
    (hsplit : f.init = ws ++ vs) (hws : ws.length ≤ c.filterIndex / 2) (hshort : ws.length ≤ 2047) :
    ∃ b, Gets c y (· = ⟨⟨2 * ws.length, b, c.filterIndex % 2, .bufferEvaluate⟩,
      vs.map Frame.inner ++ f.final :: r, l ++ (ws.map Frame.inner).map .word⟩) := by
  have hax : f.axis ++ r = ws.map Frame.inner ++ (vs.map Frame.inner ++ f.final :: r) := by
    simp [Frame.axis, hsplit]
  rw [hax] at h
  cases ws with
  | nil =>
    obtain ⟨a, m, ha, hm⟩ : ∃ a m, vs.map Frame.inner ++ f.final :: r = a :: m ∧
        a.tvalid = true := by
      cases vs with
      | nil => exact ⟨_, _, rfl, rfl⟩
      | cons v vs => exact ⟨_, _, rfl, rfl⟩
    rw [List.map_nil, List.nil_append, ha] at h
    rw [ha]
    exact ⟨_, .tick (.here (by simpa using tick_idle h hm))⟩
  | cons w ws =>
    refine ⟨2, .tick ?_⟩
    rw [tick_idle h rfl]
    have := evaluate_inner (c := c) (w :: ws) (k := 0) (l := l)
      (r := vs.map Frame.inner ++ f.final :: r) (by simpa using hws) (by simpa using hshort)
    simpa [Frame.inner, popCount] using this

/-- **One frame.**  A frame whose inspected word is not its last word is consumed and
    closed with its verdict. -/
theorem frame_handled (h : InState .bufferIdle (f.axis ++ r) l y)
    (hshort : f.bytes.length < 4096) (hne : c.filterIndex / 2 ≠ f.init.length) :
    Gets c y (InState .bufferIdle r (l ++ c.expected f)) := by
  have hlen : f.init.length ≤ 2047 := by
    have := Frame.flatMap_wordBytes_length f.init
    have : 2 * f.init.length < 4096 := by
      rw [← this]
      exact lt_of_le_of_lt (by simp [Frame.bytes]) hshort
    omega
  have hbyte := f.getElem?_bytes hne
  rcases lt_or_ge (c.filterIndex / 2) f.init.length with hlt | hge
  · -- the inspected word is before the last one: split the frame around it
    obtain ⟨ws, v, vs, hsplit, hws⟩ : ∃ ws v vs, f.init = ws ++ v :: vs ∧
        ws.length = c.filterIndex / 2 :=
      ⟨f.init.take (c.filterIndex / 2), f.init[c.filterIndex / 2],
        f.init.drop (c.filterIndex / 2 + 1), by simp, by simp; omega⟩
    obtain ⟨b, hev⟩ := idle_to_evaluate (c := c) h hsplit (by omega) (by omega)
    rw [hws] at hev
    have hwant : decide (v / 2 ^ (c.filterIndex % 2 * 8) % 256 = c.filterValue) = c.wants f := by
      have hv : f.init[c.filterIndex / 2]? = some v := by
        rw [hsplit, ← hws, List.getElem?_append_right (le_refl _)]; simp
      simp [Config.wants, hbyte, hv, beq_eq_decide]
    refine hev.trans ?_
    rintro _ rfl
    have hdec := tick_evaluate_index (c := c) (b := b) (a := Frame.inner v)
      (r := vs.map Frame.inner ++ f.final :: r) (l := l ++ (ws.map Frame.inner).map .word) rfl
    change InState (decided (decide (v / _ % 256 = _))) _ _ _ at hdec
    rw [hwant] at hdec
    refine (Gets.tick (decided_inner vs hdec)).trans fun z hz => ?_
    simpa [Config.expected, Frame.axis, hsplit] using decided_final (c := c) hz rfl rfl
  · -- the frame ends before the inspected byte
    obtain ⟨b, hev⟩ := idle_to_evaluate (c := c) h (show f.init = f.init ++ [] by simp)
      (by omega) hlen
    have hwant : c.wants f = false := by
      simp [Config.wants, hbyte, List.getElem?_eq_none (show f.init.length ≤ _ by omega)]
    refine hev.trans ?_
    rintro _ rfl
    have hfinal := evaluate_final (c := c) (k := f.init.length) (b := b) (a := f.final)
      (r := r) (l := l ++ (f.init.map Frame.inner).map .word) (by omega) rfl rfl
    simpa [Config.expected, Frame.axis, hwant] using hfinal

theorem frames_handled (fs : List Frame) (hshort : ∀ f ∈ fs, f.bytes.length < 4096)
    (hne : ∀ f ∈ fs, c.filterIndex / 2 ≠ f.init.length)
    (h : InState .bufferIdle (fs.flatMap Frame.axis ++ r) l y) :
    Gets c y (InState .bufferIdle r (l ++ fs.flatMap c.expected)) := by
  induction fs generalizing y l with
  | nil => exact .here (by simpa using h)
  | cons f fs ih =>
    refine (frame_handled (f := f) (r := fs.flatMap Frame.axis ++ r) (by simpa using h)
      (hshort f (by simp)) (hne f (by simp))).trans fun z hz => ?_
    simpa using ih (fun g hg => hshort g (by simp [hg])) (fun g hg => hne g (by simp [hg])) hz

/-- At the end of the stream an idle filter observes nothing more. -/
theorem quiet_stable {st : BufferState} (hst : st = .bufferIdle ∨ ∃ keep, st = decided keep)
    (h : InState st [] l y) (n : Nat) : InState st [] l ((tick c)^[n] y) := by
  induction n generalizing y with
  | zero => exact h
  | succ n ih =>
    refine ih ?_
    obtain ⟨hs, hp, hl⟩ := h
    rcases hst with rfl | ⟨_ | _, rfl⟩ <;> refine ⟨?_, ?_, ?_⟩ <;>
      simp_all [decided, tick, next, out, takes, controls, eventsAt, Config.inputs, quiet]

/-- A frame whose inspected word is its last word is consumed without a verdict. -/
theorem frame_unclosed (h : InState .bufferIdle (f.axis ++ r) l y)
    (heq : c.filterIndex / 2 = f.init.length) :
    ∃ keep, Gets c y (InState (decided keep) r (l ++ f.axis.map .word)) := by
  have hlen : f.init.length ≤ 2047 := by have := c.index_lt; omega
  obtain ⟨b, hev⟩ := idle_to_evaluate (c := c) h (show f.init = f.init ++ [] by simp)
    (by omega) hlen
  rw [← heq] at hev
  have hdec := tick_evaluate_index (c := c) (b := b) (a := f.final) (r := r)
    (l := l ++ (f.init.map Frame.inner).map .word) rfl
  refine ⟨decide (f.final.tdata / 2 ^ (c.filterIndex % 2 * 8) % 256 = c.filterValue), hev.trans ?_⟩
  rintro _ rfl
  exact .tick (.here (by simpa [Frame.axis] using hdec))

/-- After such a frame the next thing observed is a word of the following frame. -/
theorem decided_takes_word {keep : Bool} {a : Axis} (h : InState (decided keep) (a :: r) l y)
    (ha : a.tvalid = true) : Gets c y fun z => ∃ more, z.log = l ++ Event.word a :: more := by
  by_cases hlast : a.tlast = true
  · exact (decided_final h ha hlast).trans fun z hz => .here ⟨_, hz.log⟩
  · obtain ⟨hs, hp, hl⟩ := h
    refine .tick (.here ⟨[], ?_⟩)
    cases keep <;> simp_all [decided, tick, out, takes, controls, eventsAt, Config.inputs]

end Frames

theorem start_inState (fs : List Frame) :
    InState .bufferIdle (fs.flatMap Frame.axis ++ []) [] (start fs) := ⟨rfl, by simp [start], rfl⟩

/-- Frames whose inspected word is never their last word are all handled. -/
theorem handles_of_ne {c : Config} {fs : List Frame} (hshort : ∀ f ∈ fs, f.bytes.length < 4096)
    (hne : ∀ f ∈ fs, c.filterIndex / 2 ≠ f.init.length) : c.Handles fs := by
  obtain ⟨N, hs⟩ := frames_handled fs hshort hne (start_inState fs)
  rw [List.nil_append] at hs
  refine ⟨fun n => ?_, N, hs.log⟩
  rcases Nat.le_total n N with hle | hge
  · rw [← hs.log]
    exact log_le hle _
  · obtain ⟨k, rfl⟩ := Nat.exists_eq_add_of_le hge
    have hlog : ((tick c)^[N + k] (start fs)).log = fs.flatMap c.expected := by
      rw [add_comm, Function.iterate_add_apply]
      exact (quiet_stable (.inl rfl) hs k).log
    exact hlog ▸ List.prefix_rfl

/-- A frame whose inspected word is its last word is the end of the framing. -/
theorem not_handles_of_eq {c : Config} (pre post : List Frame) {f : Frame}
    (hshort : ∀ g ∈ pre ++ f :: post, g.bytes.length < 4096)
    (hpre : ∀ g ∈ pre, c.filterIndex / 2 ≠ g.init.length)
    (heq : c.filterIndex / 2 = f.init.length) : ¬ c.Handles (pre ++ f :: post) := by
  rintro ⟨hfirst, N, hall⟩
  have hstart := start_inState (pre ++ f :: post)
  rw [List.append_nil, List.flatMap_append] at hstart
  obtain ⟨keep, M, hs⟩ : ∃ keep, Gets c (start (pre ++ f :: post)) (InState (decided keep)
      (post.flatMap Frame.axis) (pre.flatMap c.expected ++ f.axis.map .word)) := by
    obtain ⟨n, hn⟩ := frames_handled pre (fun g hg => hshort g (by simp [hg])) hpre hstart
    rw [List.nil_append, List.flatMap_cons] at hn
    obtain ⟨keep, hkeep⟩ := frame_unclosed (c := c) hn heq
    exact ⟨keep, Gets.trans ⟨n, rfl⟩ fun z hz => hz ▸ hkeep⟩
  -- the expected sequence continues with the verdict on `f`
  have hexp : (pre ++ f :: post).flatMap c.expected =
      (pre.flatMap c.expected ++ f.axis.map .word) ++
        (Event.control (c.wants f) :: post.flatMap c.expected) := by
    simp [Config.expected]
  cases post with
  | nil =>
    -- nothing is left to be observed, so the verdict never comes
    have hlen : ((tick c)^[N] (start (pre ++ [f]))).log.length ≤
        (pre.flatMap c.expected ++ f.axis.map Event.word).length := by
      rcases Nat.le_total N M with hle | hge
      · have := (log_le (c := c) hle (start (pre ++ [f]))).length_le
        rwa [hs.log] at this
      · obtain ⟨k, rfl⟩ := Nat.exists_eq_add_of_le hge
        rw [add_comm, Function.iterate_add_apply, (quiet_stable (.inr ⟨keep, rfl⟩) hs k).log]
    rw [hall, hexp, List.length_append, List.length_cons] at hlen
    omega
  | cons g post =>
    -- the next event is a word of `g`
    obtain ⟨a, as, hg, ha⟩ : ∃ a as, g.axis = a :: as ∧ a.tvalid = true := by
      cases hinit : g.init with
      | nil => exact ⟨g.final, [], by simp [Frame.axis, hinit], rfl⟩
      | cons w ws => exact ⟨Frame.inner w, ws.map Frame.inner ++ [g.final],
          by simp [Frame.axis, hinit], rfl⟩
    rw [List.flatMap_cons, hg, List.cons_append] at hs
    obtain ⟨K, more, hlog⟩ := decided_takes_word (c := c) hs ha
    have hpref := hfirst (K + M)
    rw [Function.iterate_add_apply, hlog, hexp, List.prefix_append_right_inj] at hpref
    simp at hpref

/-- **Framing and verdict of the filter.**  A back-to-back sequence of frames is handled
    frame by frame exactly when no frame ends with the word that holds the inspected
    byte. -/
theorem handles_iff (c : Config) (fs : List Frame) (hshort : ∀ f ∈ fs, f.bytes.length < 4096) :
    c.Handles fs ↔ ∀ f ∈ fs, c.filterIndex / 2 ≠ f.init.length := by
  refine ⟨fun hh => ?_, handles_of_ne hshort⟩
  by_contra hex
  -- the first frame whose inspected word is its last word
  have hsome : (fs.find? fun f => decide (c.filterIndex / 2 = f.init.length)).isSome := by
    simp only [List.find?_isSome, decide_eq_true_eq]
    by_contra hno
    exact hex fun f hf heq => hno ⟨f, hf, heq⟩
  obtain ⟨f, hf⟩ := Option.isSome_iff_exists.mp hsome
  obtain ⟨heq, pre, post, rfl, hpre⟩ := List.find?_eq_some_iff_append.mp hf
  refine not_handles_of_eq pre post hshort (fun g hg hc => ?_) (by simpa using heq) hh
  simpa [hc] using hpre g hg

/-- Byte 1, wanted value 7. -/
def byteOne : Config := ⟨1, 7, by decide, by decide⟩

/-- A frame of one word, whose byte 1 has the wanted value, and a frame of two words. -/
theorem single_word_frame_unclosed :
    ¬ byteOne.Handles [⟨[], 7 * 256, false⟩, ⟨[0], 0, false⟩] := by
  intro h
  have := h.1 3
  revert this
  decide

theorem handles_two_frames : byteOne.Handles [⟨[7 * 256], 0, false⟩, ⟨[0, 5], 3, true⟩] :=
  (handles_iff byteOne _ (by decide)).mpr (by decide)

end Patmos.FSharkFilter
