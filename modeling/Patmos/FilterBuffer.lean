import Patmos.FSharkFilter

/-!
# The filter in front of the circular buffer

The two circuits as `FShark` wires them: the beats of `FShark_filter` go to
`CircularBuffer`, whose `ready` holds the filter back while the buffer is full.
The control beat that closes a frame carries the byte count of the filter, and the
buffer moves its pointers by that count, so the count has to agree with the number
of words the buffer has stored.

The agreement is an invariant of every run in which the filter is not held back in
the middle of a frame: `cntFrame` is incremented outside the guard on `ready`, so
each cycle of a stall counts the waiting word once more.
-/

namespace Patmos.FilterBuffer

open Clocked FSharkFilter
open CircularBuffer (ready bufferFull bufferLength actualDepth bufferEmpty lastWord)

/-! ### The source of frames -/

/-- The word that is on the bus while the frame is being delivered. -/
def front (f : Frame) : Axis :=
  match f.init with
  | [] => f.final
  | w :: _ => Frame.inner w

/-- What is left of a frame when its front word has been taken. -/
def rest (f : Frame) : Option Frame :=
  match f.init with
  | [] => none
  | _ :: ws => some { f with init := ws }

/-- The inputs of the pair: the frame that the MAC starts with in this cycle unless one
    is in progress, what it drives besides `tvalid` while it delivers none, and the
    signals from the other side. -/
structure Inputs where
  start : Option Frame
  noise : Axis
  deqReady : Bool
  filterIndex : Nat
  filterValue : Nat

/-- Both circuits, the frame in progress, and the number of data beats that the buffer
    has stored since the last control beat. -/
structure Chain where
  filter : FSharkFilter.State
  buffer : CircularBuffer.State
  frame : Option Frame
  stored : Nat

section Step

variable (y : Chain) (i : Inputs)

def current : Option Frame := y.frame.or i.start

def busAxis : Axis :=
  match current y i with
  | some f => front f
  | none => { i.noise with tvalid := false }

def filterInputs : FSharkFilter.Inputs :=
  ⟨busAxis y i, CircularBuffer.ready y.buffer, i.filterIndex, i.filterValue, true⟩

def beat : CircularBuffer.Beat := (out y.filter (filterInputs y i)).beat

/-- The beat that closes a frame. -/
def isControl : Bool := controls y.filter (filterInputs y i)

def next : Chain where
  filter := FSharkFilter.next y.filter (filterInputs y i)
  buffer := CircularBuffer.next y.buffer ⟨beat y i, i.deqReady⟩
  frame := if takes y.filter (filterInputs y i) then (current y i).bind rest else current y i
  stored :=
    if (beat y i).valid && !CircularBuffer.bufferFull y.buffer then
      if isControl y i then 0 else y.stored + 1
    else y.stored

/-- The count on a control beat is `2 * (w - 1)` for the `w` words stored. -/
def Agrees : Prop := isControl y i = true → (beat y i).tdata + 2 = 2 * y.stored

/-- The filter is held back only between frames, a last word that meets the filter
    before its verdict ends the frame before the inspected byte, and a frame has at most
    2048 words. -/
structure Paced : Prop where
  ready : y.filter.stateBuffer ≠ .bufferIdle → CircularBuffer.ready y.buffer = true
  early : y.filter.stateBuffer = .bufferEvaluate → (busAxis y i).tlast = true →
    atIndex y.filter (filterInputs y i) = false ∧ endsBefore y.filter (filterInputs y i) = true
  short : ∀ f ∈ i.start, f.init.length < 2048

instance : Decidable (Paced y i) :=
  decidable_of_iff (_ ∧ _ ∧ _) ⟨fun ⟨a, b, c⟩ => ⟨a, b, c⟩, fun ⟨a, b, c⟩ => ⟨a, b, c⟩⟩

end Step

structure Chain.IsReset (y : Chain) : Prop where
  filter : y.filter = FSharkFilter.reset
  buffer : y.buffer.IsReset
  frame : y.frame = none
  stored : y.stored = 0

/-! ### One cycle of the filter -/

section Filter

variable {s : FSharkFilter.State} {i : FSharkFilter.Inputs} (hready : i.ready = true)
  (hset : i.filterSet = true)

include hready hset

theorem passes_inner {w : Nat} (haxis : i.axis = Frame.inner w)
    (hst : s.stateBuffer = .bufferEvaluate ∨ s.stateBuffer = .bufferGoodFrame) :
    out s i = ⟨true, true, false, false, w⟩ ∧
      ∃ hl st, FSharkFilter.next s i = ⟨(s.cntFrame + s.cntBytes) % 4096, 2, hl, st⟩ ∧
        (st = .bufferEvaluate ∨ st = .bufferGoodFrame ∨ st = .bufferBadFrame) := by
  have hlast : endsBefore s i = false := by simp [endsBefore, haxis, Frame.inner]
  rcases hst with hst | hst
  · by_cases hat : atIndex s i = true
    · refine ⟨by simp [out, hready, hset, hst, hat, haxis, Frame.inner], i.filterIndex % 2,
        if byteMatches s i then .bufferGoodFrame else .bufferBadFrame, ?_, ?_⟩
      · simp [FSharkFilter.next, hready, hset, hst, hat, haxis, Frame.inner, popCount]
      · cases byteMatches s i <;> simp
    · refine ⟨by simp [out, hready, hset, hst, hat, hlast, haxis, Frame.inner],
        i.filterIndex % 2, .bufferEvaluate, ?_, .inl rfl⟩
      simp [FSharkFilter.next, hready, hset, hst, hat, hlast, haxis, Frame.inner, popCount]
  · refine ⟨by simp [out, hready, hset, hst, haxis, Frame.inner], i.filterIndex % 2,
      .bufferGoodFrame, ?_, .inr (.inl rfl)⟩
    simp [FSharkFilter.next, hready, hset, hst, haxis, Frame.inner, popCount]

theorem holds_last (hlast : i.axis.tlast = true)
    (hst : s.stateBuffer = .bufferGoodFrame ∨ s.stateBuffer = .bufferBadFrame ∨
      s.stateBuffer = .bufferEvaluate ∧ atIndex s i = false ∧ endsBefore s i = true) :
    ∃ d, out s i = ⟨false, true, false, false, d⟩ ∧
      ∃ b hl st, FSharkFilter.next s i = ⟨s.cntFrame, b, hl, st⟩ ∧
        (st = .bufferFlushFrame ∨ st = .bufferAddHeader) := by
  rcases hst with hst | hst | ⟨hst, hat, hends⟩
  · refine ⟨i.axis.tdata, by simp [out, hready, hset, hst, hlast], popCount i.axis.tkeep,
      i.filterIndex % 2, .bufferAddHeader, ?_, .inr rfl⟩
    simp [FSharkFilter.next, hready, hset, hst, hlast]
  · refine ⟨0, by simp [out, hready, hset, hst, hlast], popCount i.axis.tkeep,
      i.filterIndex % 2, .bufferFlushFrame, ?_, .inl rfl⟩
    simp [FSharkFilter.next, hready, hset, hst, hlast]
  · refine ⟨i.axis.tdata, by simp [out, hready, hset, hst, hat, hends], popCount i.axis.tkeep,
      i.filterIndex % 2, .bufferFlushFrame, ?_, .inl rfl⟩
    simp [FSharkFilter.next, hready, hset, hst, hat, hends]

theorem skips_inner (hlast : i.axis.tlast = false) (hst : s.stateBuffer = .bufferBadFrame) :
    out s i = ⟨true, false, false, false, 0⟩ ∧
      ∃ b hl, FSharkFilter.next s i = ⟨s.cntFrame, b, hl, .bufferBadFrame⟩ := by
  refine ⟨by simp [out, hready, hset, hst, hlast], popCount i.axis.tkeep, i.filterIndex % 2, ?_⟩
  simp [FSharkFilter.next, hready, hset, hst, hlast]

theorem closes_frame (hst : s.stateBuffer = .bufferFlushFrame ∨ s.stateBuffer = .bufferAddHeader) :
    ∃ fl ah, out s i = ⟨true, true, fl, ah, s.cntFrame⟩ ∧ (fl || ah) = true ∧
      (FSharkFilter.next s i).stateBuffer = .bufferIdle := by
  rcases hst with hst | hst
  · exact ⟨true, false, by simp [out, hready, hset, hst], rfl,
      by simp [FSharkFilter.next, hready, hset, hst]⟩
  · exact ⟨false, true, by simp [out, hready, hset, hst], rfl,
      by simp [FSharkFilter.next, hready, hset, hst]⟩

omit hready hset in
theorem controls_cases (hc : controls s i = true) :
    (s.stateBuffer = .bufferFlushFrame ∨ s.stateBuffer = .bufferAddHeader) ∧
      (out s i).beat.tdata = s.cntFrame := by
  by_cases hen : (i.ready && i.filterSet) = true
  · cases hst : s.stateBuffer with
    | bufferIdle | bufferGoodFrame | bufferBadFrame => simp [controls, out, hen, hst] at hc
    | bufferEvaluate =>
      cases hat : atIndex s i <;> cases hends : endsBefore s i <;>
        simp [controls, out, hen, hst, hat, hends] at hc
    | bufferFlushFrame => exact ⟨.inl rfl, by simp [out, hen, hst]⟩
    | bufferAddHeader => exact ⟨.inr rfl, by simp [out, hen, hst]⟩
  · simp [controls, out, hen] at hc

end Filter

/-! ### The invariant -/

/-- While words of the frame are being stored the count is twice their number.  Words
    before the last one have two bytes, and the frame fits into the 12-bit counter. -/
structure Counting (y : Chain) (f : Frame) : Prop where
  frame : y.frame = some f
  count : y.filter.cntFrame = 2 * y.stored
  bytes : f.init ≠ [] → y.filter.cntBytes = 2
  fits : y.stored + f.init.length < 2048

/-- The last word, already stored, waits on the bus for the control beat. -/
structure Closing (y : Chain) (f : Frame) : Prop where
  frame : y.frame = some f
  last : f.init = []
  count : y.filter.cntFrame + 2 = 2 * y.stored

/-- What holds in each state of the filter. -/
def InStep (y : Chain) : Prop :=
  match y.filter.stateBuffer with
  | .bufferIdle => y.stored = 0 ∧ ∀ f ∈ y.frame, f.init.length < 2048
  | .bufferEvaluate | .bufferGoodFrame => ∃ f, Counting y f
  | .bufferBadFrame => (∃ f, y.frame = some f) ∧ y.filter.cntFrame = 2 * y.stored
  | .bufferFlushFrame | .bufferAddHeader => ∃ f, Closing y f

theorem Chain.IsReset.inStep {y : Chain} (h : y.IsReset) : InStep y := by
  simp [InStep, h.filter, FSharkFilter.reset, h.stored, h.frame]

section Invariant

variable {y : Chain} {i : Inputs} {f : Frame}

theorem busAxis_of_frame (hf : y.frame = some f) : busAxis y i = front f := by
  simp [busAxis, current, hf]

theorem current_of_frame (hf : y.frame = some f) : current y i = some f := by
  simp [current, hf]

theorem front_tvalid (f : Frame) : (front f).tvalid = true := by
  obtain ⟨_ | _, _, _⟩ := f <;> rfl

theorem stored_of_out {o : Outputs} (hready : ready y.buffer = true)
    (hout : out y.filter (filterInputs y i) = o) : (next y i).stored =
      if o.beat.valid then if o.beat.addHeader || o.beat.flushFrame then 0 else y.stored + 1
      else y.stored := by
  have hfull : bufferFull y.buffer = false := by simpa [ready] using hready
  cases hv : o.beat.valid <;> simp [next, beat, isControl, controls, hout, hfull, hv]

/-- The front word of the frame in progress leaves when the filter is ready for it. -/
theorem next_frame_of_tready {o : Outputs} (hf : y.frame = some f)
    (hout : out y.filter (filterInputs y i) = o) :
    (next y i).frame = if o.tready then rest f else some f := by
  have hv : (filterInputs y i).axis.tvalid = true := by
    change (busAxis y i).tvalid = true
    rw [busAxis_of_frame hf]
    exact front_tvalid f
  simp [next, takes, hv, hout, current_of_frame hf]

/-- In `bufferIdle` nothing is stored; the first word of a frame starts the count. -/
theorem inStep_of_idle (hst : y.filter.stateBuffer = .bufferIdle) (hy : InStep y)
    (hp : Paced y i) : InStep (next y i) := by
  obtain ⟨hstored, hshort⟩ : y.stored = 0 ∧ ∀ f ∈ y.frame, f.init.length < 2048 := by
    simpa only [InStep, hst] using hy
  have hcur : ∀ f ∈ current y i, f.init.length < 2048 := by
    intro f hf
    rcases Option.or_eq_some_iff.mp hf with h | ⟨_, h⟩
    · exact hshort f h
    · exact hp.short f h
  have hbeat : (beat y i).valid = false := by
    cases hr : ready y.buffer <;> simp [beat, out, filterInputs, hst, hr]
  have htakes : takes y.filter (filterInputs y i) = false := by
    cases hr : ready y.buffer <;> simp [takes, out, filterInputs, hst, hr]
  have hframe : (next y i).frame = current y i := by simp [next, htakes]
  have hstored' : (next y i).stored = 0 := by simp [next, hbeat, hstored]
  cases hr : ready y.buffer
  · -- a stall: the counter may move, but it is cleared before the frame starts
    have hst' : (next y i).filter.stateBuffer = .bufferIdle := by
      simp [next, FSharkFilter.next, filterInputs, hr, hst]
    simp only [InStep, hst', hframe]
    exact ⟨hstored', hcur⟩
  · cases hc : current y i with
    | none =>
      have hst' : (next y i).filter.stateBuffer = .bufferIdle := by
        simp [next, FSharkFilter.next, filterInputs, busAxis, hr, hst, hc]
      simp only [InStep, hst', hframe, hc]
      exact ⟨hstored', by simp⟩
    | some f =>
      have hv := front_tvalid f
      have hfilter : (next y i).filter =
          ⟨0, popCount (front f).tkeep, i.filterIndex % 2, .bufferEvaluate⟩ := by
        simp [next, FSharkFilter.next, filterInputs, busAxis, hr, hst, hc, hv]
      simp only [InStep, hfilter]
      refine ⟨f, by rw [hframe, hc], by rw [hfilter, hstored'], ?_, ?_⟩
      · intro hne
        obtain ⟨w, ws, hws⟩ := List.exists_cons_of_ne_nil hne
        rw [hfilter]
        simp [front, hws, Frame.inner, popCount]
      · rw [hstored', zero_add]
        exact hcur f hc

theorem bus_of_cons {w : Nat} {ws : List Nat} (hf : y.frame = some f) (hinit : f.init = w :: ws) :
    busAxis y i = Frame.inner w := by
  rw [busAxis_of_frame hf]
  simp [front, hinit]

theorem bus_of_nil (hf : y.frame = some f) (hinit : f.init = []) : busAxis y i = f.final := by
  rw [busAxis_of_frame hf]
  simp [front, hinit]

/-- A word before the last one is stored and counted. -/
theorem counting_inner {w : Nat} {ws : List Nat} (h : Counting y f) (hinit : f.init = w :: ws)
    (hready : ready y.buffer = true)
    (hst : y.filter.stateBuffer = .bufferEvaluate ∨ y.filter.stateBuffer = .bufferGoodFrame) :
    InStep (next y i) := by
  have hfits := h.fits
  rw [hinit, List.length_cons] at hfits
  obtain ⟨hout, hl, st, hnext, hst'⟩ :=
    passes_inner (i := filterInputs y i) hready rfl (bus_of_cons h.frame hinit) hst
  have hmod : (y.filter.cntFrame + y.filter.cntBytes) % 4096 = 2 * (y.stored + 1) := by
    rw [h.count, h.bytes (by simp [hinit])]
    omega
  rw [hmod] at hnext
  have hstored : (next y i).stored = y.stored + 1 := stored_of_out hready hout
  have hframe : (next y i).frame = some { f with init := ws } := by
    rw [next_frame_of_tready h.frame hout]
    simp [rest, hinit]
  have hcounting : Counting (next y i) { f with init := ws } := by
    refine ⟨hframe, ?_, fun _ => congrArg State.cntBytes hnext, ?_⟩
    · rw [hstored]
      exact congrArg State.cntFrame hnext
    · rw [hstored]
      change y.stored + 1 + ws.length < 2048
      omega
  have hstate : (next y i).filter.stateBuffer = st := congrArg State.stateBuffer hnext
  rcases hst' with rfl | rfl | rfl <;> simp only [InStep, hstate]
  · exact ⟨_, hcounting⟩
  · exact ⟨_, hcounting⟩
  · exact ⟨⟨_, hframe⟩, hcounting.count⟩

/-- The last word of a frame is stored but not counted, and stays on the bus. -/
theorem closing_of_last (hf : y.frame = some f) (hinit : f.init = [])
    (hcount : y.filter.cntFrame = 2 * y.stored) (hready : ready y.buffer = true)
    (hst : y.filter.stateBuffer = .bufferGoodFrame ∨ y.filter.stateBuffer = .bufferBadFrame ∨
      y.filter.stateBuffer = .bufferEvaluate ∧ atIndex y.filter (filterInputs y i) = false ∧
        endsBefore y.filter (filterInputs y i) = true) :
    InStep (next y i) := by
  have hlast : (filterInputs y i).axis.tlast = true := congrArg Axis.tlast (bus_of_nil hf hinit)
  obtain ⟨d, hout, b, hl, st, hnext, hst'⟩ := holds_last hready rfl hlast hst
  have hstored : (next y i).stored = y.stored + 1 := stored_of_out hready hout
  have hclosing : Closing (next y i) f := by
    refine ⟨next_frame_of_tready hf hout, hinit, ?_⟩
    rw [hstored, show (next y i).filter.cntFrame = _ from congrArg State.cntFrame hnext, hcount]
    omega
  have hstate : (next y i).filter.stateBuffer = st := congrArg State.stateBuffer hnext
  rcases hst' with rfl | rfl <;> simp only [InStep, hstate] <;> exact ⟨f, hclosing⟩

/-- The rest of an unwanted frame is taken and not stored. -/
theorem inStep_of_bad {w : Nat} {ws : List Nat} (hf : y.frame = some f)
    (hinit : f.init = w :: ws) (hcount : y.filter.cntFrame = 2 * y.stored)
    (hready : ready y.buffer = true) (hst : y.filter.stateBuffer = .bufferBadFrame) :
    InStep (next y i) := by
  have hlast : (filterInputs y i).axis.tlast = false := congrArg Axis.tlast (bus_of_cons hf hinit)
  obtain ⟨hout, b, hl, hnext⟩ := skips_inner hready rfl hlast hst
  have hstored : (next y i).stored = y.stored := stored_of_out hready hout
  have hstate : (next y i).filter.stateBuffer = .bufferBadFrame :=
    congrArg State.stateBuffer hnext
  simp only [InStep, hstate]
  refine ⟨⟨{ f with init := ws }, ?_⟩, ?_⟩
  · rw [next_frame_of_tready hf hout]
    simp [rest, hinit]
  · rw [hstored, show (next y i).filter.cntFrame = _ from congrArg State.cntFrame hnext, hcount]

/-- The control beat takes the last word from the bus. -/
theorem inStep_of_closing (h : Closing y f) (hready : ready y.buffer = true)
    (hst : y.filter.stateBuffer = .bufferFlushFrame ∨ y.filter.stateBuffer = .bufferAddHeader) :
    InStep (next y i) := by
  obtain ⟨fl, ah, hout, hor, hnext⟩ := closes_frame (i := filterInputs y i) hready rfl hst
  have hstored : (next y i).stored = 0 := by
    rw [stored_of_out hready hout, Bool.or_comm, hor]
    rfl
  have hframe : (next y i).frame = none := by
    rw [next_frame_of_tready h.frame hout]
    simp [rest, h.last]
  have hstate : (next y i).filter.stateBuffer = .bufferIdle := hnext
  simp only [InStep, hstate, hframe]
  exact ⟨hstored, by simp⟩

theorem InStep.step (hy : InStep y) (hp : Paced y i) : InStep (next y i) := by
  have hready := hp.ready
  have hcases := hy
  unfold InStep at hcases
  revert hcases
  cases hst : y.filter.stateBuffer with
  | bufferIdle => exact fun _ => inStep_of_idle hst hy hp
  | bufferEvaluate =>
    rintro ⟨f, h⟩
    cases hinit : f.init with
    | nil =>
      have hlast : (busAxis y i).tlast = true := congrArg Axis.tlast (bus_of_nil h.frame hinit)
      exact closing_of_last h.frame hinit h.count (hready (by simp [hst]))
        (.inr (.inr ⟨hst, hp.early hst hlast⟩))
    | cons w ws => exact counting_inner h hinit (hready (by simp [hst])) (.inl hst)
  | bufferGoodFrame =>
    rintro ⟨f, h⟩
    cases hinit : f.init with
    | nil => exact closing_of_last h.frame hinit h.count (hready (by simp [hst])) (.inl hst)
    | cons w ws => exact counting_inner h hinit (hready (by simp [hst])) (.inr hst)
  | bufferBadFrame =>
    rintro ⟨⟨f, hf⟩, hcount⟩
    cases hinit : f.init with
    | nil => exact closing_of_last hf hinit hcount (hready (by simp [hst])) (.inr (.inl hst))
    | cons w ws => exact inStep_of_bad hf hinit hcount (hready (by simp [hst])) hst
  | bufferFlushFrame => exact fun ⟨f, h⟩ => inStep_of_closing h (hready (by simp [hst])) (.inl hst)
  | bufferAddHeader => exact fun ⟨f, h⟩ => inStep_of_closing h (hready (by simp [hst])) (.inr hst)

/-- Control beats leave the filter in its last two states only, with the count held. -/
theorem InStep.agrees (hy : InStep y) : Agrees y i := by
  intro hc
  obtain ⟨hst, hdata⟩ : (y.filter.stateBuffer = .bufferFlushFrame ∨
      y.filter.stateBuffer = .bufferAddHeader) ∧ (beat y i).tdata = y.filter.cntFrame :=
    controls_cases hc
  obtain ⟨f, h⟩ : ∃ f, Closing y f := by
    rcases hst with hst | hst <;> simpa only [InStep, hst] using hy
  rw [hdata]
  exact h.count

end Invariant

/-- **The counts agree.**  In every run in which the filter is not held back in the middle
    of a frame, every control beat carries the length of what the buffer has stored. -/
theorem agrees_of_paced {y : Chain} {is : List Inputs} (hy : y.IsReset)
    (hp : Along next Paced y is) : Along next Agrees y is :=
  (Along.with_inv (fun _ _ => InStep.step) hy.inStep hp).mono fun _ _ h => h.1.agrees

/-! ### A stall in the middle of a frame -/

/-- The pair out of reset. -/
def powerUp : Chain := ⟨FSharkFilter.reset, ⟨false, fun _ => 0, 1, 0, 0, 0, false⟩, none, 0⟩

theorem powerUp_isReset : powerUp.IsReset := ⟨rfl, ⟨rfl, rfl, rfl, rfl, rfl⟩, rfl, rfl⟩

/-- A cycle that looks for the value 1 in the first byte of each frame. -/
def cycle (start : Option Frame) (deqReady : Bool) : Inputs :=
  ⟨start, quiet, deqReady, 0, 1⟩

/-- A frame of two words is kept and not drained; then a frame of `n + 2` words starts. -/
def opening (n : Nat) : List Inputs :=
  [cycle (some ⟨[1], 2, false⟩) false, cycle none false, cycle none false, cycle none false,
    cycle (some ⟨1 :: List.replicate n 1, 1, false⟩) false, cycle none false]

/-- The second frame is being stored: `k` words are, and `n + 1` are still to come. -/
def filling (k n : Nat) (mem : Nat → Nat) : Chain :=
  ⟨⟨2 * k, 2, 0, .bufferGoodFrame⟩, ⟨true, mem, (k + 4) % 2048, 0, 1, 0, false⟩,
    some ⟨List.replicate n 1, 1, false⟩, k⟩

theorem run_opening (n : Nat) : ∃ mem, run next powerUp (opening n) = filling 1 n mem := by
  refine ⟨(run next powerUp (opening n)).buffer.mem, ?_⟩
  simp [opening, cycle, powerUp, filling, next, beat, isControl, controls, takes, filterInputs,
    busAxis, current, front, rest, out, FSharkFilter.next, atIndex, byteMatches, popCount,
    CircularBuffer.next_eq, ready, bufferFull, reset, quiet,
    Frame.inner, Frame.final, bufferLength, actualDepth,
    CircularBuffer.reads, bufferEmpty, lastWord,
    CircularBuffer.halfUp]

theorem next_filling {k n : Nat} (hk : k < 2044) (mem : Nat → Nat) :
    ∃ mem', next (filling k (n + 1) mem) (cycle none false) = filling (k + 1) n mem' := by
  refine ⟨(next (filling k (n + 1) mem) (cycle none false)).buffer.mem, ?_⟩
  have hfull : (k + 4 + 2047) % 2048 < 2047 := by omega
  have hempty : ¬ (k + 4 + 2047) % 2048 = 0 := by omega
  have hhead : ¬ (k + 4) % 2048 = 2048 := by omega
  have hcnt : (2 * k + 2) % 4096 = 2 * (k + 1) := by omega
  simp [cycle, filling, next, beat, isControl, controls, takes, filterInputs, busAxis, current,
    front, rest, out, FSharkFilter.next, popCount, CircularBuffer.next_eq, ready,
    bufferFull, Frame.inner, bufferLength,
    actualDepth, CircularBuffer.reads, bufferEmpty,
    List.replicate_succ, hfull, hempty, hhead, hcnt]

theorem run_filling (n : Nat) {k : Nat} (hk : k + n ≤ 2044) (mem : Nat → Nat) :
    ∃ mem', run next (filling k n mem) (List.replicate n (cycle none false)) =
      filling (k + n) 0 mem' := by
  induction n generalizing k mem with
  | zero => exact ⟨mem, rfl⟩
  | succ n ih =>
    obtain ⟨mem', hnext⟩ := next_filling (n := n) (show k < 2044 by omega) mem
    obtain ⟨mem'', hrun⟩ := ih (k := k + 1) (by omega) mem'
    refine ⟨mem'', ?_⟩
    rw [List.replicate_succ, run_cons, hnext, hrun, add_assoc, add_comm 1]

theorem closing_filling (mem : Nat → Nat) :
    isControl (run next (filling 2044 0 mem) [cycle none true, cycle none true])
        (cycle none true) = true ∧
      (beat (run next (filling 2044 0 mem) [cycle none true, cycle none true])
        (cycle none true)).tdata = 4090 ∧
      (run next (filling 2044 0 mem) [cycle none true, cycle none true]).stored = 2045 := by
  refine ⟨?_, ?_, ?_⟩ <;>
    simp [cycle, filling, next, beat, isControl, controls, takes, filterInputs, busAxis, current,
      front, out, FSharkFilter.next, popCount, CircularBuffer.next_eq, ready,
      bufferFull, Frame.final, bufferLength,
      actualDepth, CircularBuffer.reads, bufferEmpty,
      lastWord]

/-- After 2044 of 2045 words the buffer is full.  The first frame starts to drain, so the
    filter waits one cycle, stores the last word and issues the header beat. -/
def stalled : List Inputs :=
  opening 2043 ++ List.replicate 2043 (cycle none false) ++ [cycle none true, cycle none true]

theorem stalled_count_off :
    isControl (run next powerUp stalled) (cycle none true) = true ∧
      (beat (run next powerUp stalled) (cycle none true)).tdata = 4090 ∧
      (run next powerUp stalled).stored = 2045 ∧
      ¬ Agrees (run next powerUp stalled) (cycle none true) := by
  obtain ⟨mem, hopen⟩ := run_opening 2043
  obtain ⟨mem', hfill⟩ := run_filling 2043 (k := 1) (by omega) mem
  have hrun : run next powerUp stalled =
      run next (filling 2044 0 mem') [cycle none true, cycle none true] := by
    rw [stalled, run_append, run_append, hopen, hfill]
  rw [hrun]
  obtain ⟨hcontrol, htdata, hstored⟩ := closing_filling mem'
  refine ⟨hcontrol, htdata, hstored, ?_⟩
  intro h
  have := h hcontrol
  rw [htdata, hstored] at this
  simp at this

theorem short_frames_agree :
    Along next Agrees powerUp (opening 0 ++ List.replicate 6 (cycle none true)) :=
  agrees_of_paced powerUp_isReset (by decide)

end Patmos.FilterBuffer
