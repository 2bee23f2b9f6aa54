import Patmos.FShark

/-!
# Dropping old frames

While the device records, a full FIFO is relieved in `fill_empty`: the length of the
oldest frame is taken from the word at the front of the FIFO, and as many words are
dequeued as the countdown lasts.  The full flag that starts this is one cycle old, the
countdown includes the cycle in which the state is left, and the copy from the
circular buffer goes on meanwhile.

Frames stay aligned all the same.  In every other state the words dequeued so far are
whole frames, so the front of the FIFO is a header, and each visit of `fill_empty`
dequeues the header and the words of one frame.
-/

namespace Patmos.FShark

open Clocked Frames
open MemFifo (deqValid deqBits held fetches stores storedAt deliveredAt)

/-! ### Words of a stream of frames -/

theorem stream_take_succ {fs : List (List Nat)} {k : Nat} {f : List Nat} (hf : fs[k]? = some f) :
    stream (fs.take (k + 1)) = stream (fs.take k) ++ encode f := by
  rw [List.take_add_one, hf, Option.toList_some, stream_concat]

theorem stream_split {fs : List (List Nat)} {k : Nat} {f : List Nat} (hf : fs[k]? = some f) :
    stream fs = stream (fs.take k) ++ (encode f ++ stream (fs.drop (k + 1))) := by
  rw [← List.append_assoc, ← stream_take_succ hf, ← stream_append, List.take_append_drop]

/-- Words that follow whole frames of a stream start with the header of the next frame. -/
theorem header_of_prefix_stream {fs : List (List Nat)} {k x : Nat} {rest : List Nat}
    (h : stream (fs.take k) ++ x :: rest <+: stream fs) :
    ∃ f, fs[k]? = some f ∧ x = header f := by
  have hsplit : stream fs = stream (fs.take k) ++ stream (fs.drop k) := by
    rw [← stream_append, List.take_append_drop]
  rw [hsplit, List.prefix_append_right_inj] at h
  cases hdrop : fs.drop k with
  | nil => simp [hdrop] at h
  | cons f fs' =>
    have hf : fs[k]? = some f := by
      have := @List.getElem?_drop _ fs k 0
      simpa [hdrop] using this.symm
    refine ⟨f, hf, ?_⟩
    rw [hdrop, stream_cons, encode, List.cons_append, List.cons_prefix_cons] at h
    exact h.1

/-- In the middle of a frame they start with its next word. -/
theorem take_succ_of_prefix_stream {fs : List (List Nat)} {k n x : Nat} {f rest : List Nat}
    (hf : fs[k]? = some f) (hn : n ≤ f.length)
    (h : stream (fs.take k) ++ (encode f).take n ++ x :: rest <+: stream fs) :
    (encode f).take (n + 1) = (encode f).take n ++ [x] := by
  have hlt : n < (encode f).length := by rw [encode_length]; omega
  have hcut : encode f = (encode f).take n ++ (encode f)[n] :: (encode f).drop (n + 1) := by
    rw [← List.drop_eq_getElem_cons hlt, List.take_append_drop]
  rw [stream_split hf, List.append_assoc, List.prefix_append_right_inj] at h
  nth_rewrite 2 [hcut] at h
  rw [List.append_assoc, List.prefix_append_right_inj, List.cons_append,
    List.cons_prefix_cons] at h
  rw [List.take_add_one, List.getElem?_eq_getElem hlt, ← h.1, Option.toList_some]

theorem wordsBehind_header {f : List Nat} (hpos : 1 ≤ f.length) (hle : f.length ≤ 2046) :
    wordsBehind (header f) = f.length := by
  unfold wordsBehind header
  omega

/-! ### Runs of the device -/

/-- The words enqueued into the FIFO along a run of the device. -/
def stored (d : Device) (is : List Signals) : List Nat :=
  emitted next (fun d i => MemFifo.storedAt d.fifo (fifoInputs d i)) d is

/-- The words dequeued from it. -/
def delivered (d : Device) (is : List Signals) : List Nat :=
  emitted next (fun d i => MemFifo.deliveredAt d.fifo (fifoInputs d i)) d is

/-- The words that are in it. -/
def contents (d : Device) (is : List Signals) : List Nat :=
  (stored d is).drop (delivered d is).length

/-- The processor does not read a word in this cycle. -/
def Unread (d : Device) (i : Signals) : Prop :=
  d.regs.stateReg = .emptyToPatmos → deqReady d i = false

instance (d : Device) (i : Signals) : Decidable (Unread d i) :=
  inferInstanceAs (Decidable (_ → _))

/-- Outside `fill_empty` nothing is dequeued. -/
theorem deqReady_eq_false {d : Device} {i : Signals} (hunread : Unread d i)
    (hst : d.regs.stateReg ≠ .fillEmpty) : deqReady d i = false := by
  cases hs : d.regs.stateReg with
  | fillEmpty => exact absurd hs hst
  | emptyToPatmos => exact hunread hs
  | idle | fill | waitForEOF => simp [deqReady, hs]

/-- A FIFO that is full has a word in its output stage one cycle later, and at most that
    word has left the memory. -/
theorem full_step {s : MemFifo.State Nat} {q : List Nat} (h : MemFifo.Inv depth s q)
    (hfull : s.fullReg = true) (i : MemFifo.Inputs Nat) :
    deqValid (MemFifo.next depth s i) = true ∧
      depth - 1 ≤ (MemFifo.Inv.after s i q).length := by
  have hlen : q.length = depth := by simpa [hfull] using h.fullReg_eq
  have hempty : s.emptyReg = false := by
    by_contra he
    have := h.empty_le (by simpa using he)
    rw [hlen] at this
    exact absurd this (by decide)
  have hstores : stores s i = false := by simp [stores, hfull]
  rw [deqValid, MemFifo.next_stateReg, MemFifo.Inv.after, storedAt]
  by_cases hf : fetches s i = true
  · simp [hf, hstores, hlen]
  · have hout : s.stateReg ≠ .idle ∧ i.deqReady = false := by
      simpa [fetches, hempty] using hf
    cases hs : s.stateReg with
    | idle => exact absurd hs hout.1
    | valid | full => simp [hf, hstores, hlen, hout.2]

theorem deqValid_step {s : MemFifo.State Nat} {i : MemFifo.Inputs Nat}
    (hv : deqValid s = true) (hdeq : i.deqReady = false) :
    deqValid (MemFifo.next depth s i) = true ∧ fetches s i = false := by
  have hs : s.stateReg ≠ .idle := by
    intro hs
    simp [deqValid, hs] at hv
  have hf : fetches s i = false := by simp [fetches, hs, hdeq]
  refine ⟨?_, hf⟩
  rw [deqValid, MemFifo.next_stateReg, hf]
  cases hc : s.stateReg with
  | idle => exact absurd hc hs
  | valid | full => simp [hdeq]

/-- An output stage that is read is refilled while two words wait in the memory. -/
theorem refill_step {s : MemFifo.State Nat} {q : List Nat} (h : MemFifo.Inv depth s q)
    (hq : 2 ≤ q.length) {i : MemFifo.Inputs Nat} (hdeq : i.deqReady = true) :
    deqValid (MemFifo.next depth s i) = true ∧
      q.length - 1 ≤ (MemFifo.Inv.after s i q).length := by
  have hempty : s.emptyReg = false := by
    by_contra he
    have := h.empty_le (by simpa using he)
    omega
  have hf : fetches s i = true := by simp [fetches, hempty, hdeq]
  constructor
  · simp [deqValid, MemFifo.next_stateReg, hf]
  · simp [MemFifo.Inv.after, hf]

/-! ### Alignment -/

/-- After `st` was enqueued and `del` dequeued the FIFO holds `q` behind its output stage, and `k`
    frames have been dequeued as a whole.  In `fill_empty` the countdown says how much of the next
    frame is left. -/
structure Aligned (fs : List (List Nat)) (e : Device) (st del q : List Nat) (k : Nat) : Prop where
  fifo : MemFifo.Inv depth e.fifo q
  stored_eq : st = del ++ (held e.fifo ++ q)
  isOpen : e.regs.writeToFIFO = true ∨ e.regs.stateReg = .emptyToPatmos
  full : e.regs.stateReg = .fill → e.regs.fullFIFO = true →
    deqValid e.fifo = true ∧ depth - 1 ≤ q.length
  between : e.regs.stateReg ≠ .fillEmpty → e.regs.frameLength = 0 ∧ del = stream (fs.take k)
  inside : e.regs.stateReg = .fillEmpty → ∃ f, fs[k]? = some f ∧ e.regs.frameLength ≤ f.length ∧
    del = stream (fs.take k) ++ (encode f).take (f.length - e.regs.frameLength) ∧
    deqValid e.fifo = true ∧ e.regs.frameLength + 1 ≤ q.length

/-- The number of frames dequeued after one more cycle: the countdown ends a frame. -/
def dropped (e : Device) (k : Nat) : Nat :=
  if e.regs.stateReg = .fillEmpty ∧ e.regs.frameLength = 0 then k + 1 else k

variable {fs : List (List Nat)} {d e : Device} {p : List Signals} {st del q : List Nat} {k : Nat}
  {i : Signals}

theorem Device.IsReset.aligned (hd : d.IsReset) : Aligned fs d [] [] [] 0 where
  fifo := hd.fifo.inv (by decide)
  stored_eq := by simp [held, deqValid, hd.fifo.stateReg]
  isOpen := .inl hd.writeToFIFO
  full := by simp [hd.stateReg]
  between := fun _ => ⟨hd.frameLength, rfl⟩
  inside := by simp [hd.stateReg]

variable (h : Aligned fs e st del q k) (hfs : ∀ f ∈ fs, 1 ≤ f.length ∧ f.length ≤ 2046)
  (hpre : st <+: stream fs)

/-- The alignment after a cycle. -/
def AlignedNext (fs : List (List Nat)) (e : Device) (i : Signals) (st del q : List Nat) (k : Nat) :
    Prop :=
  Aligned fs (next e i) (st ++ storedAt e.fifo (fifoInputs e i))
    (del ++ deliveredAt e.fifo (fifoInputs e i)) (MemFifo.Inv.after e.fifo (fifoInputs e i) q) k

include h in
theorem Aligned.stored_next : st ++ storedAt e.fifo (fifoInputs e i) =
    del ++ deliveredAt e.fifo (fifoInputs e i) ++
      (held (next e i).fifo ++ MemFifo.Inv.after e.fifo (fifoInputs e i) q) := by
  have hcons := h.fifo.conservation (fifoInputs e i)
  rw [h.stored_eq]
  simp only [List.append_assoc] at hcons ⊢
  rw [hcons]
  rfl

include h in
/-- The delayed full flag that `fill` looks at means a full FIFO one cycle ago. -/
theorem Aligned.full_next (hst : (next e i).regs.stateReg = .fill)
    (hfull : (next e i).regs.fullFIFO = true) :
    deqValid (next e i).fifo = true ∧
      depth - 1 ≤ (MemFifo.Inv.after e.fifo (fifoInputs e i) q).length := by
  have hne : e.regs.stateReg ≠ .emptyToPatmos := by
    intro he
    rw [(next_control _ _).1, he] at hst
    simp only at hst
    split at hst <;> exact absurd hst (by simp)
  have hopen : e.regs.writeToFIFO = true := h.isOpen.resolve_right hne
  have hreg : e.fifo.fullReg = true := by simpa [next_fullFIFO, enqReady, hopen] using hfull
  exact full_step h.fifo hreg _

include h hpre in
/-- The header of the next frame is read from the front of the FIFO. -/
theorem Aligned.front (hst : e.regs.stateReg ≠ .fillEmpty) (hv : deqValid e.fifo = true) :
    ∃ f, fs[k]? = some f ∧ deqBits e.fifo = header f := by
  rw [h.stored_eq, (h.between hst).2, held, if_pos hv, List.singleton_append] at hpre
  exact header_of_prefix_stream hpre

theorem delivered_outside (hunread : Unread e i) (hst : e.regs.stateReg ≠ .fillEmpty) :
    deliveredAt e.fifo (fifoInputs e i) = [] := by
  rw [deliveredAt]
  simp [fifoInputs, deqReady_eq_false hunread hst]

include h hfs hpre in
/-- A cycle outside `fill_empty` dequeues nothing; it may start the countdown. -/
theorem Aligned.step_outside (hunread : Unread e i) (hst : e.regs.stateReg ≠ .fillEmpty) :
    AlignedNext fs e i st del q k := by
  obtain ⟨hlen, hdel⟩ := h.between hst
  have hdel' : del ++ deliveredAt e.fifo (fifoInputs e i) = stream (fs.take k) := by
    rw [delivered_outside hunread hst, List.append_nil, hdel]
  refine ⟨h.fifo.step _, h.stored_next, writeToFIFO_step _ _ h.isOpen, h.full_next, ?_, ?_⟩
  · intro hnext
    refine ⟨?_, hdel'⟩
    rw [(next_control _ _).2.1]
    cases hs : e.regs.stateReg with
    | fillEmpty => exact absurd hs hst
    | fill =>
      have hfull : e.regs.fullFIFO = false := by
        by_contra hfull
        rw [(next_control _ _).1, hs] at hnext
        simp [hfull] at hnext
      simpa [hfull] using hlen
    | idle | waitForEOF | emptyToPatmos => exact hlen
  · intro hnext
    -- the countdown starts in `fill`, with the full flag set
    obtain ⟨hs, hfull⟩ : e.regs.stateReg = .fill ∧ e.regs.fullFIFO = true := by
      rw [(next_control _ _).1] at hnext
      cases hs : e.regs.stateReg with
      | fillEmpty => exact absurd hs hst
      | fill =>
        refine ⟨rfl, ?_⟩
        by_contra hfull
        cases hstop : e.regs.stopFrameRecording <;> simp [hs, hfull, hstop] at hnext
      | idle | waitForEOF | emptyToPatmos =>
        simp only [hs] at hnext
        split at hnext <;> exact absurd hnext (by simp)
    obtain ⟨hv, hq⟩ := h.full hs hfull
    obtain ⟨f, hf, hbits⟩ := h.front hpre hst hv
    obtain ⟨hpos, hle⟩ := hfs f (List.mem_of_getElem? hf)
    have hcount : (next e i).regs.frameLength = f.length := by
      rw [(next_control _ _).2.1, hs]
      simp [hfull, hlen, hbits, wordsBehind_header hpos hle]
    obtain ⟨hv', hfetch⟩ :=
      deqValid_step (i := fifoInputs e i) hv (deqReady_eq_false hunread hst)
    refine ⟨f, hf, by rw [hcount], ?_, hv', ?_⟩
    · rw [hdel', hcount]
      simp
    · rw [hcount, MemFifo.Inv.after, hfetch]
      simp only [Bool.false_eq_true, if_false, List.length_append]
      have : depth = 20000 := rfl
      omega

include h hpre in
/-- A cycle in `fill_empty` dequeues one word of the frame. -/
theorem Aligned.step_inside (hst : e.regs.stateReg = .fillEmpty) :
    AlignedNext fs e i st del q (dropped e k) := by
  obtain ⟨f, hf, hle, hdel, hv, hq⟩ := h.inside hst
  have hdeq : deqReady e i = true := by simp [deqReady, hst, hv]
  have hword : (encode f).take (f.length - e.regs.frameLength + 1) =
      (encode f).take (f.length - e.regs.frameLength) ++ [deqBits e.fifo] := by
    rw [h.stored_eq, hdel, held, if_pos hv, List.singleton_append] at hpre
    exact take_succ_of_prefix_stream hf (by omega) hpre
  have hdel' : del ++ deliveredAt e.fifo (fifoInputs e i) = stream (fs.take k) ++
      (encode f).take (f.length - e.regs.frameLength + 1) := by
    rw [hdel, hword, deliveredAt]
    simp [fifoInputs, hdeq, hv]
  have hcount : (next e i).regs.frameLength = e.regs.frameLength - 1 := by
    rw [(next_control _ _).2.1, hst]
  refine ⟨h.fifo.step _, h.stored_next, writeToFIFO_step _ _ h.isOpen, h.full_next, ?_, ?_⟩
  · -- the countdown has ended: the last word of the frame has been dequeued
    intro hnext
    have hzero : e.regs.frameLength = 0 := by
      by_contra hne
      rw [(next_control _ _).1, hst] at hnext
      simp [hne] at hnext
    refine ⟨by rw [hcount, hzero], ?_⟩
    have hall : (encode f).take (f.length + 1) = encode f := List.take_of_length_le (by simp)
    rw [hdel', hzero, dropped, if_pos ⟨hst, hzero⟩, stream_take_succ hf, Nat.sub_zero, hall]
  · intro hnext
    have hne : e.regs.frameLength ≠ 0 := by
      intro hzero
      rw [(next_control _ _).1, hst] at hnext
      cases hstop : e.regs.stopFrameRecording <;> simp [hzero, hstop] at hnext
    obtain ⟨hv', hq'⟩ := refill_step h.fifo (by omega) (i := fifoInputs e i) hdeq
    rw [dropped, if_neg (fun hc => hne hc.2)]
    refine ⟨f, hf, by omega, ?_, hv', by omega⟩
    rw [hdel', hcount]
    congr 2
    omega

include h hfs hpre in
theorem Aligned.step (hunread : Unread e i) : AlignedNext fs e i st del q (dropped e k) := by
  by_cases hst : e.regs.stateReg = .fillEmpty
  · exact h.step_inside hpre hst
  · rw [dropped, if_neg (fun hc => hst hc.1)]
    exact h.step_outside hfs hpre hunread hst

theorem stored_concat : stored d (p ++ [i]) =
    stored d p ++ storedAt (run next d p).fifo (fifoInputs (run next d p) i) := emitted_concat ..

theorem delivered_concat : delivered d (p ++ [i]) =
    delivered d p ++ deliveredAt (run next d p).fifo (fifoInputs (run next d p) i) :=
  emitted_concat ..

theorem exists_aligned (hd : d.IsReset) (hfs : ∀ f ∈ fs, 1 ≤ f.length ∧ f.length ≤ 2046)
    {is : List Signals} (hunread : Along next Unread d is) (hpre : stored d is <+: stream fs) :
    ∃ q k, Aligned fs (run next d is) (stored d is) (delivered d is) q k := by
  induction is using List.reverseRecOn with
  | nil => exact ⟨[], 0, hd.aligned⟩
  | append_singleton is i ih =>
    rw [along_concat] at hunread
    rw [stored_concat] at hpre ⊢
    have hpre' := (List.prefix_append _ _).trans hpre
    obtain ⟨q, k, h⟩ := ih hunread.1 hpre'
    rw [run_concat, delivered_concat]
    exact ⟨_, _, h.step hfs hpre' hunread.2⟩

/-! ### Visits of `fill_empty` -/

/-- The device is in `fill_empty` before the cycle. -/
def InFillEmpty (e : Device) (_ : Signals) : Prop := e.regs.stateReg = .fillEmpty

/-- The words dequeued in the cycles `v` of a visit that started after the inputs `p`. -/
def removed (d : Device) (p v : List Signals) : List Nat := delivered (run next d p) v

/-- The countdown of a visit: either the frame is not yet removed, or the visit ended with
    its last word. -/
theorem Aligned.countdown {f : List Nat} (h : Aligned fs e st del q k)
    (hstart : e.regs.stateReg = .fillEmpty) (hlen : e.regs.frameLength = f.length)
    {v : List Signals} (hpre : st ++ stored e v <+: stream fs) (hv : Along next InFillEmpty e v) :
    ∃ q' k', Aligned fs (run next e v) (st ++ stored e v) (del ++ delivered e v) q' k' ∧
      ((run next e v).regs.stateReg = .fillEmpty ∧ k' = k ∧
          (run next e v).regs.frameLength + v.length = f.length ∨
        (run next e v).regs.stateReg ≠ .fillEmpty ∧ k' = k + 1 ∧ v.length = f.length + 1) := by
  induction v using List.reverseRecOn with
  | nil => exact ⟨q, k, by simpa [stored, delivered] using h, .inl ⟨hstart, rfl, hlen⟩⟩
  | append_singleton v j ih =>
    rw [along_concat] at hv
    rw [stored_concat, ← List.append_assoc] at hpre ⊢
    have hpre' := (List.prefix_append _ _).trans hpre
    obtain ⟨hv, hin⟩ := hv
    replace hin : (run next e v).regs.stateReg = .fillEmpty := hin
    obtain ⟨q', k', hq', ⟨-, rfl, hcount⟩ | ⟨hout, -, -⟩⟩ := ih hpre' hv
    · rw [run_concat, delivered_concat, ← List.append_assoc, (next_control _ _).1, hin,
        (next_control _ _).2.1, hin, List.length_append, List.length_singleton]
      refine ⟨_, _, hq'.step_inside hpre' hin, ?_⟩
      by_cases hzero : (run next e v).regs.frameLength = 0
      · refine .inr ⟨?_, if_pos ⟨hin, hzero⟩, by omega⟩
        cases (run next e v).regs.stopFrameRecording <;> simp [hzero]
      · refine .inl ⟨by simp [hzero], if_neg fun hc => hzero hc.2, ?_⟩
        change (run next e v).regs.frameLength - 1 + (v.length + 1) = f.length
        omega
    · exact absurd hin hout

/-- A visit starts with the countdown at the length of the frame at the front. -/
theorem Aligned.entry (h : Aligned fs e st del q k) (hbefore : del = stream (fs.take k))
    (hst : e.regs.stateReg = .fillEmpty) :
    ∃ f, fs[k]? = some f ∧ e.regs.frameLength = f.length := by
  obtain ⟨f, hf, hle, hdel, -, -⟩ := h.inside hst
  refine ⟨f, hf, ?_⟩
  have hnone : (encode f).take (f.length - e.regs.frameLength) = [] :=
    List.append_right_eq_self.mp (hdel.symm.trans hbefore)
  have hlength := congrArg List.length hnone
  simp only [List.length_take, encode_length, List.length_nil] at hlength
  omega

/-- What the device does to the frames in its FIFO while it records `fs`: outside
    `fill_empty` whole frames have been dequeued and the front is a header, and after `n`
    cycles of a visit the first `n` words of one frame, header included, have been
    dequeued; the visit ends exactly with the last of them. -/
structure KeepsFrames (fs : List (List Nat)) (d : Device) (is : List Signals) : Prop where
  front : (run next d is).regs.stateReg = .idle ∨ (run next d is).regs.stateReg = .fill ∨
      (run next d is).regs.stateReg = .waitForEOF →
    ∃ k, delivered d is = stream (fs.take k) ∧
      (∀ x ∈ (contents d is).head?, ∃ f, fs[k]? = some f ∧ x = header f) ∧
      (MemFifo.deqValid (run next d is).fifo = true →
        (contents d is).head? = some (MemFifo.deqBits (run next d is).fifo))
  visit : ∀ p i v, is = p ++ [i] ++ v → (run next d p).regs.stateReg ≠ .fillEmpty →
    (run next d (p ++ [i])).regs.stateReg = .fillEmpty →
    Along next InFillEmpty (run next d (p ++ [i])) v →
    ∃ f ∈ fs, removed d (p ++ [i]) v = (encode f).take v.length ∧ v.length ≤ f.length + 1 ∧
      ((run next d is).regs.stateReg ≠ .fillEmpty ↔ v.length = f.length + 1)

/-- **Dropping old frames keeps the frames aligned.**  For every timing of the words that
    come from the circular buffer, of the trigger and of the end-of-frame signals, as
    long as the words form frames of 1 to 2046 words and the processor has not started to
    read. -/
theorem keepsFrames_of_unread (fs : List (List Nat))
    (hfs : ∀ f ∈ fs, 1 ≤ f.length ∧ f.length ≤ 2046) {d : Device} (hd : d.IsReset)
    {is : List Signals} (hunread : Along next Unread d is) (hpre : stored d is <+: stream fs) :
    KeepsFrames fs d is := by
  constructor
  · intro hst
    obtain ⟨q, k, h⟩ := exists_aligned hd hfs hunread hpre
    have hne : (run next d is).regs.stateReg ≠ .fillEmpty := by
      rcases hst with hs | hs | hs <;> simp [hs]
    obtain ⟨-, hdel⟩ := h.between hne
    have hcontents : contents d is = held (run next d is).fifo ++ q := by
      rw [contents, h.stored_eq, List.drop_left]
    rw [hcontents]
    refine ⟨k, hdel, ?_, ?_⟩
    · intro x hx
      obtain ⟨rest, hrest⟩ : ∃ rest, held (run next d is).fifo ++ q = x :: rest :=
        List.head?_eq_some_iff.mp hx
      rw [h.stored_eq, hdel, hrest] at hpre
      exact header_of_prefix_stream hpre
    · intro hv
      rw [held, if_pos hv]
      rfl
  · rintro p i v rfl hbefore hentry hv
    obtain ⟨hunread₀, hunread₁⟩ := (along_concat _ _ _).mp hunread.of_append_left
    rw [stored, emitted_append] at hpre
    have hpre₁ : stored d (p ++ [i]) <+: stream fs := (List.prefix_append _ _).trans hpre
    rw [stored_concat] at hpre₁
    have hpre₀ := (List.prefix_append _ _).trans hpre₁
    obtain ⟨q, k, h⟩ := exists_aligned hd hfs hunread₀ hpre₀
    have hstep := h.step_outside hfs hpre₀ hunread₁ hbefore
    have hdel := (h.between hbefore).2
    have hrun : run next d (p ++ [i]) = next (run next d p) i := run_concat d p i
    rw [AlignedNext, ← stored_concat, delivered_outside hunread₁ hbefore, List.append_nil, hdel,
      ← hrun] at hstep
    obtain ⟨f, hf, hlen⟩ := hstep.entry rfl hentry
    rw [run_append, removed]
    refine ⟨f, List.mem_of_getElem? hf, ?_⟩
    obtain ⟨q', k', hal, ⟨hin, rfl, hcount⟩ | ⟨hout, rfl, hcount⟩⟩ :=
      hstep.countdown hentry hlen hpre hv
    · -- still in the middle of the frame
      obtain ⟨g, hg, hle, hdel', -, -⟩ := hal.inside hin
      obtain rfl : f = g := by simpa [hf] using hg
      rw [List.append_cancel_left_eq] at hdel'
      refine ⟨?_, by omega, fun hne => absurd hin hne, fun hend => by omega⟩
      rw [hdel']
      congr 1
      omega
    · -- the visit ended with the last word of the frame
      obtain ⟨-, hdel'⟩ := hal.between hout
      rw [stream_take_succ hf, List.append_cancel_left_eq] at hdel'
      refine ⟨?_, by omega, fun _ => hcount, fun _ => hout⟩
      rw [hdel', hcount, List.take_of_length_le (by simp)]

/-! ### A recording that fills the FIFO

The word 2 is the header of a frame of two words.  A buffer that offers nothing else
offers the frame `[2, 2]` over and over. -/

section FullFifo

/-- A cycle in which the buffer offers `w`. -/
def offer (w : Nat) (endOfFrame : Bool) : Signals := ⟨.idle, 0, 0, endOfFrame, true, true, w, 0⟩

/-- `n` cycles in which the buffer offers the word 2. -/
def twos (n : Nat) : List Signals := List.replicate n (offer 2 true)

theorem run_twos_succ (d : Device) (n : Nat) :
    run next d (twos (n + 1)) = next (run next d (twos n)) (offer 2 true) := by
  rw [twos, List.replicate_succ', run_concat, twos]

theorem stored_twos (d : Device) (n : Nat) : stored d (twos n) <+: List.replicate n 2 := by
  induction n generalizing d with
  | zero => exact List.prefix_rfl
  | succ n ih =>
    have hrest := ih (next d (offer 2 true))
    rw [stored, twos] at hrest ⊢
    rw [List.replicate_succ, emitted_cons, List.replicate_succ, storedAt]
    split
    · exact (List.prefix_cons_inj 2).mpr hrest
    · refine hrest.trans ?_
      rw [← List.replicate_succ, List.replicate_succ']
      exact List.prefix_append _ _

theorem stream_twos (k : Nat) : stream (List.replicate k [2, 2]) = List.replicate (3 * k) 2 := by
  induction k with
  | zero => rfl
  | succ k ih =>
    rw [List.replicate_succ, stream_cons, ih, Nat.mul_succ, Nat.add_comm, List.replicate_add]
    rfl

/-- The device records, and the header of the frame at the front is in the output stage. -/
structure Holding (d : Device) : Prop where
  stateReg : d.regs.stateReg = .fill
  stopFrameRecording : d.regs.stopFrameRecording = false
  frameLength : d.regs.frameLength = 0
  writeToFIFO : d.regs.writeToFIFO = true
  outState : d.fifo.stateReg = .full
  shadowReg : d.fifo.shadowReg = 2

theorem stopFrameRecording_step {d : Device} {w : Nat} {e : Bool}
    (hstop : d.regs.stopFrameRecording = false) :
    (next d (offer w e)).regs.stopFrameRecording = false := by
  have hfsm : (fsm d (offer w e) (defaults d)).stopFrameRecording = false := by
    unfold fsm defaults
    cases d.regs.stateReg <;> simp only <;> repeat' split
    all_goals first | exact hstop | rfl
  simp only [next, ocpWrite]
  split
  · next h => cases h
  · split <;> exact hfsm

variable {d : Device} {t : Nat}

/-- Nothing leaves a FIFO whose output stage is taken, while the device records. -/
theorem Holding.step (h : Holding d) (hfull : d.regs.fullFIFO = false) :
    Holding (next d (offer 2 true)) ∧ fetches d.fifo (fifoInputs d (offer 2 true)) = false := by
  have hdeq : (fifoInputs d (offer 2 true)).deqReady = false := by
    simp [fifoInputs, deqReady, h.stateReg]
  have hfetch : fetches d.fifo (fifoInputs d (offer 2 true)) = false := by
    simp [fetches, h.outState, hdeq]
  obtain ⟨hstate, hlength, hwrite⟩ := next_control d (offer 2 true)
  rw [h.stateReg] at hstate hlength hwrite
  refine ⟨⟨?_, stopFrameRecording_step h.stopFrameRecording, ?_, ?_, ?_, ?_⟩, hfetch⟩
  · simpa [hfull, h.stopFrameRecording] using hstate
  · simpa [hfull, h.frameLength] using hlength
  · exact hwrite.trans h.writeToFIFO
  · rw [next, MemFifo.next_stateReg, hfetch, h.outState]
    simp [hdeq]
  · rw [next, MemFifo.next_shadowReg, h.outState]
    simpa using h.shadowReg

/-- After `t` offers, all of them stored, the first word is in the output stage. -/
structure Filling (t : Nat) (d : Device) : Prop extends Holding d where
  fullFIFO : d.regs.fullFIFO = false
  readPtr : d.fifo.readPtr = 1
  writePtr : d.fifo.writePtr = t % depth
  fullReg : d.fifo.fullReg = false

theorem Filling.stores_offer (h : Filling t d) :
    stores d.fifo (fifoInputs d (offer 2 true)) = true := by
  simp [stores, fifoInputs, offer, h.fullReg]

theorem Filling.fullReg_next (h : Filling t d) :
    (next d (offer 2 true)).fifo.fullReg = ((t + 1) % depth == 1) := by
  have hlt : t % depth < depth := Nat.mod_lt _ (by decide)
  rw [next, MemFifo.next_fullReg, (h.step h.fullFIFO).2, h.stores_offer, h.writePtr, h.readPtr,
    MemFifo.nextVal_eq hlt, Nat.mod_add_mod]
  rfl

theorem Filling.fullFIFO_next (h : Filling t d) :
    (next d (offer 2 true)).regs.fullFIFO = false := by
  rw [next_fullFIFO, enqReady, h.fullReg, h.writeToFIFO]
  rfl

theorem Filling.step (h : Filling t d) (hroom : (t + 1) % depth ≠ 1) :
    Filling (t + 1) (next d (offer 2 true)) := by
  obtain ⟨hhold, hfetch⟩ := h.toHolding.step h.fullFIFO
  have hlt : t % depth < depth := Nat.mod_lt _ (by decide)
  refine ⟨hhold, h.fullFIFO_next, ?_, ?_, ?_⟩
  · rw [next, MemFifo.next_readPtr, hfetch]
    exact h.readPtr
  · rw [next, MemFifo.next_writePtr, h.stores_offer, h.writePtr, MemFifo.nextVal_eq hlt,
      Nat.mod_add_mod]
    rfl
  · rw [h.fullReg_next]
    simpa using hroom

theorem filling_twos (hthree : 3 ≤ t) (hroom : t ≤ depth) :
    Filling t (run next powerUp (twos t)) := by
  induction t, hthree using Nat.le_induction with
  | base =>
    refine ⟨⟨?_, ?_, ?_, ?_, ?_, ?_⟩, ?_, ?_, ?_, ?_⟩ <;> decide +kernel
  | succ t hthree ih =>
    rw [run_twos_succ]
    refine (ih (by omega)).step ?_
    rcases Nat.lt_or_eq_of_le hroom with hlt | heq
    · rw [Nat.mod_eq_of_lt hlt]
      omega
    · rw [heq, Nat.mod_self]
      decide

/-- A cycle inside a visit counts down, and the one that finds zero ends it. -/
theorem visit_step {n : Nat} (hst : d.regs.stateReg = .fillEmpty)
    (hstop : d.regs.stopFrameRecording = false) (hlength : d.regs.frameLength = n) :
    (next d (offer 2 true)).regs.stateReg = (if n = 0 then .fill else .fillEmpty) ∧
      (next d (offer 2 true)).regs.stopFrameRecording = false ∧
      (next d (offer 2 true)).regs.frameLength = n - 1 := by
  obtain ⟨hstate, hcount, -⟩ := next_control d (offer 2 true)
  rw [hst] at hstate hcount
  refine ⟨?_, stopFrameRecording_step hstop, by rw [hcount, hlength]⟩
  rw [hstate, hlength, hstop]
  by_cases hn : n = 0 <;> simp [hn]

/-- The first word that finds the FIFO full makes the device drop the frame at the front. -/
theorem Filling.visit (h : Filling depth d) :
    (run next d (twos 3)).regs.stateReg = .fillEmpty ∧
      (run next d (twos 6)).regs.stateReg = .fill := by
  have hfull := h.fullReg_next
  rw [Nat.add_mod_left] at hfull
  obtain ⟨hhold₁, -⟩ := h.toHolding.step h.fullFIFO
  have hfull₁ := h.fullFIFO_next
  simp only [twos, List.replicate_succ, List.replicate_zero, run_cons, run_nil]
  generalize next d (offer 2 true) = d₁ at *
  obtain ⟨hhold₂, -⟩ := hhold₁.step hfull₁
  have hfull₂ : (next d₁ (offer 2 true)).regs.fullFIFO = true := by
    rw [next_fullFIFO, enqReady, hfull]
    rfl
  generalize next d₁ (offer 2 true) = d₂ at *
  obtain ⟨hstate, hlength, -⟩ := next_control d₂ (offer 2 true)
  have hbits : deqBits d₂.fifo = 2 := by
    rw [deqBits, hhold₂.outState]
    exact hhold₂.shadowReg
  rw [hhold₂.stateReg, hfull₂] at hstate hlength
  replace hlength : (next d₂ (offer 2 true)).regs.frameLength = 2 := by
    simpa [hhold₂.frameLength, hbits, wordsBehind] using hlength
  have hstop := stopFrameRecording_step (w := 2) (e := true) hhold₂.stopFrameRecording
  obtain ⟨hstate₄, hstop₄, hlength₄⟩ := visit_step hstate hstop hlength
  obtain ⟨hstate₅, hstop₅, hlength₅⟩ := visit_step hstate₄ hstop₄ hlength₄
  exact ⟨hstate, (visit_step hstate₅ hstop₅ hlength₅).1⟩

/-- Without the trigger the device does not get to the reads of the processor. -/
theorem unread_twos (n : Nat) (hstop : d.regs.stopFrameRecording = false)
    (hst : d.regs.stateReg ≠ .waitForEOF ∧ d.regs.stateReg ≠ .emptyToPatmos) :
    Along next Unread d (twos n) := by
  induction n generalizing d with
  | zero => trivial
  | succ n ih =>
    refine ⟨fun hread => absurd hread hst.2, ih (stopFrameRecording_step hstop) ?_⟩
    rw [(next_control d _).1, hstop]
    cases hs : d.regs.stateReg with
    | waitForEOF => exact absurd hs hst.1
    | emptyToPatmos => exact absurd hs hst.2
    | idle => exact ⟨nofun, nofun⟩
    | fill => cases d.regs.fullFIFO <;> exact ⟨nofun, nofun⟩
    | fillEmpty => by_cases hl : d.regs.frameLength = 0 <;> simp [hl]

/-- The first frame is dropped when the FIFO is full for the first time. -/
theorem keepsFrames_full_fifo :
    (run next powerUp (twos (depth + 3))).regs.stateReg = .fillEmpty ∧
      (run next powerUp (twos (depth + 6))).regs.stateReg = .fill ∧
      KeepsFrames (List.replicate 7000 [2, 2]) powerUp (twos (depth + 6)) := by
  have hvisit := (filling_twos (by decide) (Nat.le_refl depth)).visit
  have hrun : ∀ k, run next powerUp (twos (depth + k)) =
      run next (run next powerUp (twos depth)) (twos k) := by
    intro k
    rw [twos, List.replicate_add, run_append]
    rfl
  rw [hrun 3, hrun 6]
  refine ⟨hvisit.1, hvisit.2, ?_⟩
  refine keepsFrames_of_unread _ ?_ powerUp_isReset (unread_twos _ rfl ⟨nofun, nofun⟩) ?_
  · intro f hf
    rw [List.eq_of_mem_replicate hf]
    decide
  · rw [stream_twos]
    refine (stored_twos _ _).trans ?_
    rw [List.prefix_replicate_iff, List.length_replicate]
    exact ⟨by decide, rfl⟩

end FullFifo

end Patmos.FShark
