import Patmos.BubbleFifo
import Patmos.S4Network

/-!
# The network interface of the S4NoC

`NetworkInterface`: a bubble FIFO for the words that the processor sends, with their time slots,
and one for the words that arrive.  The network cannot be stalled.  A word that arrives while the
register at the input end of the FIFO is full is dropped, wherever in the FIFO there is room.

`rxFifo` is the depth of the FIFO for sending and `txFifo` that of the FIFO for received words.
-/

namespace Patmos.NetworkInterface

open Clocked BubbleFifo
open S4Noc (Chan len Arrives)

structure Entry where
  data : BitVec 32
  time : BitVec 8
deriving DecidableEq

structure CpuPort where
  addr : BitVec 8
  wrData : BitVec 32
  rd : Bool
  wr : Bool

structure State where
  regCnt : Nat
  regDelay : Nat
  inFifo : List (FifoRegister Entry)
  outFifo : List (FifoRegister Entry)
  regTime : BitVec 6

structure Cycle where
  cpuPort : CpuPort
  localIn : Chan (BitVec 32)

/-- `deq.dout`. -/
def dout : List (FifoRegister Entry) → Entry
  | [] => ⟨0, 0⟩
  | b :: _ => b.dataReg

def doDeq (s : State) : Bool := !empty s.inFifo && s.regDelay == (dout s.inFifo).time.toNat

/-- `io.local.out`. -/
def localOut (s : State) : Chan (BitVec 32) := ⟨(dout s.inFifo).data, doDeq s⟩

/-- `enq.write` of `outFifo`. -/
def stores (s : State) (c : Cycle) : Bool := c.localIn.valid && !full s.outFifo

/-- `deq.read` of `outFifo`. -/
def reads (c : Cycle) : Bool := c.cpuPort.rd && c.cpuPort.addr == 0

def rdData (s : State) (c : Cycle) : BitVec 32 :=
  if c.cpuPort.rd then
    if c.cpuPort.addr = 0 then (dout s.outFifo).data
    else if c.cpuPort.addr = 1 then s.regTime.setWidth 32
    else if c.cpuPort.addr = 2 then if full s.inFifo then 0 else 1
    else if c.cpuPort.addr = 3 then if empty s.outFifo then 0 else 1
    else (dout s.outFifo).data
  else (dout s.outFifo).data

def next (n : Nat) (s : State) (c : Cycle) : State where
  regCnt := if s.regCnt = len n - 1 then 0 else (s.regCnt + 1) % 2 ^ MemBlock.log2Up (len n)
  regDelay := s.regCnt
  inFifo := clock (c.cpuPort.wr && !full s.inFifo) ⟨c.cpuPort.wrData, c.cpuPort.addr⟩ (doDeq s)
    s.inFifo
  outFifo := clock (stores s c) ⟨c.localIn.data, .ofNat 8 s.regDelay⟩ (reads c) s.outFifo
  regTime := s.regTime

structure IsReset (txFifo rxFifo : Nat) (s : State) : Prop where
  regCnt : s.regCnt = 0
  regDelay : s.regDelay = 0
  inFifo : BubbleFifo.IsReset rxFifo s.inFifo
  outFifo : BubbleFifo.IsReset txFifo s.outFifo
  regTime : s.regTime = 0

/-! ### The interface and its last cycles -/

/-- The interface with what happened at the FIFO of received words: whether the last cycle stored a
    word, and which cycles took one, the latest first. -/
structure Sys where
  ni : State
  fresh : Bool
  reads : List Bool

/-- The processor reads a word that is there. -/
def takes (s : State) (c : Cycle) : Bool := reads c && !empty s.outFifo

def Sys.next (n : Nat) (y : Sys) (c : Cycle) : Sys :=
  ⟨NetworkInterface.next n y.ni c, stores y.ni c, takes y.ni c :: y.reads⟩

def start (s : State) : Sys := ⟨s, false, []⟩

/-- A word is at the local port only in the slot after one in which a route ends. -/
def Allowed (n : Nat) (y : Sys) (c : Cycle) : Prop :=
  c.localIn.valid = true → Arrives n ((y.ni.regDelay + (len n - 1)) % len n)

instance (n : Nat) (y : Sys) (c : Cycle) : Decidable (Allowed n y c) :=
  inferInstanceAs (Decidable (_ → _))

/-- The received words that are not read yet. -/
def waiting (s : State) : List (BitVec 32) := (stored s.outFifo).map Entry.data

def storedAt (y : Sys) (c : Cycle) : List (BitVec 32) :=
  if stores y.ni c then [c.localIn.data] else []

def readAt (y : Sys) (c : Cycle) : List (BitVec 32) := if takes y.ni c then [rdData y.ni c] else []

/-- No word was stored in the cycle before, and there is room also for the words that were read in
    the last `txFifo - 1` cycles, the time that a bubble needs to the input end. -/
def Roomy (txFifo : Nat) (y : Sys) : Prop :=
  y.fresh = false ∧ (waiting y.ni).length + readsIn (txFifo - 1) y.reads < txFifo

section Proofs

variable {n txFifo rxFifo : Nat} {y : Sys} {c : Cycle}

structure Inv (txFifo : Nat) (y : Sys) : Prop where
  length : y.ni.outFifo.length = txFifo
  waits : Waits y.fresh y.reads 0 0 y.ni.outFifo

theorem Inv.step (h : Inv txFifo y) : Inv txFifo (y.next n c) where
  length := length_clock.trans h.length
  waits := by
    have hwaits : Waits (stores y.ni c && !full y.ni.outFifo) (takes y.ni c :: y.reads) 0 0
        (next n y.ni c).outFifo := by
      apply h.waits.clock
      · intro v m _ _
        rfl
      · rw [takes]
        match y.ni.outFifo with
        | [] | ⟨.empty, _⟩ :: _ | ⟨.full, _⟩ :: _ => cases reads c <;> rfl
    rw [stores, Bool.and_assoc, Bool.and_self] at hwaits
    exact hwaits

/-- A word finds the input end full only where there is no room. -/
theorem Inv.stores_of_roomy (h : Inv txFifo y) (hpos : 1 ≤ txFifo) (hvalid : c.localIn.valid = true)
    (hroom : Roomy txFifo y) : stores y.ni c = true := by
  obtain ⟨hfresh, hlt⟩ := hroom
  rw [stores, hvalid, Bool.true_and, Bool.not_eq_true']
  by_contra hfull
  have hwaits := h.waits
  rw [hfresh] at hwaits
  have hlen := h.length
  have hl : y.ni.outFifo ≠ [] := by
    rw [← List.length_pos_iff, hlen]
    exact hpos
  have hall := hwaits.length_add hl (Bool.not_eq_false _ ▸ hfull)
  rw [hlen, Nat.zero_add, Nat.zero_add, Nat.zero_add] at hall
  rw [waiting, List.length_map] at hlt
  omega

/-- One cycle of the queue of received words. -/
theorem Inv.conserved (h : Inv txFifo y) (hpos : 1 ≤ txFifo) :
    readAt y c ++ waiting (y.next n c).ni = waiting y.ni ++ storedAt y c := by
  have hl : y.ni.outFifo ≠ [] := by
    rw [← List.length_pos_iff, h.length]
    exact hpos
  have hstep : _ ++ stored (y.next n c).ni.outFifo = _ := taken_append_stored hl
  have hread : readAt y c = (taken (reads c) y.ni.outFifo).map Entry.data := by
    rw [readAt, takes]
    cases hr : reads c with
    | false => rfl
    | true =>
      obtain ⟨hrd, haddr⟩ := Bool.and_eq_true_iff.mp hr
      rw [rdData, if_pos hrd, if_pos (beq_iff_eq.mp haddr)]
      match y.ni.outFifo with
      | [] | ⟨.empty, _⟩ :: _ | ⟨.full, _⟩ :: _ => rfl
  have hstore : storedAt y c = (if stores y.ni c && !full y.ni.outFifo then
      [(⟨c.localIn.data, .ofNat 8 y.ni.regDelay⟩ : Entry)] else []).map Entry.data := by
    rw [storedAt, stores, Bool.and_assoc, Bool.and_self]
    cases c.localIn.valid && !full y.ni.outFifo <;> rfl
  rw [hread, hstore, waiting, waiting, ← List.map_append, ← List.map_append, hstep]

theorem IsReset.inv {s : State} (h : IsReset txFifo rxFifo s) : Inv txFifo (start s) :=
  ⟨h.outFifo.1, waits_of_empty h.outFifo.2⟩

/-- **A word that arrives while there is room for it and for the words read just before is stored**,
    if none was stored in the cycle before; and in every run the words that the processor reads,
    followed by those that wait, are the stored ones. -/
theorem stored_of_roomy (n : Nat) (hpos : 1 ≤ txFifo) {s : State} (hs : IsReset txFifo rxFifo s)
    (cs : List Cycle) :
    Along (Sys.next n) (fun y c => c.localIn.valid = true → Roomy txFifo y → stores y.ni c = true)
        (start s) cs ∧
      emitted (Sys.next n) readAt (start s) cs ++ waiting (run (Sys.next n) (start s) cs).ni =
        emitted (Sys.next n) storedAt (start s) cs := by
  have halong : Along (Sys.next n) (fun y _ => Inv txFifo y ∧ True) (start s) cs :=
    Along.with_inv (fun y c h _ => h.step) hs.inv (along_of_forall fun _ _ => trivial)
  constructor
  · exact halong.mono fun y c h hvalid hroom => h.1.stores_of_roomy hpos hvalid hroom
  · refine inv_history (I := fun p y => emitted (Sys.next n) readAt (start s) p ++ waiting y.ni =
      emitted (Sys.next n) storedAt (start s) p) ?_ (fun p c ih hc => ?_) halong
    · have hnone : stored s.outFifo = [] := by
        refine List.filterMap_eq_nil_iff.mpr fun b hb => ?_
        rw [word, hs.outFifo.2 b hb]
      change waiting s = []
      rw [waiting, hnone]
      rfl
    · rw [emitted_concat, emitted_concat, List.append_assoc, hc.1.conserved hpos,
        ← List.append_assoc, ih]

end Proofs

/-! ### Words in adjacent slots -/

/-- Two words fit into each of the FIFOs. -/
def twoWords : State :=
  ⟨0, 0, List.replicate 2 ⟨.empty, ⟨0, 0⟩⟩, List.replicate 2 ⟨.empty, ⟨0, 0⟩⟩, 0⟩

theorem twoWords_isReset : IsReset 2 2 twoWords :=
  ⟨rfl, rfl, ⟨rfl, by decide⟩, ⟨rfl, by decide⟩, rfl⟩

/-- A cycle in which the processor does nothing. -/
def arrive (data : BitVec 32) (valid : Bool) : Cycle := ⟨⟨0, 0, false, false⟩, data, valid⟩

/-- A word in cycle 4 of a network of four nodes. -/
def oneWord : List Cycle := List.replicate 4 (arrive 0 false) ++ [arrive 7 true]

/-- A second word two cycles later is stored. -/
theorem second_word_stored :
    Along (Sys.next 2) (Allowed 2) (start twoWords)
      (oneWord ++ [arrive 0 false] ++ [arrive 8 true]) ∧
      stores (run (Sys.next 2) (start twoWords) (oneWord ++ [arrive 0 false])).ni (arrive 8 true) =
        true := by
  have hall := (stored_of_roomy 2 (by decide) twoWords_isReset
    (oneWord ++ [arrive 0 false] ++ [arrive 8 true])).1
  refine ⟨by decide +kernel, ((along_concat _ _ _).mp hall).2 rfl ?_⟩
  unfold Roomy
  decide +kernel

/-- In the next slot, in which a route ends as well, it is dropped, with one word in the FIFO. -/
theorem adjacent_word_dropped :
    Along (Sys.next 2) (Allowed 2) (start twoWords) (oneWord ++ [arrive 8 true]) ∧
      (waiting (run (Sys.next 2) (start twoWords) oneWord).ni).length = 1 ∧
      stores (run (Sys.next 2) (start twoWords) oneWord).ni (arrive 8 true) = false ∧
      emitted (Sys.next 2) storedAt (start twoWords) (oneWord ++ [arrive 8 true]) = [7] := by
  decide +kernel

/-! ### Sending -/

/-- The word that the processor gets rid of, with the slot that it gives as the address. -/
def acceptedAt (s : State) (c : Cycle) : List Entry :=
  if c.cpuPort.wr && !full s.inFifo then [⟨c.cpuPort.wrData, c.cpuPort.addr⟩] else []

/-- The word at the local port of the router, with the slot in which it is there. -/
def sentAt (s : State) (_ : Cycle) : List Entry :=
  if (localOut s).valid then [⟨(localOut s).data, .ofNat 8 s.regDelay⟩] else []

section Sending

variable {n txFifo rxFifo : Nat} {s : State} {c : Cycle}

/-- One cycle of the queue of words to send. -/
theorem sentAt_append (hl : s.inFifo ≠ []) :
    sentAt s c ++ stored (next n s c).inFifo = stored s.inFifo ++ acceptedAt s c := by
  have hstep : _ ++ stored (next n s c).inFifo = _ := taken_append_stored hl
  have hsent : sentAt s c = taken (doDeq s) s.inFifo := by
    unfold sentAt localOut
    cases hdeq : doDeq s with
    | false => rfl
    | true =>
      simp only [doDeq, Bool.and_eq_true, beq_iff_eq] at hdeq
      rw [if_pos rfl, hdeq.2, BitVec.ofNat_toNat, BitVec.setWidth_eq]
      match hin : s.inFifo with
      | [] => exact absurd hin hl
      | ⟨.empty, _⟩ :: _ =>
        rw [hin] at hdeq
        exact absurd hdeq.1 (by simp [empty])
      | ⟨.full, _⟩ :: _ => rfl
  rw [hsent, hstep, acceptedAt, Bool.and_assoc, Bool.and_self]

/-- The words sent, followed by those that wait, are the words accepted. -/
theorem sent_append_waiting (n : Nat) (hpos : 1 ≤ rxFifo) (hs : IsReset txFifo rxFifo s)
    (cs : List Cycle) :
    emitted (next n) sentAt s cs ++ stored (run (next n) s cs).inFifo =
      emitted (next n) acceptedAt s cs := by
  have hne : ∀ s : State, s.inFifo.length = rxFifo → s.inFifo ≠ [] := by
    intro s hlen
    rw [← List.length_pos_iff, hlen]
    exact hpos
  have halong : Along (next n) (fun s _ => s.inFifo.length = rxFifo ∧ True) s cs :=
    Along.with_inv (fun _ _ h _ => length_clock.trans h) hs.inFifo.1
      (along_of_forall fun _ _ => trivial)
  refine inv_history (I := fun p t => emitted (next n) sentAt s p ++ stored t.inFifo =
    emitted (next n) acceptedAt s p) ?_ (fun p c ih hc => ?_) halong
  · exact List.filterMap_eq_nil_iff.mpr fun b hb => by rw [word, hs.inFifo.2 b hb]
  · rw [emitted_concat, emitted_concat, List.append_assoc, sentAt_append (hne _ hc.1),
      ← List.append_assoc, ih]

theorem sent_of_slot {e : Entry} {l : List (FifoRegister Entry)} (hin : s.inFifo = ⟨.full, e⟩ :: l)
    (hslot : s.regDelay = e.time.toNat) : e ∈ sentAt s c := by
  have hdeq : doDeq s = true := by simp [doDeq, hin, dout, empty, hslot]
  rw [sentAt, localOut, if_pos hdeq, hin, hslot, BitVec.ofNat_toNat, BitVec.setWidth_eq]
  exact List.mem_singleton_self e

/-- The word at the output end of the queue is sent now, or it is still there in the next cycle. -/
theorem sent_or_kept {e : Entry} {l : List (FifoRegister Entry)}
    (hin : s.inFifo = ⟨.full, e⟩ :: l) :
    e ∈ sentAt s c ∨ ∃ l', (next n s c).inFifo = ⟨.full, e⟩ :: l' := by
  cases hdeq : doDeq s with
  | true => exact .inl (sent_of_slot hin (by simpa [doDeq, hin, dout, empty] using hdeq))
  | false =>
    right
    change ∃ l', clock _ _ (doDeq s) s.inFifo = _
    rw [hin, hdeq]
    cases l with
    | nil => exact ⟨[], rfl⟩
    | cons b l => exact ⟨_, rfl⟩

theorem sent_or_kept_run {e : Entry} {l : List (FifoRegister Entry)}
    (hin : s.inFifo = ⟨.full, e⟩ :: l) (cs : List Cycle) :
    e ∈ emitted (next n) sentAt s cs ∨ ∃ l', (run (next n) s cs).inFifo = ⟨.full, e⟩ :: l' := by
  induction cs generalizing s l with
  | nil => exact .inr ⟨l, hin⟩
  | cons c cs ih =>
    rw [emitted_cons, List.mem_append, run_cons, or_assoc]
    rcases sent_or_kept (n := n) (c := c) hin with hsent | ⟨l', hkept⟩
    · exact .inl hsent
    · exact .inr (ih hkept)

/-- The slot counter. -/
theorem regCnt_run (hlen : 0 < len n) (hs : IsReset txFifo rxFifo s) (cs : List Cycle) :
    (run (next n) s cs).regCnt = cs.length % len n := by
  induction cs using List.reverseRecOn with
  | nil => rw [run_nil, hs.regCnt, List.length_nil, Nat.zero_mod]
  | append_singleton cs c ih =>
    rw [run_concat, List.length_append, List.length_singleton, ← MemBlock.count_next hlen, ← ih]
    rfl

theorem regDelay_run (hlen : 0 < len n) (hs : IsReset txFifo rxFifo s) {cs : List Cycle} {t : Nat}
    (ht : cs.length = t + 1) : (run (next n) s cs).regDelay = t % len n := by
  obtain ⟨p, c, rfl⟩ :=
    (List.eq_nil_or_concat cs).resolve_left (List.ne_nil_of_length_eq_add_one ht)
  rw [List.length_concat, Nat.add_right_cancel_iff] at ht
  rw [List.concat_eq_append, run_concat, ← ht]
  exact regCnt_run hlen hs p

/-- A word at the output end whose slot is one of the schedule is sent within a period. -/
theorem sent_within_period (hlen : 0 < len n) (hs : IsReset txFifo rxFifo s) {p q : List Cycle}
    {e : Entry} {l : List (FifoRegister Entry)} (hin : (run (next n) s p).inFifo = ⟨.full, e⟩ :: l)
    (hslot : e.time.toNat < len n) (hq : len n ≤ q.length) :
    e ∈ emitted (next n) sentAt (run (next n) s p) q := by
  have hne : p.length ≠ 0 := by
    intro hzero
    rw [List.length_eq_zero_iff.mp hzero, run_nil] at hin
    have hfull := hs.inFifo.2 ⟨.full, e⟩ (by simp [hin])
    cases hfull
  obtain ⟨t, ht⟩ := Nat.exists_eq_add_one_of_ne_zero hne
  -- the cycles until the slot of the word comes
  obtain ⟨u, hu, hslots⟩ := MemBlock.exists_add_mod hslot t
  obtain ⟨x, rest, hrest⟩ : ∃ x rest, q.drop u = x :: rest :=
    List.exists_cons_of_ne_nil (List.drop_eq_nil_iff.not.mpr (by omega))
  rw [← List.take_append_drop u q, hrest, emitted_append, emitted_cons]
  rcases sent_or_kept_run (n := n) hin (q.take u) with hsent | ⟨l', hkept⟩
  · exact List.mem_append_left _ hsent
  · have hdelay : (run (next n) (run (next n) s p) (q.take u)).regDelay = e.time.toNat := by
      rw [← run_append, ← hslots]
      refine regDelay_run hlen hs ?_
      rw [List.length_append, List.length_take, ht]
      omega
    have hsent := sent_of_slot (c := x) hkept hdelay
    exact List.mem_append_right _ (List.mem_append_left _ hsent)

/-- **Every word leaves in its slot, once and in order.**  The words at the local port, with the
    slots in which they are there, followed by those that still wait, are the words that the
    processor has written, with the slots that it has given; and a word at the output end of the
    queue is sent within a period, if its slot is one of the schedule. -/
theorem sends_in_slots (hlen : 0 < len n) (hpos : 1 ≤ rxFifo) (hs : IsReset txFifo rxFifo s)
    (cs : List Cycle) :
    emitted (next n) sentAt s cs ++ stored (run (next n) s cs).inFifo =
        emitted (next n) acceptedAt s cs ∧
      ∀ p q e l, cs = p ++ q → (run (next n) s p).inFifo = ⟨.full, e⟩ :: l →
        e.time.toNat < len n → len n ≤ q.length →
          e ∈ emitted (next n) sentAt (run (next n) s p) q :=
  ⟨sent_append_waiting n hpos hs cs, fun _ _ _ _ _ hin hslot hq =>
    sent_within_period hlen hs hin hslot hq⟩

end Sending

/-- A cycle in which the processor writes a word for a slot. -/
def send (data : BitVec 32) (slot : BitVec 8) : Cycle := ⟨⟨slot, data, false, true⟩, 0, false⟩

/-- Two words in a network of four nodes, the first one for a later slot than the second. -/
def twoSends : List Cycle :=
  [send 7 3, arrive 0 false, send 8 1] ++ List.replicate 8 (arrive 0 false)

theorem twoSends_in_slots :
    emitted (next 2) sentAt twoWords twoSends = [⟨7, 3⟩, ⟨8, 1⟩] ∧
      emitted (next 2) sentAt twoWords twoSends ++ stored (run (next 2) twoWords twoSends).inFifo =
        emitted (next 2) acceptedAt twoWords twoSends ∧
      ∀ p q e l, twoSends = p ++ q → (run (next 2) twoWords p).inFifo = ⟨.full, e⟩ :: l →
        e.time.toNat < len 2 → len 2 ≤ q.length →
        e ∈ emitted (next 2) sentAt (run (next 2) twoWords p) q :=
  ⟨by decide +kernel, sends_in_slots (by decide) (by decide) twoWords_isReset twoSends⟩

end Patmos.NetworkInterface
