import Patmos.WriteCombineSys

/-!
# The write-combine buffer keeps memory semantics

One cycle of each kind of transaction keeps the invariant: commands that wait for the
slave, the beats of a read, the words of a snooped burst, combined writes and the words of
a line that is sent to the memory.  So in every run the masters see a memory that takes
each write when its response arrives.
-/

namespace Patmos.WriteCombineBuffer

open Clocked Ocp

namespace Sys

variable (burstLength : Nat)

/-! ### The transactions -/

section Cycle

variable {burstLength} {y : Sys} {i : SysInputs}

/-- What a cycle has to establish. -/
def Kept (burstLength : Nat) (y : Sys) (i : SysInputs) : Prop :=
  Inv burstLength (next burstLength y i) ∧
    (y.spec.Completes burstLength (writeResp burstLength y i) (readPort burstLength y i) →
      Handover burstLength y (next burstLength y i))

/-- The slave has nothing to say to a buffer that waits for a command to be accepted. -/
theorem resp_of_idle (hphase : y.slave.phase = .idle) :
    (fromSlave burstLength y i).resp = .null := by
  simp [fromSlave, Slave.out, hphase]

theorem resp_of_wait (hgo : i.choice.go = false) : (fromSlave burstLength y i).resp = .null := by
  cases hphase : y.slave.phase <;> simp [fromSlave, Slave.out, hphase, Slave.respOf, hgo]

/-- While a transaction goes on the masters issue nothing, and the buffer only advances. -/
theorem next_of_busy (hleg : Legal burstLength y i) {s : State} {m : Slave} {p : Spec}
    (hadv : advanced burstLength y i = s) (hslave : (next burstLength y i).slave = m)
    (hfin : finished burstLength y i = p) (hbusy : p.txn ≠ .none) :
    next burstLength y i = ⟨{ s with
      readMasterReg := i.masters.readMaster
      dataAcceptReg := (fromSlave burstLength y i).dataAccept }, m, p⟩ := by
  obtain ⟨hw, hr⟩ := hleg.busy (hfin ▸ hbusy)
  subst hadv hslave
  rw [← core_of_noCmd burstLength y hr hw, ← spec_of_busy hfin hbusy]

variable {a : Nat} {be : ByteEn} {w : Word} {base done : Nat} {words : Memory}
  (hB : BurstLength burstLength) (hleg : Legal burstLength y i)
include hB hleg

/-- The buffer and the slave are done with the old transaction. -/
theorem kept_of_free {m : BurstSlave} {s : State} {p : Spec}
    (hfreed : Freed burstLength y i (next burstLength y i) m s p) : Kept burstLength y i :=
  have h := hfreed.handover hB hleg
  ⟨h.inv, fun _ => h⟩

/-- No word is on its way, and the masters start a transaction, present a command again, or
    do nothing. -/
theorem kept_of_clean (hclean : Clean burstLength y) (hadv : advanced burstLength y i = y.core)
    (hfin : finished burstLength y i = { y.spec with txn := .none }) (hst : y.core.state ≠ .write)
    (hstate : i.masters.readMaster.cmd = .idle → y.core.state = .idle) : Kept burstLength y i := by
  have hfree := frees_of_idle (i := i) hB hst hclean.phase
  exact kept_of_free hB hleg
    ⟨rfl, rfl, hadv, hfin, rfl, hfree, hclean.overlay, hclean.cnt, rfl, hstate⟩

theorem kept_of_none (htxn : y.spec.txn = .none) (hst : y.core.state = .idle)
    (hclean : Clean burstLength y) : Kept burstLength y i := by
  refine kept_of_clean hB hleg hclean ?_ ?_ (by simp [hst]) (fun _ => hst)
  · simp [advanced, advance, hst]
  · simp [finished, Spec.finish, htxn]

theorem kept_of_readCmd (htxn : y.spec.txn = .readCmd) (hst : y.core.state = .read)
    (hclean : Clean burstLength y) : Kept burstLength y i := by
  refine kept_of_clean hB hleg hclean ?_ ?_ (by simp [hst]) ?_
  · simp [advanced, advance, hst, resp_of_idle hclean.phase]
  · simp [finished, Spec.finish, htxn]
  · intro hidle
    rw [hleg.heldRead htxn] at hidle
    exact absurd hidle (by simp)

theorem kept_of_burstCmd (htxn : y.spec.txn = .burstCmd) (hst : y.core.state = .writeSnoop)
    (hacc : y.core.dataAcceptReg = false) (hclean : Clean burstLength y) :
    Kept burstLength y i := by
  have hlast : ¬ (0 = burstLength - 1) := by
    have := hB.two_le
    omega
  refine kept_of_clean hB hleg hclean ?_ ?_ (by simp [hst]) ?_
  · have hadv : advanced burstLength y i = { y.core with state := .writeSnoop } := by
      simp [advanced, advance, hst, hacc, hclean.cnt, hlast]
    rw [hadv, ← hst]
  · simp [finished, Spec.finish, htxn]
  · intro hidle
    rw [hleg.heldBurst htxn] at hidle
    exact absurd hidle (by simp)

omit hB hleg in
/-- The patched beat is the word of the overlaid memory. -/
theorem Reading.beat (h : Reading burstLength y base done) (hgo : i.choice.go = true)
    (herr : i.choice.err = false) : (readPort burstLength y i).data = y.spec.mem (base + done) := by
  obtain ⟨hline, hmod⟩ := div_of_aligned h.aligned h.lt
  have hdata : (fromSlave burstLength y i).data = y.slave.mem (base + done) := by
    simp [fromSlave, Slave.out, h.phase, hgo, herr]
  rw [← h.overlay]
  simp only [readPort, toReadMaster, hdata, h.state, h.hit, h.cnt, true_and, Sys.overlay, hline,
    hmod]
  by_cases htag : y.core.tagReg = base / burstLength
  · simp [htag]
  · simp [htag, Ne.symm htag]

theorem kept_of_read (htxn : y.spec.txn = .read base done) (h : Reading burstLength y base done) :
    Kept burstLength y i := by
  have hlt := h.lt
  have hst := h.state
  have hresp : (readPort burstLength y i).resp = (fromSlave burstLength y i).resp := by
    simp [readPort, toReadMaster, hst]
  cases hgo : i.choice.go with
  | false =>
    -- no beat in this cycle
    have hnull : (fromSlave burstLength y i).resp = .null := resp_of_wait hgo
    have hfin : finished burstLength y i = y.spec := by
      simp [finished, Spec.finish, htxn, hresp, hnull]
    have hadv : advanced burstLength y i = y.core := by simp [advanced, advance, hst, hnull]
    have hnext := next_of_busy hleg hadv (Slave.next_of_read_wait h.phase hgo) hfin (by simp [htxn])
    constructor
    · rw [hnext]
      simp only [Inv, htxn]
      exact ⟨hst, h.cnt, hlt, h.aligned, h.hit, h.phase, h.overlay⟩
    · intro hc
      simp [Spec.Completes, htxn, hresp, hnull] at hc
  | true =>
    have hdva : (fromSlave burstLength y i).resp = .dva := by
      simp [fromSlave, Slave.out, h.phase, Slave.respOf, hgo, hleg.noErr]
    have hslave : (next burstLength y i).slave =
        ⟨if done + 1 = burstLength then .idle else .read base (done + 1), y.slave.mem⟩ :=
      Slave.next_of_read h.phase hgo
    have hadv : advanced burstLength y i = { y.core with
        state := if done = burstLength - 1 then .idle else .read
        cntReg := (done + 1) % burstLength } := by
      simp [advanced, advance, hst, hdva, h.cnt, hB.cntInc_eq]
    by_cases hlast : done + 1 = burstLength
    · have hfin : finished burstLength y i = { y.spec with txn := .none } := by
        simp [finished, Spec.finish, htxn, hresp, hdva, hlast]
      rw [hlast, Nat.mod_self, if_pos (by omega)] at hadv
      rw [if_pos hlast] at hslave
      have hfree := frees_of_last (by simp [h.phase]) (by simp [h.phase]) (by simp [hst]) hslave
      exact kept_of_free hB hleg
        ⟨rfl, rfl, hadv, hfin, rfl, hfree, h.overlay, rfl, rfl, fun _ => rfl⟩
    · have hfin : finished burstLength y i = { y.spec with txn := .read base (done + 1) } := by
        simp [finished, Spec.finish, htxn, hresp, hdva, hlast]
      rw [Nat.mod_eq_of_lt (by omega), if_neg (by omega)] at hadv
      rw [if_neg hlast] at hslave
      have hnext := next_of_busy hleg hadv hslave hfin (by simp)
      constructor
      · rw [hnext]
        exact ⟨rfl, rfl, by omega, h.aligned, h.hit, rfl, h.overlay⟩
      · intro hc
        simp [Spec.Completes, htxn, hlast] at hc

omit hleg in
/-- A word of a burst write is accepted while the last one goes into the buffer. -/
theorem Snooping.advanced_eq (h : Snooping burstLength y base done words) :
    advanced burstLength y i = { snoopWord y.core with
      cntReg := done % burstLength
      state := if done = burstLength then .idle else .writeSnoop } := by
  have hcnt := h.cnt
  have htwo := hB.two_le
  have hiff : (y.core.cntReg = burstLength - 1) ↔ done = burstLength := by omega
  simp [advanced, advance, h.state, h.accepted, hB.cntInc_eq, hcnt, hiff]

theorem kept_of_burst (htxn : y.spec.txn = .burst base done words)
    (h : Snooping burstLength y base done words) (hlt : done < burstLength)
    (hphase : y.slave.phase = .write base done) : Kept burstLength y i := by
  have hst := h.state
  have hvalid := hleg.words base done words htxn
  have hto : toSlave burstLength y.core i.masters = i.masters.readMaster :=
    toSlave_of_ne (by simp [hst])
  have haccept : (fromSlave burstLength y i).dataAccept = true := by
    simp [fromSlave, Slave.out, hphase]
  have hfin : finished burstLength y i = ⟨y.spec.mem,
      if done + 1 = burstLength then
        .burstResp (words.write (base + done) i.masters.readMaster.dataByteEn
          i.masters.readMaster.data)
      else .burst base (done + 1) (words.write (base + done) i.masters.readMaster.dataByteEn
        i.masters.readMaster.data)⟩ := by
    simp [finished, Spec.finish, htxn, hvalid, readPort, toReadMaster, haccept]
  have hslave : (next burstLength y i).slave =
      ⟨if done + 1 = burstLength then .resp else .write base (done + 1),
        y.slave.mem.write (base + done) i.masters.readMaster.dataByteEn
          i.masters.readMaster.data⟩ := by
    change y.slave.next burstLength _ _ = _
    rw [hto]
    exact Slave.next_of_write hphase hvalid
  have hadv := h.advanced_eq (i := i) hB
  rw [Nat.mod_eq_of_lt hlt, if_neg (by omega)] at hadv
  have hnext := next_of_busy hleg hadv hslave hfin
    (by by_cases hlast : done + 1 = burstLength <;> simp [hlast])
  rw [haccept] at hnext
  obtain ⟨hline, hmod⟩ := div_of_aligned h.aligned hlt
  have hsnoop : Snooping burstLength (next burstLength y i) base (done + 1)
      (words.write (base + done) i.masters.readMaster.dataByteEn i.masters.readMaster.data) := by
    refine ⟨by rw [hnext], by rw [hnext], by rw [hnext], ?_, h.aligned, ?_⟩
    · have hpending : snoopWord (next burstLength y i).core =
          if (next burstLength y i).core.tagReg == (base + done) / burstLength then
            combine (next burstLength y i).core ((base + done) % burstLength)
              i.masters.readMaster.dataByteEn i.masters.readMaster.data
          else (next burstLength y i).core := by
        rw [hline, hmod, hnext]
        simp only [snoopWord_tagReg, ← h.hit]
        rw [snoopWord]
        simp only [snoopWord_hitReg]
      rw [hpending, hslave, overlay_snoop (by omega), hnext, ← h.overlay]
      rfl
    · rw [hnext]
      simp [h.hit]
  constructor
  · have hspec := congrArg spec hnext
    by_cases hlast : done + 1 = burstLength
    · simp only [if_pos hlast] at hspec hslave
      simp only [Inv, hspec]
      rw [hlast] at hsnoop
      exact ⟨by rw [hslave], Or.inl ⟨base, hsnoop⟩⟩
    · simp only [if_neg hlast] at hspec hslave
      simp only [Inv, hspec]
      exact ⟨hsnoop, by omega, by rw [hslave]⟩
  · intro hc
    simp [Spec.Completes, htxn] at hc

theorem kept_of_burstResp (htxn : y.spec.txn = .burstResp words) (hphase : y.slave.phase = .resp)
    (h : (∃ base, Snooping burstLength y base burstLength words) ∨
      y.core.state = .idle ∧ y.core.cntReg = 0 ∧
        overlay burstLength y.core y.slave.mem = words) : Kept burstLength y i := by
  -- in either stage the buffer is done with the burst after this cycle
  have hstage : (y.core.state ≠ .write ∧ y.core.state ≠ .writeResp) ∧
      (advanced burstLength y i).state = .idle ∧ (advanced burstLength y i).cntReg = 0 ∧
      (advanced burstLength y i).tagReg = y.core.tagReg ∧
      overlay burstLength (advanced burstLength y i) y.slave.mem = words := by
    rcases h with ⟨base, hsnoop⟩ | ⟨hst, hcnt, hover⟩
    · have hadv := hsnoop.advanced_eq (i := i) hB
      rw [Nat.mod_self, if_pos rfl] at hadv
      refine ⟨by simp [hsnoop.state], ?_, ?_, ?_, ?_⟩
      · rw [hadv]
      · rw [hadv]
      · rw [hadv]
        simp
      · rw [hadv]
        exact hsnoop.overlay
    · have hadv : advanced burstLength y i = y.core := by simp [advanced, advance, hst]
      rw [hadv]
      exact ⟨by simp [hst], hst, hcnt, rfl, hover⟩
  obtain ⟨⟨hne, hne'⟩, hidle, hcnt, htag, hover⟩ := hstage
  have hresp : (readPort burstLength y i).resp = (fromSlave burstLength y i).resp := by
    simp [readPort, toReadMaster, hne, hne']
  cases hgo : i.choice.go with
  | false =>
    have hnull : (fromSlave burstLength y i).resp = .null := resp_of_wait hgo
    have hfin : finished burstLength y i = y.spec := by
      simp [finished, Spec.finish, htxn, hresp, hnull]
    have hnext := next_of_busy hleg rfl (Slave.next_of_resp_wait hphase hgo) hfin (by simp [htxn])
    constructor
    · rw [hnext]
      simp only [Inv, htxn]
      exact ⟨hphase, Or.inr ⟨hidle, hcnt, hover⟩⟩
    · intro hc
      simp [Spec.Completes, htxn, hresp, hnull] at hc
  | true =>
    have hdva : (fromSlave burstLength y i).resp = .dva := by
      simp [fromSlave, Slave.out, hphase, Slave.respOf, hgo, hleg.noErr]
    have hfin : finished burstLength y i = ⟨words, .none⟩ := by
      simp [finished, Spec.finish, htxn, hresp, hdva]
    have hslave : (next burstLength y i).slave = ⟨.idle, y.slave.mem⟩ :=
      Slave.next_of_resp hphase hgo
    have hfree := frees_of_last (by simp [hphase]) (by simp [hphase]) hne hslave
    exact kept_of_free hB hleg
      ⟨rfl, rfl, rfl, hfin, rfl, hfree, hover, hcnt, htag, fun _ => hidle⟩

/-- A write to the buffered line. -/
theorem kept_of_writeComb (htxn : y.spec.txn = .write a be w) (h : Writing burstLength y a be w)
    (hst : y.core.state = .writeComb) (hclean : Clean burstLength y)
    (htag : y.core.tagReg = a / burstLength) : Kept burstLength y i := by
  have hpos : wrPos burstLength y.core = a % burstLength := by
    rw [wrPos, hB.posOf_eq, h.addr]
  have hadv : advanced burstLength y i =
      { combine y.core (a % burstLength) be w with state := .idle } := by
    simp [advanced, advance, hst, hpos, h.byteEn, h.data]
  have hfin : finished burstLength y i = ⟨y.spec.mem.write a be w, .none⟩ := by
    simp [finished, Spec.finish, htxn, writeResp, toWriteMaster, hst]
  have hlt : a % burstLength < burstLength := Nat.mod_lt _ (by have := hB.two_le; omega)
  have hfree := frees_of_idle (i := i) hB (by simp [hst]) hclean.phase
  have hcombine := overlay_combine hlt y.core be w y.slave.mem
  rw [htag, mul_comm, Nat.div_add_mod, hclean.overlay] at hcombine
  exact kept_of_free hB hleg
    ⟨rfl, rfl, hadv, hfin, rfl, hfree, hcombine, hclean.cnt, rfl, fun _ => rfl⟩

omit hleg in
/-- One word of the old line goes to the memory and one of the new line into the buffer. -/
theorem Evicting.word (hw : Writing burstLength y a be w) {line k : Nat}
    (h : Evicting burstLength y a be w line k) {s : State} {mem : Memory}
    (hs : s = evictWord burstLength y.core)
    (hmem : mem = y.slave.mem.write (line * burstLength + k) (y.core.byteEnBuffer k)
      (y.core.dataBuffer k)) :
    (∀ x, y.spec.mem x =
      if x / burstLength = line ∧ k + 1 ≤ x % burstLength then
        merge (s.byteEnBuffer (x % burstLength)) (s.dataBuffer (x % burstLength)) (mem x)
      else mem x) ∧
    (∀ j < k + 1, s.byteEnBuffer j = if j = a % burstLength then be else noBytes) ∧
    (a % burstLength < k + 1 → s.dataBuffer (a % burstLength) = w) := by
  have hpos : wrPos burstLength y.core = a % burstLength := by
    rw [wrPos, hB.posOf_eq, hw.addr]
  have hen : s.byteEnBuffer = Function.update y.core.byteEnBuffer k
      (if k = a % burstLength then be else noBytes) := by
    rw [hs]
    simp only [evictWord, hpos, h.cnt, hw.byteEn]
  have hdata : s.dataBuffer = if k = a % burstLength then Function.update y.core.dataBuffer k w
      else y.core.dataBuffer := by
    rw [hs]
    simp only [evictWord, hpos, h.cnt, hw.data]
  refine ⟨?_, ?_, ?_⟩
  · intro x
    rw [h.mem x, hmem]
    by_cases hx : x = line * burstLength + k
    · -- the word that is sent
      obtain ⟨hline, hmod⟩ := (MemBlock.eq_line_add h.lt).mp hx
      rw [if_pos ⟨hline, hmod.ge⟩, if_neg (by omega), hmod, hx, Memory.write_self]
    · rw [Memory.write_of_ne _ hx]
      by_cases hin : x / burstLength = line ∧ k ≤ x % burstLength
      · -- the words still to be sent are untouched
        have hne : x % burstLength ≠ k := fun hk => hx ((MemBlock.eq_line_add h.lt).mpr ⟨hin.1, hk⟩)
        rw [if_pos hin, if_pos ⟨hin.1, by omega⟩, hen, hdata, Function.update_of_ne hne]
        by_cases hk : k = a % burstLength
        · rw [if_pos hk, Function.update_of_ne hne]
        · rw [if_neg hk]
      · rw [if_neg hin, if_neg (by omega)]
  · intro j hj
    rw [hen]
    by_cases hjk : j = k
    · rw [hjk, Function.update_self]
    · rw [Function.update_of_ne hjk]
      exact h.enables j (by omega)
  · intro hlt
    rw [hdata]
    by_cases hk : k = a % burstLength
    · rw [if_pos hk, ← hk, Function.update_self]
    · rw [if_neg hk]
      exact h.data (by omega)

omit hB hleg in
/-- After the last word the buffer holds the new write and nothing else. -/
theorem overlay_of_evicted {line : Nat} {s : State} {mem spec : Memory} (hpos : 0 < burstLength)
    (htag : s.tagReg = a / burstLength)
    (hmem : ∀ x, spec x =
      if x / burstLength = line ∧ burstLength ≤ x % burstLength then
        merge (s.byteEnBuffer (x % burstLength)) (s.dataBuffer (x % burstLength)) (mem x)
      else mem x)
    (hen : ∀ j < burstLength, s.byteEnBuffer j = if j = a % burstLength then be else noBytes)
    (hdata : s.dataBuffer (a % burstLength) = w) :
    overlay burstLength s mem = spec.write a be w := by
  have hspec : spec = mem := by
    funext x
    have : x % burstLength < burstLength := Nat.mod_lt _ hpos
    rw [hmem x, if_neg (by omega)]
  funext x
  have hlt : x % burstLength < burstLength := Nat.mod_lt _ hpos
  rw [hspec]
  by_cases hx : x = a
  · rw [hx] at hlt ⊢
    rw [Memory.write_self]
    simp only [overlay, htag, if_true, hen _ hlt, hdata]
  · rw [Memory.write_of_ne _ hx]
    by_cases hline : x / burstLength = a / burstLength
    · have hmod : x % burstLength ≠ a % burstLength := by
        intro hmod
        apply hx
        rw [← Nat.div_add_mod x burstLength, hline, hmod, Nat.div_add_mod]
      simp only [overlay, htag, hline, if_true, hen _ hlt, hmod, if_false, merge_none]
    · simp only [overlay, htag, hline, if_false]

theorem kept_of_evict (htxn : y.spec.txn = .write a be w) (h : Writing burstLength y a be w)
    (hst : y.core.state = .write) {line k : Nat} (hev : Evicting burstLength y a be w line k) :
    Kept burstLength y i := by
  have htwo := hB.two_le
  have hlt := hev.lt
  have hnull : writeResp burstLength y i = .null := by simp [writeResp, toWriteMaster, hst]
  have hfin : finished burstLength y i = y.spec := by
    simp [finished, Spec.finish, htxn, hnull]
  have hr := (hleg.busy (by simp [hfin, htxn])).2
  have hto : toSlave burstLength y.core i.masters =
      { cmd := if k = 0 then .wr else .idle
        addr := if k = 0 then y.core.tagReg * 2 ^ (MemBlock.log2Up burstLength + 2)
          else i.masters.readMaster.addr
        data := y.core.dataBuffer k
        dataValid := true
        dataByteEn := y.core.byteEnBuffer k } := by
    simp [toSlave, hst, hev.cnt, hr]
  refine ⟨?_, fun hc => by simp [Spec.Completes, htxn, hnull] at hc⟩
  by_cases hwait : k = 0 ∧ i.choice.accept = false
  · -- the command is not accepted yet
    obtain ⟨rfl, hacc⟩ := hwait
    have hphase : y.slave.phase = .idle := by rw [hev.phase, if_pos rfl]
    have haccept : (fromSlave burstLength y i).dataAccept = false := by
      simp [fromSlave, Slave.out, hphase, hacc]
    have hadv : advanced burstLength y i = { y.core with state := .write } := by
      have : ¬ (0 = burstLength - 1) := by omega
      simp [advanced, advance, hst, haccept, hev.cnt, this]
    rw [next_of_busy hleg hadv (Slave.next_of_wait hphase hacc) hfin (by simp [htxn])]
    simp only [Inv, htxn]
    exact ⟨h.addr, h.byteEn, h.data, Or.inr (Or.inl ⟨rfl, line, 0,
      ⟨hev.cnt, hlt, hev.ne, hev.phase, hev.tag, hev.mem, hev.enables, hev.data⟩⟩)⟩
  · -- a word is accepted
    have haccept : (fromSlave burstLength y i).dataAccept = true ∧
        (next burstLength y i).slave =
          ⟨if k + 1 = burstLength then .resp else .write (line * burstLength) (k + 1),
            y.slave.mem.write (line * burstLength + k) (y.core.byteEnBuffer k)
              (y.core.dataBuffer k)⟩ := by
      by_cases hk : k = 0
      · have hacc : i.choice.accept = true := by
          by_contra hno
          exact hwait ⟨hk, by simpa using hno⟩
        have hphase : y.slave.phase = .idle := by rw [hev.phase, if_pos hk]
        have htag : y.core.tagReg = line := by rw [hev.tag, if_pos hk]
        refine ⟨by simp [fromSlave, Slave.out, hphase, hacc], ?_⟩
        change y.slave.next burstLength _ _ = _
        rw [Slave.next_of_wr hphase hacc (by rw [hto]; exact if_pos hk) (by rw [hto]), hto]
        simp only [hk, if_true, zero_add, add_zero, htag, hB.lineAddr_eq]
      · have hphase : y.slave.phase = .write (line * burstLength) k := by
          rw [hev.phase, if_neg hk]
        refine ⟨by simp [fromSlave, Slave.out, hphase], ?_⟩
        change y.slave.next burstLength _ _ = _
        rw [Slave.next_of_write hphase (by rw [hto]), hto]
    obtain ⟨haccept, hslave⟩ := haccept
    have hadv : advanced burstLength y i = { evictWord burstLength y.core with
        state := if k = burstLength - 1 then .writeResp else .write } := by
      simp [advanced, advance, hst, haccept, hev.cnt]
    rw [next_of_busy hleg hadv hslave hfin (by simp [htxn])]
    simp only [Inv, htxn]
    obtain ⟨hmem, hen, hdata⟩ := hev.word hB h rfl rfl
    have htag : (evictWord burstLength y.core).tagReg = a / burstLength := by
      simp only [evictWord, hB.tagOf_eq, h.addr]
    have hcnt : (evictWord burstLength y.core).cntReg = (k + 1) % burstLength := by
      simp only [evictWord, hB.cntInc_eq, hev.cnt]
    refine ⟨h.addr, h.byteEn, h.data, Or.inr ?_⟩
    by_cases hlast : k + 1 = burstLength
    · rw [hlast] at hmem hen hdata hcnt
      have hover := overlay_of_evicted (s := evictWord burstLength y.core) (by omega) htag hmem hen
        (hdata (Nat.mod_lt _ (by omega)))
      exact Or.inr ⟨if_pos (by omega), hcnt.trans (Nat.mod_self _), if_pos hlast, hover⟩
    · exact Or.inl ⟨if_neg (by omega), line, k + 1, ⟨hcnt.trans (Nat.mod_eq_of_lt (by omega)),
        by omega, hev.ne, (if_neg hlast).trans (if_neg (by omega)).symm,
        htag.trans (if_neg (by omega)).symm, hmem, hen, hdata⟩⟩

theorem kept_of_writeResp (htxn : y.spec.txn = .write a be w) (h : Writing burstLength y a be w)
    (hst : y.core.state = .writeResp) (hcnt : y.core.cntReg = 0) (hphase : y.slave.phase = .resp)
    (hover : overlay burstLength y.core y.slave.mem = y.spec.mem.write a be w) :
    Kept burstLength y i := by
  have hresp : writeResp burstLength y i = (fromSlave burstLength y i).resp := by
    simp [writeResp, toWriteMaster, hst]
  cases hgo : i.choice.go with
  | false =>
    have hnull : (fromSlave burstLength y i).resp = .null := resp_of_wait hgo
    have hfin : finished burstLength y i = y.spec := by
      simp [finished, Spec.finish, htxn, hresp, hnull]
    have hadv : advanced burstLength y i = y.core := by simp [advanced, advance, hst, hnull]
    have hnext := next_of_busy hleg hadv (Slave.next_of_resp_wait hphase hgo) hfin (by simp [htxn])
    refine ⟨?_, fun hc => by simp [Spec.Completes, htxn, hresp, hnull] at hc⟩
    rw [hnext]
    simp only [Inv, htxn]
    exact ⟨h.addr, h.byteEn, h.data, Or.inr (Or.inr ⟨hst, hcnt, hphase, hover⟩)⟩
  | true =>
    have hdva : (fromSlave burstLength y i).resp = .dva := by
      simp [fromSlave, Slave.out, hphase, Slave.respOf, hgo, hleg.noErr]
    have hfin : finished burstLength y i = ⟨y.spec.mem.write a be w, .none⟩ := by
      simp [finished, Spec.finish, htxn, hresp, hdva]
    have hslave : (next burstLength y i).slave = ⟨.idle, y.slave.mem⟩ :=
      Slave.next_of_resp hphase hgo
    have hadv : advanced burstLength y i = { y.core with state := .idle } := by
      simp [advanced, advance, hst, hdva]
    have hfree := frees_of_last (by simp [hphase]) (by simp [hphase]) (by simp [hst]) hslave
    exact kept_of_free hB hleg
      ⟨rfl, rfl, hadv, hfin, rfl, hfree, hover, hcnt, rfl, fun _ => rfl⟩

theorem Inv.kept (h : Inv burstLength y) : Kept burstLength y i := by
  unfold Inv at h
  cases htxn : y.spec.txn with
  | none =>
    simp only [htxn] at h
    exact kept_of_none hB hleg htxn h.1 h.2
  | write a be w =>
    simp only [htxn] at h
    rcases h.stage with ⟨hst, hclean, htag⟩ | ⟨hst, line, k, hev⟩ | ⟨hst, hcnt, hphase, hover⟩
    · exact kept_of_writeComb hB hleg htxn h hst hclean htag
    · exact kept_of_evict hB hleg htxn h hst hev
    · exact kept_of_writeResp hB hleg htxn h hst hcnt hphase hover
  | readCmd =>
    simp only [htxn] at h
    exact kept_of_readCmd hB hleg htxn h.1 h.2
  | read base done =>
    simp only [htxn] at h
    exact kept_of_read hB hleg htxn h
  | burstCmd =>
    simp only [htxn] at h
    exact kept_of_burstCmd hB hleg htxn h.1 h.2.1 h.2.2
  | burst base done words =>
    simp only [htxn] at h
    exact kept_of_burst hB hleg htxn h.1 h.2.1 h.2.2
  | burstResp words =>
    simp only [htxn] at h
    exact kept_of_burstResp hB hleg htxn h.1 h.2

theorem Inv.observed (h : Inv burstLength y) : Observed burstLength y i := by
  constructor
  · intro htxn
    simp only [Inv, htxn] at h
    exact h.2.overlay
  · intro base done htxn hresp
    simp only [Inv, htxn] at h
    have hgo : i.choice.go = true := by
      by_contra hno
      apply hresp
      simp [readPort, toReadMaster, fromSlave, Slave.out, h.phase, Slave.respOf, hno]
    have hbeat := h.beat hgo hleg.noErr
    exact ⟨hbeat.trans (congrFun h.overlay _).symm, hbeat⟩
  · intro hc
    have hhand := (h.kept hB hleg).2 hc
    exact ⟨hhand.overlay, hhand.mem⟩

end Cycle

/-! ### Runs -/

/-- An idle buffer without pending bytes over the memory `mem`. -/
def init (core : State) (mem : Memory) : Sys := ⟨core, ⟨.idle, mem⟩, ⟨mem, .none⟩⟩

theorem inv_init {core : State} (hcore : IsReset core) (mem : Memory) :
    Inv burstLength (init core mem) := by
  refine ⟨hcore.state, hcore.cntReg, rfl, ?_⟩
  funext a
  simp [overlay, init, hcore.byteEnBuffer]

/-- In every cycle of every run the masters see the memory with all completed writes. -/
theorem observed_of_legal {burstLength : Nat} (hB : BurstLength burstLength) {core : State}
    (hcore : IsReset core) (mem : Memory) {is : List SysInputs}
    (hleg : Along (next burstLength) (Legal burstLength) (init core mem) is) :
    Along (next burstLength) (Observed burstLength) (init core mem) is :=
  (hleg.with_inv (fun _ _ h hl => (h.kept hB hl).1) (inv_init burstLength hcore mem)).mono
    fun _ _ h => h.1.observed hB h.2

/-- The conditions on the masters that depend on the outstanding transaction. -/
def Held (y : Sys) (i : SysInputs) : Prop :=
  match y.spec.txn with
  | .readCmd => i.masters.readMaster.cmd = .rd
  | .burstCmd => i.masters.readMaster.cmd = .wr
  | .burst _ _ _ => i.masters.readMaster.dataValid = true
  | _ => True

instance (y : Sys) (i : SysInputs) : Decidable (Held y i) := by
  unfold Held
  cases y.spec.txn <;> infer_instance

def Txn.isNone : Txn → Bool
  | .none => true
  | _ => false

theorem Txn.isNone_eq_false {t : Txn} : Txn.isNone t = false ↔ t ≠ .none := by
  cases t <;> simp [Txn.isNone]

instance (y : Sys) (i : SysInputs) : Decidable (Legal burstLength y i) :=
  decidable_of_iff (i.choice.err = false ∧
      (i.masters.writeMaster.cmd = .wr → i.masters.readMaster.cmd = .idle) ∧
      (i.masters.readMaster.cmd ≠ .idle →
        i.masters.readMaster.addr % (4 * burstLength) = 0) ∧
      (i.masters.readMaster.cmd = .wr → i.masters.readMaster.dataValid = true) ∧
      (Txn.isNone (finished burstLength y i).txn = false →
        i.masters.writeMaster.cmd ≠ .wr ∧ i.masters.readMaster.cmd = .idle) ∧ Held y i) <| by
    rw [Txn.isNone_eq_false]
    constructor
    · rintro ⟨h1, h2, h3, h4, h5, hheld⟩
      refine ⟨h1, h2, h3, h4, h5, ?_, ?_, ?_⟩
      · intro htxn
        simpa only [Held, htxn] using hheld
      · intro htxn
        simpa only [Held, htxn] using hheld
      · intro base done words htxn
        simpa only [Held, htxn] using hheld
    · intro h
      refine ⟨h.noErr, h.exclusive, h.aligned, h.valid, h.busy, ?_⟩
      unfold Held
      cases htxn : y.spec.txn with
      | readCmd => exact h.heldRead htxn
      | burstCmd => exact h.heldBurst htxn
      | burst base done words => exact h.words base done words htxn
      | none | write _ _ _ | read _ _ | burstResp _ => trivial

/-- The registers after reset, with zeros where nothing is reset. -/
def powerUp : State :=
  ⟨.idle, 0, ⟨.idle, 0, fun _ => 0, noBytes⟩, ⟨.idle, 0, fun _ => 0, false, noBytes⟩, 0,
    fun _ _ => 0, fun _ => noBytes, false, false⟩

/-- A cycle in which the memory accepts and responds. -/
def cycle (w : OcpCmd) (addr : Nat) (r : OcpCmd) (base : Nat) (valid : Bool) (b : Byte) :
    SysInputs :=
  ⟨⟨⟨w, addr, fun _ => b, allBytes⟩, ⟨r, base, fun _ => b, valid, ![true, false, false, false]⟩⟩,
    ⟨true, true, false, fun _ => 0⟩⟩

/-- A write is combined, the next one sends the line, a burst write is snooped and the line
    is read. -/
def mixedTraffic : List SysInputs :=
  [cycle .wr 4 .idle 0 false 1, cycle .wr 12 .idle 0 false 2, cycle .idle 0 .idle 0 false 0,
    cycle .idle 0 .idle 0 false 0, cycle .idle 0 .idle 0 false 0, cycle .idle 0 .wr 8 true 3,
    cycle .idle 0 .idle 0 true 4, cycle .idle 0 .idle 0 false 0, cycle .idle 0 .rd 8 false 0,
    cycle .idle 0 .idle 0 false 0, cycle .idle 0 .idle 0 false 0]

theorem mixedTraffic_observed :
    (run (next 2) (init powerUp (fun _ _ => 0)) mixedTraffic).spec.mem 3 =
        (fun l => if l = 0 then 4 else 2) ∧
      Along (next 2) (Observed 2) (init powerUp (fun _ _ => 0)) mixedTraffic :=
  ⟨by decide +kernel,
    observed_of_legal ⟨1, le_rfl, rfl⟩ ⟨rfl, rfl, rfl, rfl⟩ _ (by decide +kernel)⟩

end Sys

end Patmos.WriteCombineBuffer
