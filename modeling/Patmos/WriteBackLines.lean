import Patmos.WriteBackCache

/-!
# Lines of the write-back cache

A memory `spec` is split between the cache and the memory behind it: the words of the valid
lines are in the cache, and the words outside the dirty lines are in the memory.  `Coherent`
says this with two exceptions, a line that is changing hands and words that are still on their
way to the memory.

As for the write-through cache, the data memories lag one cycle behind the registers of the
write port during a fill; `settled` is what they hold after it.
-/

namespace Patmos.DirectMappedCacheWriteBack

open Ocp
open Function (update update_apply update_of_ne update_self)
open DirectMappedCache (Inputs lineBits tagCount missIndexBits lineIndex tagOf wordIndex
  missIndex vecRead vecWrite vecWrite_of_lt lineBase sets)

/-! ### Sizes -/

section Geometry

/-- Sizes that are powers of two: lines of `2 ^ b` words, and `2 ^ n` lines. -/
structure Sized (size burstLength b n : Nat) : Prop where
  line : 1 ≤ b
  burst : burstLength = 2 ^ b
  size : size = 2 ^ (n + b + 2)

variable {size burstLength b n : Nat} (hs : Sized size burstLength b n)
include hs

theorem tagCount_eq : tagCount size burstLength = 2 ^ n := by
  have hpow : 2 ^ (n + b + 2) = 2 ^ n * (2 ^ b * 4) := by
    rw [Nat.add_assoc, Nat.pow_add, Nat.pow_add]
  rw [tagCount, hs.size, hs.burst, hpow]
  exact Nat.mul_div_cancel _ (Nat.mul_pos (Nat.two_pow_pos b) (by decide))

theorem tagCount_pos : 0 < tagCount size burstLength := by
  rw [tagCount_eq hs]
  exact Nat.two_pow_pos n

theorem sets_eq : sets size burstLength = tagCount size burstLength := by
  have hwords : size / 4 = 2 ^ (n + b) := by
    rw [hs.size, Nat.pow_add 2 (n + b) 2]
    exact Nat.mul_div_cancel _ (by decide)
  have hbits : DirectMappedCache.addrBits size = n + b := by
    rw [DirectMappedCache.addrBits, hwords, MemBlock.log2Up, Nat.clog_pow 2 _ Nat.one_lt_two]
    have := hs.line
    omega
  rw [sets, hbits, DirectMappedCache.lineBits_eq hs.line hs.burst, tagCount_eq hs]
  congr 1
  omega

theorem burst_pos : 0 < burstLength := hs.burst ▸ Nat.two_pow_pos b

theorem lineIndex_lt (addr : Nat) :
    lineIndex size burstLength addr < tagCount size burstLength := by
  rw [← sets_eq hs]
  exact Nat.mod_lt _ (Nat.two_pow_pos _)

theorem missIndex_eq (addr : Nat) : missIndex burstLength addr = addr / 4 % burstLength := by
  rw [missIndex, DirectMappedCache.lineWords_eq hs.line hs.burst]

theorem missIndex_lt (addr : Nat) : missIndex burstLength addr < burstLength := by
  rw [missIndex_eq hs]
  exact Nat.mod_lt _ (burst_pos hs)

theorem addr_eq (addr : Nat) : addr / 4 =
    lineBase size burstLength (tagOf size addr) (lineIndex size burstLength addr) +
      missIndex burstLength addr := by
  rw [missIndex_eq hs]
  exact (DirectMappedCache.lineBase_add hs.line hs.burst (tagCount_pos hs) addr).symm

theorem wordIndex_line (addr : Nat) : wordIndex size addr =
    lineIndex size burstLength addr * burstLength + missIndex burstLength addr := by
  rw [missIndex_eq hs]
  exact DirectMappedCache.wordIndex_eq hs.line hs.burst (tagCount_pos hs) addr

theorem wordIndex_lt (addr : Nat) : wordIndex size addr < size / 4 := by
  rw [wordIndex_line hs]
  exact DirectMappedCache.word_lt (lineIndex_lt hs addr) (missIndex_lt hs addr)

theorem lineBase_inj {t t' j j' p p' : Nat} (hp : p < burstLength) (hp' : p' < burstLength)
    (hj : j < tagCount size burstLength) (hj' : j' < tagCount size burstLength)
    (h : lineBase size burstLength t j + p = lineBase size burstLength t' j' + p') :
    t = t' ∧ j = j' ∧ p = p' := by
  rw [← sets_eq hs] at hj hj'
  exact DirectMappedCache.lineBase_inj hp hp' hj hj' h

theorem lineBase_addr (t j : Nat) :
    lineBase size burstLength t j * 4 / 2 ^ lineBits burstLength * 2 ^ lineBits burstLength / 4 =
      lineBase size burstLength t j := by
  rw [DirectMappedCache.lineBytes_eq hs.line hs.burst, MemBlock.lineAddr_eq,
    Nat.mul_div_cancel _ (by decide), lineBase, Nat.mul_div_cancel _ (burst_pos hs)]

/-- The address of the first word of a line on the bus. -/
theorem line_addr (addr : Nat) :
    addr / 2 ^ lineBits burstLength * 2 ^ lineBits burstLength / 4 =
      lineBase size burstLength (tagOf size addr) (lineIndex size burstLength addr) := by
  have hword := addr_eq hs addr
  rw [missIndex_eq hs] at hword
  have hdiv := Nat.div_add_mod' (addr / 4) burstLength
  rw [DirectMappedCache.lineBytes_eq hs.line hs.burst, MemBlock.lineAddr_eq]
  omega

end Geometry

/-! ### Coherence -/

section Coherence

variable (size burstLength : Nat)

/-- The data memories after the write port of a fill. -/
def settled (s : State) : Nat → Word :=
  if s.fillReg then Function.update s.mem s.wrAddrReg s.wrDataReg else s.mem

/-- Word `a` is in a dirty line other than `x`. -/
def InDirty (s : State) (x : Option Nat) (a : Nat) : Prop :=
  ∃ j p, j < tagCount size burstLength ∧ x ≠ some j ∧ s.tagVMem j = true ∧ s.dirtyMem j = true ∧
    p < burstLength ∧ a = lineBase size burstLength (s.tagMem j) j + p

/-- The cache and the memory `mem` have the words of `spec`, except for the line `x` of the
    cache and the words of the memory that are `lost` without it. -/
structure Coherent (s : State) (mem spec : Memory) (x : Option Nat) (lost : Nat → Prop) :
    Prop where
  line : ∀ j p, j < tagCount size burstLength → s.tagVMem j = true → x ≠ some j →
    p < burstLength →
    settled s (j * burstLength + p) = spec (lineBase size burstLength (s.tagMem j) j + p)
  memory : ∀ a, ¬InDirty size burstLength s x a → ¬lost a → mem a = spec a
  dirty : ∀ j, s.dirtyMem j = true → s.tagVMem j = true

/-- The memory with the dirty lines of the cache over it. -/
def overlay (s : State) (mem : Memory) (a : Nat) : Word :=
  if s.tagVMem (lineIndex size burstLength (a * 4)) ∧
      s.dirtyMem (lineIndex size burstLength (a * 4)) ∧
      s.tagMem (lineIndex size burstLength (a * 4)) = tagOf size (a * 4) then
    s.mem (wordIndex size (a * 4))
  else mem a

/-- What a command does to a memory. -/
def effect (mem : Memory) (q : CacheMaster) : Memory :=
  if q.cmd = .wr then mem.write (q.addr / 4) q.byteEn q.data else mem

end Coherence

section Lines

variable {size burstLength b n : Nat} {s s' : State} {i : Inputs} {m : BurstSlave}
  {mem spec : Memory} {x : Option Nat} {lost : Nat → Prop}

theorem settled_of_noFill (h : s.fillReg = false) : settled s = s.mem := by
  rw [settled, h]
  rfl

/-- A cache that is coherent gives the whole of `spec`. -/
theorem Coherent.overlay (hs : Sized size burstLength b n)
    (h : Coherent size burstLength s mem spec none fun _ => False) (hfill : s.fillReg = false)
    (a : Nat) : overlay size burstLength s mem a = spec a := by
  have haddr := addr_eq hs (a * 4)
  rw [Nat.mul_div_cancel a (by decide)] at haddr
  rw [DirectMappedCacheWriteBack.overlay]
  split
  · rename_i hd
    obtain ⟨hvalid, -, htag⟩ := hd
    have hline := h.line _ _ (lineIndex_lt hs (a * 4)) hvalid (by simp) (missIndex_lt hs (a * 4))
    rw [settled_of_noFill hfill, htag, ← haddr, ← wordIndex_line hs] at hline
    exact hline
  · rename_i hnot
    refine h.memory a ?_ not_false
    rintro ⟨j, p, hj, -, hvalid, hdirty, hp, heq⟩
    obtain ⟨htag, rfl, -⟩ := lineBase_inj hs (missIndex_lt hs (a * 4)) hp
      (lineIndex_lt hs (a * 4)) hj (haddr.symm.trans heq)
    exact hnot ⟨hvalid, hdirty, htag.symm⟩

/-- Word `p` of a valid line, as a word of `spec`. -/
theorem Coherent.word (hs : Sized size burstLength b n)
    (h : Coherent size burstLength s mem spec x lost) {addr j : Nat}
    (hj : lineIndex size burstLength addr = j) (hx : x ≠ some j) (hvalid : s.tagVMem j = true)
    (htag : s.tagMem j = tagOf size addr) : settled s (wordIndex size addr) = spec (addr / 4) := by
  subst hj
  rw [wordIndex_line hs, h.line _ _ (lineIndex_lt hs addr) hvalid hx (missIndex_lt hs addr), htag,
    ← addr_eq hs]

/-- The words of the line that changes hands are in the memory. -/
theorem Coherent.fetched (hs : Sized size burstLength b n) {j t p : Nat}
    (h : Coherent size burstLength s mem spec (some j) fun _ => False)
    (hj : j < tagCount size burstLength) (hp : p < burstLength) :
    mem (lineBase size burstLength t j + p) = spec (lineBase size burstLength t j + p) := by
  refine h.memory _ ?_ not_false
  rintro ⟨j', p', hj', hne, -, -, hp', heq⟩
  obtain ⟨-, rfl, -⟩ := lineBase_inj hs hp hp' hj hj' heq
  exact hne rfl

/-! ### Cycles -/

/-- What stays in a cycle without a miss and without a store. -/
structure Kept (s s' : State) : Prop where
  doingRead : s'.doingRead = s.doingRead
  coreWrDataReg : s'.coreWrDataReg = s.coreWrDataReg
  coreByteEnReg : s'.coreByteEnReg = s.coreByteEnReg
  missIndexReg : s'.missIndexReg = s.missIndexReg
  tagMem : s'.tagMem = s.tagMem
  tagVMem : s'.tagVMem = s.tagVMem
  dirtyMem : s'.dirtyMem = s.dirtyMem
  memWrAddrReg : s'.memWrAddrReg = s.memWrAddrReg

theorem Kept.inDirty (h : Kept s s') (a : Nat) :
    InDirty size burstLength s' x a ↔ InDirty size burstLength s x a := by
  simp only [InDirty, h.tagMem, h.tagVMem, h.dirtyMem]

theorem Kept.coherent (h : Kept s s') (hmem : settled s' = settled s)
    (hcoh : Coherent size burstLength s mem spec x lost) :
    Coherent size burstLength s' mem spec x lost where
  line := by
    rw [h.tagVMem, h.tagMem, hmem]
    exact hcoh.line
  memory a hnot := by
    rw [h.inDirty] at hnot
    exact hcoh.memory a hnot
  dirty := by
    rw [h.dirtyMem, h.tagVMem]
    exact hcoh.dirty

/-- Neither a miss nor a store that hits. -/
theorem kept_of_noWrite (hmiss : miss size burstLength s i = false)
    (hstore : storeHit size burstLength s i = false) (hinv : i.invalidate = false)
    (herr : m.resp ≠ .err) : Kept s (next size burstLength s i m) := by
  constructor <;> simp [next, nextTagVMem, nextDirtyMem, MemBlock.write, hmiss, hstore, hinv, herr]

theorem miss_of_noCmd (hcmd : s.masterReg.cmd = .idle) : miss size burstLength s i = false := by
  simp [miss, hcmd]

theorem hit_of_noCmd (hcmd : s.masterReg.cmd = .idle) : hit size burstLength s i = false := by
  simp [hit, hcmd]

theorem storeHit_of_noStore (hcmd : s.masterReg.cmd ≠ .wr) :
    storeHit size burstLength s i = false := by
  simp [storeHit, stmsk, hcmd]

theorem storeHit_of_noCmd (hcmd : s.masterReg.cmd = .idle) :
    storeHit size burstLength s i = false := storeHit_of_noStore (by simp [hcmd])

theorem storeHit_of_miss (hmiss : miss size burstLength s i = true) :
    storeHit size burstLength s i = false := by
  simp only [miss, Bool.and_eq_true, Bool.not_eq_true'] at hmiss
  simp [storeHit, hmiss.1]

theorem written_of_noStore (hstore : storeHit size burstLength s i = false)
    (hlt : s.fillReg = true → s.wrAddrReg < size / 4) :
    written size burstLength s i = settled s := by
  have hnone : ∀ l, (tagValid size burstLength s i && stmsk s l) = false := by
    intro l
    cases htv : tagValid size burstLength s i with
    | false => rfl
    | true =>
      have hbe : stmsk s = noBytes := by simpa [storeHit, htv] using hstore
      rw [hbe]
      rfl
  rw [written, settled]
  simp only [hnone, Bool.or_false]
  cases hfill : s.fillReg with
  | false => exact MemBlock.writeBytes_noBytes ..
  | true =>
    have hall : (fun _ => true) = allBytes := rfl
    rw [hall, MemBlock.writeBytes_of_lt (hlt hfill), merge_all]
    rfl

/-- Without a beat and a store the data memories only settle. -/
theorem settled_next (hbeat : beat s m = false) (hstore : storeHit size burstLength s i = false)
    (hlt : s.fillReg = true → s.wrAddrReg < size / 4) :
    settled (next size burstLength s i m) = settled s := by
  rw [settled_of_noFill hbeat]
  exact written_of_noStore hstore hlt

/-- A command that is looked up, with the registers of its lookup. -/
structure Lookup (size burstLength : Nat) (s : State) : Prop where
  tagRd : s.tagRdAddrReg = lineIndex size burstLength s.masterReg.addr
  tagV : s.tagV = s.tagVMem (lineIndex size burstLength s.masterReg.addr)
  dirty : s.dirty = s.dirtyMem (lineIndex size burstLength s.masterReg.addr)
  rd : s.rdAddrReg = wordIndex size s.masterReg.addr
  wr : s.wrAddrReg = wordIndex size s.masterReg.addr
  data : s.wrDataReg = s.masterReg.data

section Look

variable (hs : Sized size burstLength b n) (hl : Lookup size burstLength s) {j : Nat}
  (hj : lineIndex size burstLength s.masterReg.addr = j)
include hs hl hj

theorem Lookup.tag : tag size burstLength s i = s.tagMem j := by
  rw [DirectMappedCacheWriteBack.tag, hl.tagRd, ← hj]
  exact MemBlock.read_of_lt (lineIndex_lt hs _) _

theorem Lookup.tagValid_iff : tagValid size burstLength s i = true ↔
    s.tagVMem j = true ∧ s.tagMem j = tagOf size s.masterReg.addr := by
  rw [tagValid, hl.tag hs hj, hl.tagV, hj, Bool.and_eq_true, beq_iff_eq]

omit hj in
theorem Lookup.rdData (hfill : s.fillReg = false)
    (hcoh : Coherent size burstLength s mem spec none lost)
    (hhit : tagValid size burstLength s i = true) :
    rdData size s i = spec (s.masterReg.addr / 4) := by
  obtain ⟨hvalid, htag⟩ := (hl.tagValid_iff hs rfl).mp hhit
  rw [DirectMappedCacheWriteBack.rdData, hl.rd, MemBlock.read_of_lt (wordIndex_lt hs _),
    ← settled_of_noFill hfill]
  exact hcoh.word hs rfl (by simp) hvalid htag

end Look

section Miss

variable (hs : Sized size burstLength b n) (hl : Lookup size burstLength s)
  (hcoh : Coherent size burstLength s mem spec none fun _ => False) (hfill : s.fillReg = false)

include hs in
/-- Without a miss, the command of this cycle is looked up in the next one. -/
theorem lookup_of_free (hmiss : miss size burstLength s i = false) (hfill : s.stateReg ≠ .fill)
    (hwrite : s.stateReg ≠ .write) (hinv : i.invalidate = false)
    (hmaster : (next size burstLength s i m).masterReg = i.master) :
    Lookup size burstLength (next size burstLength s i m) := by
  have hlt := lineIndex_lt hs i.master.addr
  constructor
  · rw [hmaster]
    rfl
  · rw [hmaster]
    simp [next, nextTagVMem, hmiss, hfill, hinv, vecRead, hlt]
  · rw [hmaster]
    -- the bit that a store sets in this cycle is read as set
    simp only [next, nextDirtyMem, hmiss, vecRead, hlt,
      vecWrite_of_lt (lineIndex_lt hs s.masterReg.addr)]
    cases storeHit size burstLength s i <;> simp [update_apply]
  · rw [hmaster]
    simp [next, rdAddr, selWrBack, evict, hmiss, hwrite]
  · rw [hmaster]
    simp [next, hfill]
  · rw [hmaster]
    simp [next, beat, hfill]

include hs hcoh in
/-- Bytes of a valid line are overwritten, and the line becomes dirty. -/
theorem Coherent.put {addr j : Nat} {be : ByteEn} {w : Word}
    (hj : lineIndex size burstLength addr = j) (hvalid : s.tagVMem j = true)
    (htag : s.tagMem j = tagOf size addr) (htags : s'.tagMem = s.tagMem)
    (hvalids : s'.tagVMem = s.tagVMem) (hdirty : s'.dirtyMem = update s.dirtyMem j true)
    (hmem : settled s' = update (settled s) (wordIndex size addr)
      (merge be w (settled s (wordIndex size addr)))) :
    Coherent size burstLength s' mem (spec.write (addr / 4) be w) none fun _ => False := by
  subst hj
  have hbase := addr_eq hs addr
  constructor
  · intro j p hj hv _ hp
    rw [hvalids] at hv
    rw [hmem, htags]
    by_cases hsame : j * burstLength + p = wordIndex size addr
    · have hpair := hsame
      rw [wordIndex_line hs] at hpair
      obtain ⟨rfl, rfl⟩ := MemBlock.line_add_inj hp (missIndex_lt hs _) hpair
      rw [hsame, update_self, hcoh.word hs rfl (by simp) hvalid htag, htag, ← hbase,
        Memory.write_self]
    · rw [update_of_ne hsame, hcoh.line j p hj hv (by simp) hp, Memory.write_of_ne]
      intro heq
      rw [hbase] at heq
      obtain ⟨-, rfl, rfl⟩ := lineBase_inj hs hp (missIndex_lt hs _) hj (lineIndex_lt hs _) heq
      exact hsame (wordIndex_line hs _).symm
  · intro a hnot _
    have hne : a ≠ addr / 4 := by
      intro ha
      apply hnot
      refine ⟨_, _, lineIndex_lt hs addr, by simp, ?_, ?_, missIndex_lt hs addr, ?_⟩
      · rw [hvalids]
        exact hvalid
      · rw [hdirty, update_self]
      · rw [htags, htag, ha]
        exact hbase
    rw [Memory.write_of_ne _ hne]
    refine hcoh.memory a ?_ not_false
    rintro ⟨j, p, hj, hx, hv, hd, hp, heq⟩
    refine hnot ⟨j, p, hj, hx, ?_, ?_, hp, ?_⟩
    · rw [hvalids]
      exact hv
    · rw [hdirty, update_apply]
      split
      · rfl
      · exact hd
    · rw [htags]
      exact heq
  · intro j hd
    rw [hvalids]
    rw [hdirty, update_apply] at hd
    split at hd
    · rename_i hj
      rw [hj]
      exact hvalid
    · exact hcoh.dirty j hd

include hs hl hcoh hfill in
theorem Coherent.store (hcmd : s.masterReg.cmd = .wr) (hhit : tagValid size burstLength s i = true)
    (hstate : s.stateReg ≠ .fill) (hinv : i.invalidate = false) (herr : m.resp ≠ .err) :
    Coherent size burstLength (next size burstLength s i m) mem (effect spec s.masterReg) none
      fun _ => False := by
  have hmiss : miss size burstLength s i = false := by simp [miss, hhit]
  have hbeat : beat s m = false := by simp [DirectMappedCacheWriteBack.beat, hstate]
  rw [effect, if_pos hcmd]
  by_cases hbe : s.masterReg.byteEn = noBytes
  · -- nothing is stored
    have hstore : storeHit size burstLength s i = false := by simp [storeHit, stmsk, hcmd, hbe]
    rw [hbe, Memory.write_noBytes]
    exact (kept_of_noWrite hmiss hstore hinv herr).coherent
      (settled_next hbeat hstore (by simp [hfill])) hcoh
  · have hstore : storeHit size burstLength s i = true := by simp [storeHit, stmsk, hcmd, hbe, hhit]
    obtain ⟨hvalid, htag⟩ := (hl.tagValid_iff hs rfl).mp hhit
    refine hcoh.put hs rfl hvalid htag ?_ ?_ ?_ ?_
    · simp [next, MemBlock.write, hmiss]
    · simp [next, nextTagVMem, hmiss, hinv, hstate]
    · simp [next, nextDirtyMem, hmiss, hstore, vecWrite_of_lt (lineIndex_lt hs _)]
    · rw [settled_of_noFill hbeat, settled_of_noFill hfill]
      change written size burstLength s i = _
      rw [written, hl.wr, hl.data, MemBlock.writeBytes_of_lt (wordIndex_lt hs _)]
      simp [hfill, hhit, stmsk, hcmd]

include hs hl hcoh hfill in
/-- A miss: the line is claimed for the new words, and the old ones may be lost. -/
theorem Coherent.miss {j : Nat} (hj : lineIndex size burstLength s.masterReg.addr = j)
    (hmiss : miss size burstLength s i = true) (hstate : s.stateReg ≠ .fill)
    (hinv : i.invalidate = false) (hs' : s' = next size burstLength s i m) :
    Coherent size burstLength s' mem spec (some j) fun a => s.dirty = true ∧
      ∃ p, p < burstLength ∧ a = lineBase size burstLength (s.tagMem j) j + p := by
  have hlt : j < tagCount size burstLength := hj ▸ lineIndex_lt hs _
  have hstore := storeHit_of_miss hmiss
  have hmem : settled s' = settled s := by
    rw [hs']
    exact settled_next (by simp [DirectMappedCacheWriteBack.beat, hstate]) hstore (by simp [hfill])
  have htags : s'.tagMem = update s.tagMem j (tagOf size s.masterReg.addr) := by
    simp [hs', next, MemBlock.write_of_lt hlt, hmiss, hj]
  have hvalids : s'.tagVMem = update s.tagVMem j true := by
    simp [hs', next, nextTagVMem, hmiss, hinv, hstate, vecWrite_of_lt hlt, hj]
  have hdirty : s'.dirtyMem = update s.dirtyMem j (s.masterReg.cmd == .wr) := by
    simp [hs', next, nextDirtyMem, hmiss, hstore, vecWrite_of_lt hlt, hj]
  constructor
  · intro j' p hj' hv hx hp
    have hne : j' ≠ j := fun h => hx (congrArg some h.symm)
    rw [hvalids, update_of_ne hne] at hv
    rw [hmem, htags, update_of_ne hne]
    exact hcoh.line j' p hj' hv (by simp) hp
  · intro a hnot hlost
    refine hcoh.memory a ?_ not_false
    rintro ⟨j', p, hj', -, hv, hd, hp, heq⟩
    by_cases hsame : j' = j
    · subst hsame
      rw [← hj] at hd
      exact hlost ⟨hl.dirty.trans hd, p, hp, heq⟩
    · refine hnot ⟨j', p, hj', fun h => hsame (Option.some.inj h).symm, ?_, ?_, hp, ?_⟩
      · rw [hvalids, update_of_ne hsame]
        exact hv
      · rw [hdirty, update_of_ne hsame]
        exact hd
      · rw [htags, update_of_ne hsame]
        exact heq
  · intro j hd
    rw [hvalids, update_apply]
    split
    · rfl
    · rename_i hne
      rw [hdirty, update_of_ne hne] at hd
      exact hcoh.dirty j hd

end Miss

theorem Coherent.mono {lost' : Nat → Prop} (hlost : ∀ a, lost a → lost' a)
    (hcoh : Coherent size burstLength s mem spec x lost) :
    Coherent size burstLength s mem spec x lost' where
  line := hcoh.line
  memory a hnot hkept := hcoh.memory a hnot fun h => hkept (hlost a h)
  dirty := hcoh.dirty

/-- One word of a dirty line goes back. -/
theorem Coherent.writeBack {j v k : Nat}
    (hcoh : Coherent size burstLength s mem spec (some j) fun a =>
      ∃ p, k ≤ p ∧ p < burstLength ∧ a = lineBase size burstLength v j + p) :
    Coherent size burstLength s
      (mem.write (lineBase size burstLength v j + k) allBytes
        (spec (lineBase size burstLength v j + k))) spec (some j) fun a =>
      ∃ p, k + 1 ≤ p ∧ p < burstLength ∧ a = lineBase size burstLength v j + p where
  line := hcoh.line
  memory := by
    intro a hnot hlost
    by_cases ha : a = lineBase size burstLength v j + k
    · rw [ha, Memory.write_self, merge_all]
    · rw [Memory.write_of_ne _ ha]
      refine hcoh.memory a hnot ?_
      rintro ⟨p, hk, hp, heq⟩
      refine hlost ⟨p, ?_, hp, heq⟩
      refine lt_of_le_of_ne hk ?_
      rintro rfl
      exact ha heq
  dirty := hcoh.dirty

/-- A word of the line that changes hands is written. -/
theorem Coherent.beat {j k : Nat} {w : Word} (hk : k < burstLength) (h : Kept s s')
    (hmem : settled s' = update (settled s) (j * burstLength + k) w)
    (hcoh : Coherent size burstLength s mem spec (some j) lost) :
    Coherent size burstLength s' mem spec (some j) lost where
  line := by
    intro j' p hj hv hx hp
    rw [h.tagVMem] at hv
    rw [hmem, h.tagMem, update_of_ne]
    · exact hcoh.line j' p hj hv hx hp
    · intro heq
      exact hx (congrArg some (MemBlock.line_add_inj hp hk heq).1.symm)
  memory a hnot := by
    rw [h.inDirty] at hnot
    exact hcoh.memory a hnot
  dirty := by
    rw [h.dirtyMem, h.tagVMem]
    exact hcoh.dirty

/-- The line of a command is complete. -/
theorem Coherent.filled (hs : Sized size burstLength b n) {q : CacheMaster} {j : Nat}
    (hj : lineIndex size burstLength q.addr = j)
    (hcoh : Coherent size burstLength s mem spec (some j) fun _ => False)
    (hvalid : s.tagVMem j = true) (htag : s.tagMem j = tagOf size q.addr)
    (hdirty : s.dirtyMem j = (q.cmd == .wr))
    (hwords : ∀ p, p < burstLength → settled s (j * burstLength + p) =
      effect spec q (lineBase size burstLength (tagOf size q.addr) j + p)) :
    Coherent size burstLength s mem (effect spec q) none fun _ => False where
  line := by
    intro j' p hj' hv _ hp
    by_cases hsame : j' = j
    · rw [hsame, htag]
      exact hwords p hp
    · rw [hcoh.line j' p hj' hv (fun h => hsame (Option.some.inj h).symm) hp, effect]
      split
      · rw [Memory.write_of_ne]
        intro heq
        rw [addr_eq hs] at heq
        exact hsame
          ((lineBase_inj hs hp (missIndex_lt hs _) hj' (lineIndex_lt hs _) heq).2.1.trans hj)
      · rfl
  memory := by
    intro a hnot _
    have hspec : mem a = spec a := by
      refine hcoh.memory a ?_ not_false
      rintro ⟨j, p, hj, -, hrest⟩
      exact hnot ⟨j, p, hj, by simp, hrest⟩
    rw [hspec, effect]
    split
    · rename_i hwr
      rw [Memory.write_of_ne]
      intro ha
      subst hj
      refine hnot ⟨_, _, lineIndex_lt hs q.addr, by simp, hvalid, ?_, missIndex_lt hs q.addr, ?_⟩
      · rw [hdirty, hwr]
        rfl
      · rw [htag, ha]
        exact addr_eq hs q.addr
    · rfl
  dirty := hcoh.dirty

end Lines

end Patmos.DirectMappedCacheWriteBack
