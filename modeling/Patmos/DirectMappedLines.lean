import Patmos.DirectMappedCache

/-!
# Coherence of the cache lines

A line is coherent with a memory when its words are the words of that memory at the
address given by its tag.  The data memories lag one cycle behind the registers of the
write port, so coherence is stated for the memories after the write of the cycle.

Each kind of cycle has an equation for the next state and a lemma that says which lines
are coherent after it: a free cycle, in which a new command is registered, the start of a
miss, a cycle that waits for the command to be accepted, and a cycle of a fill.
-/

namespace Patmos.DirectMappedCache

open Ocp
open Function (update update_of_ne update_self)

/-- All valid lines but `x` are coherent with `mem`. -/
def Coherent (size burstLength : Nat) (s : State) (mem : Memory) (x : Option Nat) : Prop :=
  ∀ i j p, j < tagCount size burstLength → s.tagVMem j = true → x ≠ some j → p < burstLength →
    written size burstLength s i (j * burstLength + p) =
      mem (lineBase size burstLength (s.tagMem j) j + p)

variable {size burstLength b : Nat} {s : State} {i : Inputs} {m : BurstSlave} {mem : Memory}

theorem written_of_noWrite (hfill : s.fillReg = false) (hcmd : s.masterReg.cmd ≠ .wr) :
    written size burstLength s i = s.mem := by
  have hen : (fun l => s.fillReg || (tagValid size burstLength s i && stmsk s l)) = noBytes := by
    funext l
    simp [hfill, stmsk, hcmd, noBytes]
  rw [written, hen, MemBlock.writeBytes_noBytes]

theorem written_of_fill (hfill : s.fillReg = true) (hlt : s.wrAddrReg < size / 4) :
    written size burstLength s i = update s.mem s.wrAddrReg s.wrDataReg := by
  have hen : (fun l => s.fillReg || (tagValid size burstLength s i && stmsk s l)) = allBytes := by
    funext l
    simp [hfill, allBytes]
  rw [written, hen, MemBlock.writeBytes_of_lt hlt, merge_all]

/-- A word that the write port does not select. -/
theorem written_of_ne {a : Nat} (hsize : size / 4 ≠ 1) (hne : a ≠ s.wrAddrReg) :
    written size burstLength s i a = s.mem a :=
  MemBlock.writeBytes_of_ne hsize hne _ _ _

/-- There are no valid bits outside. -/
theorem tagVMem_outside (h : ∀ j, tagCount size burstLength ≤ j → s.tagVMem j = false) {j : Nat}
    (hj : tagCount size burstLength ≤ j) : (next size burstLength s i m).tagVMem j = false := by
  change nextTagVMem size burstLength s i m j = false
  unfold nextTagVMem
  cases i.invalidate
  · by_cases herr : s.stateReg = .fill ∧ m.resp = .err <;>
      cases miss size burstLength s i <;> simp [herr, vecWrite_of_le hj, h j hj]
  · rfl

theorem miss_of_cmd (hcmd : s.masterReg.cmd ≠ .rd) : miss size burstLength s i = false := by
  simp [miss, hcmd]

theorem hit_of_cmd (hcmd : s.masterReg.cmd ≠ .rd) : hit size burstLength s i = false := by
  simp [hit, hcmd]

theorem tagCount_le_sets (hb : 1 ≤ b) (hB : burstLength = 2 ^ b)
    (hn : 0 < tagCount size burstLength) :
    tagCount size burstLength ≤ sets size burstLength := by
  have hpos : 0 < burstLength := by rw [hB]; positivity
  have hlast : (tagCount size burstLength - 1) * burstLength + 0 < size / 4 :=
    word_lt (by omega) hpos
  have hle := hlast.trans_le (le_pow_addrBits size)
  rw [pow_addrBits hb hB hn, add_zero] at hle
  have := Nat.lt_of_mul_lt_mul_right hle
  omega

theorem lineIndex_lt_sets (addr : Nat) : lineIndex size burstLength addr < sets size burstLength :=
  Nat.mod_lt _ (Nat.two_pow_pos _)

/-- A cache that has a line has more than one word. -/
theorem words_ne_one (hb : 1 ≤ b) (hB : burstLength = 2 ^ b) {j : Nat}
    (hj : j < tagCount size burstLength) : size / 4 ≠ 1 := by
  have htwo : 2 ≤ burstLength := by
    rw [hB]
    exact Nat.le_self_pow (by omega) 2
  have hword : j * burstLength + 1 < size / 4 := word_lt hj (by omega)
  omega

/-- The state after a cycle in which only the inputs are registered. -/
abbrev registered (size burstLength : Nat) (s : State) (i : Inputs) : State where
  masterReg := i.master
  tagMem := s.tagMem
  tagRdAddrReg := lineIndex size burstLength i.master.addr
  tagVMem := if i.invalidate then fun _ => false else s.tagVMem
  tagV := vecRead (tagCount size burstLength) s.tagVMem (lineIndex size burstLength i.master.addr)
  mem := written size burstLength s i
  rdAddrReg := wordIndex size i.master.addr
  fillReg := false
  wrAddrReg := wordIndex size i.master.addr
  wrDataReg := i.master.data
  stateReg := .idle
  burstCntReg := s.burstCntReg
  missIndexReg := s.missIndexReg
  slaveReg := s.slaveReg

/-! ### Free cycles -/

/-- A cycle in which the cache has nothing to do but register the next command. -/
structure FreeCycle (size burstLength : Nat) (s : State) (i : Inputs) : Prop where
  state : s.stateReg = .idle ∨ s.stateReg = .respond
  noMiss : miss size burstLength s i = false

section Free

variable (h : FreeCycle size burstLength s i)
include h

theorem next_of_free : next size burstLength s i m = registered size burstLength s i := by
  rcases h.state with hst | hst
  · simp [next, nextState, nextTagVMem, beat, MemBlock.write, hst, h.noMiss]
  · simp [next, nextState, nextTagVMem, beat, MemBlock.write, hst, h.noMiss]

theorem tagVMem_of_free {j : Nat} (hj : (next size burstLength s i m).tagVMem j = true) :
    s.tagVMem j = true := by
  rw [next_of_free h] at hj
  cases hinv : i.invalidate <;> simp [hinv] at hj
  exact hj

theorem Coherent.free (hcoh : Coherent size burstLength s mem none) (hcmd : i.master.cmd ≠ .wr) :
    Coherent size burstLength (next size burstLength s i m) mem none := by
  intro i' j p hj hv _ hp
  have hv' := tagVMem_of_free h hv
  have hw : written size burstLength (next size burstLength s i m) i' =
      written size burstLength s i := by
    rw [written_of_noWrite]
    · rw [next_of_free h]
    · rw [next_of_free h]
    · rw [next_of_free h]
      exact hcmd
  have htag : (next size burstLength s i m).tagMem = s.tagMem := by rw [next_of_free h]
  rw [hw, htag]
  exact hcoh i j p hj hv' (by simp) hp

/-- The lookup of a load that was registered in a free cycle. -/
theorem Coherent.lookup (hcoh : Coherent size burstLength s mem none)
    (hin : lineIndex size burstLength i.master.addr < tagCount size burstLength)
    (hv : (next size burstLength s i m).tagV = true) {p : Nat} (hp : p < burstLength) :
    (next size burstLength s i m).mem (lineIndex size burstLength i.master.addr * burstLength + p) =
      mem (lineBase size burstLength
        ((next size burstLength s i m).tagMem (lineIndex size burstLength i.master.addr))
        (lineIndex size burstLength i.master.addr) + p) := by
  rw [next_of_free h] at hv ⊢
  simp only [vecRead, hin, if_true] at hv
  exact hcoh i _ p hin hv (by simp) hp

/-- A store that was registered in a free cycle is in the caches with the next write. -/
theorem Coherent.store (hb : 1 ≤ b) (hB : burstLength = 2 ^ b)
    (hcoh : Coherent size burstLength s mem none) (hcmd : i.master.cmd = .wr) :
    Coherent size burstLength (next size burstLength s i m)
      (mem.write (i.master.addr / 4) i.master.byteEn i.master.data) none := by
  intro i' j p hj hv _ hp
  have hn : 0 < tagCount size burstLength := by omega
  have hsets := tagCount_le_sets hb hB hn
  have hold := hcoh i j p hj (tagVMem_of_free h hv) (by simp) hp
  have hv' := tagVMem_of_free h hv
  have hpos : i.master.addr / 4 % burstLength < burstLength := Nat.mod_lt _ (by omega)
  have haddr := lineBase_add hb hB hn i.master.addr
  have htag : (next size burstLength s i m).tagMem = s.tagMem := by rw [next_of_free h]
  rw [htag]
  by_cases hsame : j * burstLength + p = wordIndex size i.master.addr
  · -- the word that the store is looked up at; its line is one that the cache has
    have hij := hsame
    rw [wordIndex_eq hb hB hn] at hij
    obtain ⟨rfl, rfl⟩ := MemBlock.line_add_inj hp hpos hij
    have hword : wordIndex size i.master.addr < size / 4 := hsame ▸ word_lt hj hpos
    have hw : written size burstLength (next size burstLength s i m) i' =
        update (written size burstLength s i) (wordIndex size i.master.addr)
          (merge (fun l => tagValid size burstLength (next size burstLength s i m) i' &&
              i.master.byteEn l) i.master.data
            (written size burstLength s i (wordIndex size i.master.addr))) := by
      rw [written, next_of_free h, MemBlock.writeBytes_of_lt hword]
      simp only [stmsk, hcmd, if_true, Bool.false_or]
    have htv : tagValid size burstLength (next size burstLength s i m) i' =
        (s.tagVMem (lineIndex size burstLength i.master.addr) &&
          s.tagMem (lineIndex size burstLength i.master.addr) == tagOf size i.master.addr) := by
      rw [next_of_free h]
      simp [tagValid, tag, vecRead, MemBlock.read_of_lt, hj]
    rw [hw, ← hsame, update_self, htv, hv', hold]
    by_cases hhit : s.tagMem (lineIndex size burstLength i.master.addr) = tagOf size i.master.addr
    · rw [hhit, haddr, Memory.write_self]
      simp
    · have hne : lineBase size burstLength (s.tagMem (lineIndex size burstLength i.master.addr))
          (lineIndex size burstLength i.master.addr) + i.master.addr / 4 % burstLength ≠
          i.master.addr / 4 := by
        intro heq
        rw [← haddr] at heq
        refine hhit (lineBase_inj hpos hpos (hj.trans_le hsets) (hj.trans_le hsets) ?_).1
        simpa only [haddr] using heq
      rw [Memory.write_of_ne _ hne]
      have hoff : (true && s.tagMem (lineIndex size burstLength i.master.addr) ==
          tagOf size i.master.addr) = false := by simpa using hhit
      rw [hoff]
      exact merge_none _ _
  · rw [written_of_ne (words_ne_one hb hB hj) (by rw [next_of_free h]; exact hsame),
      next_of_free h]
    refine hold.trans (Memory.write_of_ne _ ?_ _ _).symm
    intro heq
    rw [← haddr] at heq
    have := lineBase_inj hp hpos (hj.trans_le hsets) (lineIndex_lt_sets _) heq
    obtain ⟨-, rfl, rfl⟩ := this
    exact hsame (wordIndex_eq hb hB hn _).symm

end Free

/-! ### Misses -/

/-- The lookup fails: the line is claimed and requested. -/
theorem next_of_miss (hst : s.stateReg = .idle) (hmiss : miss size burstLength s i = true) :
    next size burstLength s i m =
      { registered size burstLength s i with
        masterReg := { i.master with addr := s.masterReg.addr }
        tagMem := MemBlock.write (tagCount size burstLength) s.tagMem true
          (lineIndex size burstLength s.masterReg.addr) (tagOf size s.masterReg.addr)
        tagVMem := if i.invalidate then fun _ => false else
          vecWrite (tagCount size burstLength) s.tagVMem
            (lineIndex size burstLength s.masterReg.addr) true
        stateReg := if m.cmdAccept then .fill else .hold
        missIndexReg := missIndex burstLength s.masterReg.addr %
          2 ^ missIndexBits burstLength } := by
  simp [next, nextState, nextTagVMem, beat, hst, hmiss]

theorem Coherent.miss (hcoh : Coherent size burstLength s mem none) (hst : s.stateReg = .idle)
    (hmiss : miss size burstLength s i = true) (hcmd : i.master.cmd ≠ .wr)
    (hclaim : MemBlock.truncateIndex (tagCount size burstLength)
      (lineIndex size burstLength s.masterReg.addr) = lineIndex size burstLength s.masterReg.addr) :
    Coherent size burstLength (next size burstLength s i m) mem
      (some (lineIndex size burstLength s.masterReg.addr)) := by
  intro i' j p hj hv hne hp
  have hne' : j ≠ lineIndex size burstLength s.masterReg.addr := fun h => hne (congrArg some h.symm)
  rw [next_of_miss hst hmiss] at hv ⊢
  have hv' : s.tagVMem j = true := by
    cases hinv : i.invalidate
    · simpa only [hinv, Bool.false_eq_true, if_false, vecWrite_of_ne hclaim hne'] using hv
    · simp [hinv] at hv
  rw [written_of_noWrite rfl hcmd]
  simp only [MemBlock.write_of_ne hclaim hne']
  exact hcoh i j p hj hv' (by simp) hp

theorem next_of_hold (hst : s.stateReg = .hold) (hcmd : s.masterReg.cmd ≠ .rd) :
    next size burstLength s i m =
      { registered size burstLength s i with
        masterReg := { i.master with addr := s.masterReg.addr }
        stateReg := if m.cmdAccept then .fill else .hold } := by
  simp [next, nextState, nextTagVMem, beat, MemBlock.write, hst, miss_of_cmd hcmd]

theorem Coherent.hold {x : Option Nat} (hcoh : Coherent size burstLength s mem x)
    (hst : s.stateReg = .hold) (hcmd : s.masterReg.cmd ≠ .rd) (hcmd' : i.master.cmd ≠ .wr) :
    Coherent size burstLength (next size burstLength s i m) mem x := by
  intro i' j p hj hv hne hp
  rw [next_of_hold hst hcmd] at hv ⊢
  have hv' : s.tagVMem j = true := by
    cases hinv : i.invalidate <;> simp [hinv] at hv
    exact hv
  rw [written_of_noWrite rfl hcmd']
  exact hcoh i j p hj hv' hne hp

/-! ### Fills -/

variable {j : Nat} (hst : s.stateReg = .fill) (hcmd : s.masterReg.cmd ≠ .rd)
include hst hcmd

theorem next_of_fill :
    next size burstLength s i m =
      { registered size burstLength s i with
        masterReg := { i.master with addr := s.masterReg.addr }
        tagVMem := if i.invalidate then fun _ => false else
          if m.resp = .err then
            vecWrite (tagCount size burstLength) s.tagVMem
              (lineIndex size burstLength s.masterReg.addr) false
          else s.tagVMem
        fillReg := m.resp != .null
        wrAddrReg := lineIndex size burstLength s.masterReg.addr * 2 ^ (lineBits burstLength - 2) +
          s.burstCntReg
        wrDataReg := if m.resp != .null then m.data else i.master.data
        stateReg := if m.resp != .null && s.burstCntReg == burstLength - 1 then .respond else .fill
        burstCntReg := if m.resp != .null then
            (s.burstCntReg + 1) % 2 ^ (lineBits burstLength - 2)
          else s.burstCntReg
        slaveReg := if m.resp != .null && s.burstCntReg == s.missIndexReg then ⟨m.resp, m.data⟩
          else s.slaveReg } := by
  simp [next, nextState, nextTagVMem, beat, MemBlock.write, hst, miss_of_cmd hcmd]

theorem tagVMem_of_fill (hv : (next size burstLength s i m).tagVMem j = true) :
    s.tagVMem j = true := by
  rw [next_of_fill hst hcmd] at hv
  cases hinv : i.invalidate
  · by_cases herr : m.resp = .err
    · simp only [hinv, herr, Bool.false_eq_true, if_false, if_true, vecWrite] at hv
      split at hv
      · by_cases hj : j = MemBlock.truncateIndex (tagCount size burstLength)
            (lineIndex size burstLength s.masterReg.addr)
        · rw [hj, update_self] at hv
          exact absurd hv (by simp)
        · rwa [update_of_ne hj] at hv
      · exact hv
    · simpa [hinv, herr] using hv
  · simp [hinv] at hv

/-- A beat with an error clears the valid bit of the line, whatever else happens. -/
theorem tagVMem_of_err
    (hin : lineIndex size burstLength s.masterReg.addr < tagCount size burstLength)
    (herr : m.resp = .err) :
    (next size burstLength s i m).tagVMem (lineIndex size burstLength s.masterReg.addr) =
      false := by
  rw [next_of_fill hst hcmd]
  cases hinv : i.invalidate
  · simp [herr, vecWrite_of_lt hin]
  · simp

/-- The data memories with the write of the cycle after a cycle of a fill. -/
theorem written_next_of_fill (hb : 1 ≤ b) (hB : burstLength = 2 ^ b) (hcmd' : i.master.cmd ≠ .wr)
    (hin : lineIndex size burstLength s.masterReg.addr < tagCount size burstLength)
    (hcnt : s.burstCntReg < burstLength) (i' : Inputs) :
    written size burstLength (next size burstLength s i m) i' =
      if m.resp = .null then written size burstLength s i
      else update (written size burstLength s i)
        (lineIndex size burstLength s.masterReg.addr * burstLength + s.burstCntReg) m.data := by
  by_cases hnull : m.resp = .null
  · rw [if_pos hnull, written_of_noWrite]
    · rw [next_of_fill hst hcmd]
    · rw [next_of_fill hst hcmd]
      simp [hnull]
    · rw [next_of_fill hst hcmd]
      exact hcmd'
  · have hne : (m.resp != .null) = true := by simpa using hnull
    rw [if_neg hnull, written_of_fill]
    · rw [next_of_fill hst hcmd]
      simp only [hne, if_true, lineWords_eq hb hB]
    · rw [next_of_fill hst hcmd]
      exact hne
    · rw [next_of_fill hst hcmd]
      simp only [lineWords_eq hb hB]
      exact word_lt hin hcnt

/-- A beat leaves the words of the other lines alone. -/
theorem Coherent.fill (hb : 1 ≤ b) (hB : burstLength = 2 ^ b)
    (hcoh : Coherent size burstLength s mem (some (lineIndex size burstLength s.masterReg.addr)))
    (hcnt : s.burstCntReg < burstLength) :
    Coherent size burstLength (next size burstLength s i m) mem
      (some (lineIndex size burstLength s.masterReg.addr)) := by
  intro i' j p hj hv hne hp
  have hold := hcoh i j p hj (tagVMem_of_fill hst hcmd hv) hne hp
  have hother : j * burstLength + p ≠ (next size burstLength s i m).wrAddrReg := by
    rw [next_of_fill hst hcmd]
    simp only [lineWords_eq hb hB]
    intro heq
    exact hne (congrArg some (MemBlock.line_add_inj hp hcnt heq).1.symm)
  rw [written_of_ne (words_ne_one hb hB hj) hother, next_of_fill hst hcmd]
  exact hold

end Patmos.DirectMappedCache
