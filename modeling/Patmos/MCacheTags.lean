import Mathlib.Algebra.BigOperators.Intervals
import Patmos.MCache

/-!
# The tags of the method cache

Nothing writes the registers behind the tag vectors, so that a tag lasts for the one cycle in
which it is written.  The tag write also reads back the size that it has just driven, and the free
space does not change.  No space is ever freed, a lookup finds a method only in the very cycle in
which its tag is written, and the position of a method is always the next free one.
-/

namespace Patmos.MCache

open Clocked
open Function (update)

theorem tagAfter_lt {methodCount i : Nat} (h : i < methodCount) :
    tagAfter methodCount i < methodCount := by
  unfold tagAfter
  split <;> omega

theorem wrapSpace_size (sizeWidth : Nat) : wrapSpace sizeWidth (2 ^ sizeWidth) = 2 ^ sizeWidth := by
  have hpos : 0 < 2 ^ sizeWidth := Nat.two_pow_pos sizeWidth
  have hpow : 2 ^ (sizeWidth + 2) = 4 * 2 ^ sizeWidth := by rw [pow_add, mul_comm]; rfl
  have hcast : ((2 : Int) ^ sizeWidth) = ((2 ^ sizeWidth : Nat) : Int) := by push_cast; rfl
  rw [wrapSpace, hcast]
  refine Int.bmod_eq_of_le ?_ ?_ <;> omega

namespace Repl

/-- What reset leaves in the unit and no cycle changes. -/
structure Blank (sizeWidth methodCount : Nat) (r : Repl) : Prop where
  sizeRegs : ∀ i, r.sizeRegs i = 0
  validRegs : ∀ i, r.validRegs i = false
  freeSpaceReg : r.freeSpaceReg = 2 ^ sizeWidth
  nextIndexReg : r.nextIndexReg < methodCount

namespace Blank

variable {sizeWidth methodCount : Nat} {r : Repl} {w : Option TagWrite} {invalidate : Bool}
  {base : Nat}

theorem of_reset {s : State} (hN : 0 < methodCount) (h : IsReset sizeWidth s) :
    Blank sizeWidth methodCount s.repl :=
  ⟨h.sizeRegs, h.validRegs, h.freeSpaceReg, by rw [h.nextIndexReg]; exact hN⟩

variable (h : Blank sizeWidth methodCount r)
include h

theorem freeing : r.freeing = false := by
  rw [Repl.freeing, h.freeSpaceReg, decide_eq_false_iff_not, Int.not_lt]
  exact Int.pow_nonneg (by decide)

/-! ### The vectors in a cycle -/

theorem sizeVec_none : r.sizeVec none = fun _ => 0 := by
  funext i
  simp [sizeVec, h.freeing, h.sizeRegs]

theorem sizeVec_some (t : TagWrite) :
    r.sizeVec (some t) = update (fun _ => 0) r.nextIndexReg t.size := by
  have hzero : r.sizeRegs = fun _ => 0 := funext h.sizeRegs
  simp [sizeVec, h.freeing, hzero]

theorem validVec_eq_true_iff {i : Nat} : r.validVec w invalidate i = true ↔
    invalidate = false ∧ w.isSome = true ∧ i = r.nextIndexReg := by
  have hzero : r.validRegs = fun _ => false := funext h.validRegs
  cases invalidate <;> cases w <;> simp [validVec, h.freeing, hzero, Function.update_apply]

theorem hitVec_eq_true_iff {i : Nat} : r.hitVec w invalidate base i = true ↔
    invalidate = false ∧ i = r.nextIndexReg ∧ ∃ t ∈ w, base = t.addr := by
  rw [hitVec, Bool.and_eq_true, decide_eq_true_eq, h.validVec_eq_true_iff]
  cases w with
  | none => simp
  | some t =>
    constructor
    · rintro ⟨hbase, hkeep, -, rfl⟩
      exact ⟨hkeep, rfl, t, rfl, hbase.trans (Function.update_self _ _ _)⟩
    · rintro ⟨hkeep, rfl, t, ⟨rfl⟩, hbase⟩
      refine ⟨?_, hkeep, rfl, rfl⟩
      rw [hbase, addrVec, Function.update_self]

/-- A lookup hits only in the cycle in which the tag of the method is written. -/
theorem hit_eq_true_iff : r.hit methodCount w invalidate base = true ↔
    invalidate = false ∧ ∃ t ∈ w, base = t.addr := by
  rw [hit, List.any_eq_true]
  constructor
  · rintro ⟨i, -, hvec⟩
    obtain ⟨hkeep, -, htag⟩ := h.hitVec_eq_true_iff.mp hvec
    exact ⟨hkeep, htag⟩
  · rintro ⟨hkeep, htag⟩
    exact ⟨⟨r.nextIndexReg, h.nextIndexReg⟩, List.mem_finRange _,
      h.hitVec_eq_true_iff.mpr ⟨hkeep, rfl, htag⟩⟩

theorem hit_of_noTag : r.hit methodCount none invalidate base = false := by
  rw [Bool.eq_false_iff]
  intro hhit
  obtain ⟨-, t, hmem, -⟩ := h.hit_eq_true_iff.mp hhit
  cases hmem

/-- The position of a method that is found is the next free one, as that of a method that is
    not. -/
theorem pos_eq : r.pos methodCount w invalidate base = r.nextPosReg := by
  rw [pos]
  split
  · rename_i hhit
    obtain ⟨hkeep, htag⟩ := h.hit_eq_true_iff.mp hhit
    have hsome : w.isSome = true := by
      obtain ⟨t, ⟨rfl⟩, -⟩ := htag
      rfl
    have hvec : r.hitVec w invalidate base r.nextIndexReg = true :=
      h.hitVec_eq_true_iff.mpr ⟨hkeep, rfl, htag⟩
    have hone : ∀ j : Fin methodCount, j ≠ ⟨r.nextIndexReg, h.nextIndexReg⟩ →
        r.mergePosVec w invalidate base j = 0 := by
      intro j hj
      refine if_neg fun hother => hj (Fin.ext ?_)
      exact (h.hitVec_eq_true_iff.mp hother).2.1
    rw [Select.foldl_of_one (fun a => Nat.zero_or a) (fun a => Nat.or_zero a) hone]
    change r.mergePosVec w invalidate base r.nextIndexReg = _
    rw [mergePosVec, if_pos hvec, posVec, if_pos hsome, Function.update_self]
  · rfl

/-! ### One cycle -/

/-- The tag write takes off the size that it adds. -/
theorem freeSpaceNext_eq : r.freeSpaceNext sizeWidth w = 2 ^ sizeWidth := by
  unfold freeSpaceNext
  rw [h.freeing, if_neg Bool.false_ne_true]
  cases w with
  | none => exact h.freeSpaceReg
  | some t =>
    have hback : r.sizeVec (some t) r.nextIndexReg = t.size := by
      rw [h.sizeVec_some, Function.update_self]
    dsimp only
    rw [hback, sub_add_cancel, h.freeSpaceReg, wrapSpace_size]

theorem next (i : Inputs) :
    Blank sizeWidth methodCount (r.next sizeWidth methodCount w i invalidate) where
  sizeRegs := h.sizeRegs
  validRegs := h.validRegs
  freeSpaceReg := h.freeSpaceNext_eq
  nextIndexReg := by
    change (if w.isSome then tagAfter methodCount r.nextIndexReg else r.nextIndexReg) < _
    split
    · exact tagAfter_lt h.nextIndexReg
    · exact h.nextIndexReg

end Blank

/-! ### The bookkeeping -/

/-- A cycle of the unit: the tag that the controller writes, the call or return, and the invalidate
    signal. -/
structure Cycle where
  tag : Option TagWrite
  call : Inputs
  invalidate : Bool

section Bookkeeping

variable (sizeWidth methodCount : Nat)

def cycle (r : Repl) (c : Cycle) : Repl :=
  r.next sizeWidth methodCount c.tag c.call c.invalidate

/-- A tag is written when the last eviction is over, for a method of an even number of words that
    fits into the cache. -/
def Writes (r : Repl) (c : Cycle) : Prop :=
  ∀ w ∈ c.tag, r.freeing = false ∧ w.size % 2 = 0 ∧ 2 ≤ w.size ∧ w.size ≤ 2 ^ sizeWidth

/-- In a cycle, the free space is what the methods leave, an eviction is over after fewer cycles
    than there are tags, and when there is none no word of the cache is in two methods. -/
structure Exact (r : Repl) (c : Cycle) : Prop where
  space : r.freeSpaceReg = 2 ^ sizeWidth - (∑ j ∈ Finset.range methodCount, r.sizeVec c.tag j : Nat)
  done : ∀ q, Along (cycle sizeWidth methodCount)
    (fun r c => Writes sizeWidth r c ∧ r.freeing = true)
    r q → q.length < methodCount
  apart : r.freeing = false → ∀ i < methodCount, ∀ j < methodCount, i ≠ j →
    ∀ a < r.sizeVec c.tag i, ∀ b < r.sizeVec c.tag j,
      (r.posVec c.tag i + a) % 2 ^ sizeWidth ≠ (r.posVec c.tag j + b) % 2 ^ sizeWidth

end Bookkeeping

variable {sizeWidth methodCount : Nat} {r : Repl} {c : Cycle}

/-- The sizes show the method whose tag is being written, and no other. -/
theorem Blank.sum_sizeVec (h : Blank sizeWidth methodCount r) (w : Option TagWrite) :
    ∑ j ∈ Finset.range methodCount, r.sizeVec w j = (w.map TagWrite.size).getD 0 := by
  cases w with
  | none => simp [h.sizeVec_none]
  | some t =>
    rw [h.sizeVec_some, Finset.sum_update_of_mem (Finset.mem_range.mpr h.nextIndexReg)]
    simp

theorem Blank.done (h : Blank sizeWidth methodCount r) (q : List Cycle)
    (hq : Along (cycle sizeWidth methodCount) (fun r c => Writes sizeWidth r c ∧ r.freeing = true)
      r q) : q.length < methodCount := by
  cases q with
  | nil => exact lt_of_le_of_lt (Nat.zero_le _) h.nextIndexReg
  | cons c q =>
    have hfree := hq.1.2
    rw [h.freeing] at hfree
    cases hfree

/-- There are not two entries with words. -/
theorem Blank.apart (h : Blank sizeWidth methodCount r) {w : Option TagWrite} {i j a b : Nat}
    (hij : i ≠ j) (ha : a < r.sizeVec w i) (hb : b < r.sizeVec w j) : False := by
  have hindex : ∀ {k x}, x < r.sizeVec w k → k = r.nextIndexReg := by
    intro k x hx
    cases w with
    | none =>
      rw [h.sizeVec_none] at hx
      exact absurd hx (Nat.not_lt_zero x)
    | some t =>
      by_contra hne
      rw [h.sizeVec_some, Function.update_of_ne hne] at hx
      exact absurd hx (Nat.not_lt_zero x)
  exact hij ((hindex ha).trans (hindex hb).symm)

/-- **The bookkeeping of a cycle** is exact if and only if no tag is written in it: the entry of
    the new tag shows its size, and the free space does not. -/
theorem exact_iff_noTag (hN : 0 < methodCount) {s : State} (hs : IsReset sizeWidth s)
    {cs : List Cycle}
    (hrun : Along (cycle sizeWidth methodCount) (Writes sizeWidth) s.repl (cs ++ [c])) :
    Exact sizeWidth methodCount (run (cycle sizeWidth methodCount) s.repl cs) c ↔ c.tag = none := by
  obtain ⟨hcs, hwrites⟩ := (along_concat s.repl cs c).mp hrun
  have h : Blank sizeWidth methodCount (run (cycle sizeWidth methodCount) s.repl cs) :=
    inv_run (fun _ c h _ => h.next c.call) (.of_reset hN hs) hcs
  constructor
  · intro hexact
    have hspace := hexact.space
    rw [h.freeSpaceReg, h.sum_sizeVec] at hspace
    cases htag : c.tag with
    | none => rfl
    | some t =>
      have htwo : 2 ≤ t.size := (hwrites t htag).2.2.1
      have hzero : ((c.tag.map TagWrite.size).getD 0 : Int) = 0 := by omega
      rw [htag] at hzero
      exact absurd (Int.ofNat_eq_zero.mp hzero) (Nat.ne_of_gt (by omega : 0 < t.size))
  · intro hnone
    refine ⟨?_, h.done, fun _ i _ j _ hij a ha b hb => (h.apart hij ha hb).elim⟩
    rw [h.freeSpaceReg, h.sum_sizeVec, hnone]
    simp

instance (sizeWidth : Nat) (r : Repl) (c : Cycle) : Decidable (Writes sizeWidth r c) :=
  inferInstanceAs (Decidable (∀ w ∈ c.tag, _))

/-- A cycle in which the tag of a method of this size is written, and none for size zero. -/
def store (size : Nat) : Cycle :=
  ⟨if size = 0 then none else some ⟨0, size⟩, ⟨false, 0, true, false⟩, false⟩

theorem store_exact :
    (run (cycle 3 2) (powerUp 3).repl [store 4, store 6, store 8]).nextPosReg = 2 ∧
      Exact 3 2 (run (cycle 3 2) (powerUp 3).repl [store 4, store 6, store 8]) (store 0) :=
  ⟨by decide, (exact_iff_noTag (by decide) (powerUp_isReset 3) (by decide)).mpr rfl⟩

/-- In the cycle in which the tag of a method of two words is written, its entry has the two words
    and all eight are free; in the next cycle the entry is gone. -/
theorem store_not_exact :
    Along (cycle 3 2) (Writes 3) (powerUp 3).repl [store 2] ∧
      (powerUp 3).repl.sizeVec (store 2).tag 0 = 2 ∧ (powerUp 3).repl.freeSpaceReg = 8 ∧
      ¬ Exact 3 2 (powerUp 3).repl (store 2) ∧
      ((powerUp 3).repl.cycle 3 2 (store 2)).sizeVec (store 0).tag 0 = 0 ∧
      ((powerUp 3).repl.cycle 3 2 (store 2)).freeSpaceReg = 8 := by
  refine ⟨by decide, by decide, by decide, ?_, by decide, by decide⟩
  intro h
  exact absurd h.space (by decide)

end Repl

end Patmos.MCache
