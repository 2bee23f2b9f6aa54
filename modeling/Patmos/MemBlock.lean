import Patmos.Ocp
import Mathlib.Data.Nat.Log

/-!
# On-chip memory blocks

`MemBlock` keeps `size` entries behind one read port with a registered address and one
write port.  The memory is read at the registered address, after the write of the cycle
before, so that a read during a write returns the new data with and without `bypass`.
The address has `log2Up(size)` bits, at least one.  A memory of a single entry has no use
for that bit and ignores it.  Otherwise the address may lie outside the block when `size` is
not a power of two: such a write has no effect and such a read returns anything.
-/

namespace Patmos.MemBlock

/-- The number of address bits of a block of `n` entries. -/
def log2Up (n : Nat) : Nat := max 1 (Nat.clog 2 n)

/-- `log2Down`, which is at least one as well. -/
def log2Down (n : Nat) : Nat := max 1 (Nat.log 2 n)

variable {α : Type}

/-- The entry that an index selects: `Vec` and `Mem` cut the index to the bits that tell their
    entries apart, and there is no such bit with a single entry. -/
def truncateIndex (size i : Nat) : Nat := if size = 1 then 0 else i

/-- The write port. -/
def write (size : Nat) (mem : Nat → α) (ena : Bool) (wrAddr : Nat) (wrData : α) : Nat → α :=
  if ena && decide (truncateIndex size wrAddr < size) then
    Function.update mem (truncateIndex size wrAddr) wrData
  else mem

/-- The read port at a registered address. -/
def read (size : Nat) (mem : Nat → α) (rdAddrReg : Nat) (undef : α) : α :=
  if truncateIndex size rdAddrReg < size then mem (truncateIndex size rdAddrReg) else undef

/-- The write ports of four blocks that hold one byte lane each. -/
def writeBytes (size : Nat) (mem : Nat → Ocp.Word) (be : Ocp.ByteEn) (wrAddr : Nat)
    (wrData : Ocp.Word) : Nat → Ocp.Word :=
  if truncateIndex size wrAddr < size then
    Function.update mem (truncateIndex size wrAddr)
      (Ocp.merge be wrData (mem (truncateIndex size wrAddr)))
  else mem

theorem pow_log2Up {n k : Nat} (hk : 1 ≤ k) (hn : n = 2 ^ k) : 2 ^ log2Up n = n := by
  unfold log2Up
  rw [hn, Nat.clog_pow 2 k (by omega), Nat.max_eq_right hk]

/-- The address of the first of `n` words. -/
theorem lineAddr_eq (n addr : Nat) : addr / (4 * n) * (4 * n) / 4 = addr / 4 / n * n := by
  rw [← Nat.div_div_eq_div_mul, Nat.mul_comm 4 n, ← Nat.mul_assoc]
  exact Nat.mul_div_cancel _ (by omega)

theorem burstAddr_eq {n k : Nat} (hk : 1 ≤ k) (hn : n = 2 ^ k) (addr : Nat) :
    addr / 2 ^ (log2Up n + 2) * 2 ^ (log2Up n + 2) / 4 = addr / 4 / n * n := by
  rw [Nat.pow_add, pow_log2Up hk hn, Nat.mul_comm n]
  exact lineAddr_eq n addr

theorem le_pow_log2Up (n : Nat) : n ≤ 2 ^ log2Up n :=
  (Nat.le_pow_clog Nat.one_lt_two n).trans
    (Nat.pow_le_pow_right Nat.two_pos (Nat.le_max_right 1 _))

theorem pow_log2Down_le {n : Nat} (hn : 2 ≤ n) : 2 ^ log2Down n ≤ n := by
  have hlog : 1 ≤ Nat.log 2 n := Nat.log_pos Nat.one_lt_two hn
  rw [log2Down, Nat.max_eq_right hlog]
  exact Nat.pow_log_le_self 2 (by omega)

/-- A counter of just enough bits that goes on from `n - 1` to zero. -/
theorem count_next {n : Nat} (hpos : 0 < n) (t : Nat) :
    (if t % n = n - 1 then 0 else (t % n + 1) % 2 ^ log2Up n) = (t + 1) % n := by
  have hlt := Nat.mod_lt t hpos
  have hwidth := le_pow_log2Up n
  rw [← Nat.mod_add_mod t]
  split
  · rename_i hlast
    rw [hlast, Nat.sub_add_cancel hpos, Nat.mod_self]
  · rename_i hlast
    have hinside : t % n + 1 < n := by omega
    rw [Nat.mod_eq_of_lt hinside, Nat.mod_eq_of_lt (Nat.lt_of_lt_of_le hinside hwidth)]

/-- Such a counter gets to every value within a period. -/
theorem exists_add_mod {n k : Nat} (hk : k < n) (t : Nat) : ∃ d < n, (t + d) % n = k := by
  have hlt := Nat.mod_lt t (Nat.zero_lt_of_lt hk)
  refine ⟨(k + (n - t % n)) % n, Nat.mod_lt _ (Nat.zero_lt_of_lt hk), ?_⟩
  rw [Nat.add_mod_mod, ← Nat.mod_add_mod, Nat.add_left_comm, Nat.add_sub_of_le hlt.le,
    Nat.add_mod_right, Nat.mod_eq_of_lt hk]

@[simp] theorem truncateIndex_one (i : Nat) : truncateIndex 1 i = 0 := if_pos rfl

theorem truncateIndex_of_lt {size i : Nat} (h : i < size) : truncateIndex size i = i := by
  unfold truncateIndex
  split <;> omega

theorem read_of_index {size : Nat} {mem : Nat → α} {i j : Nat} (h : truncateIndex size i = j)
    (hj : j < size) (undef : α) : read size mem i undef = mem j := by
  rw [read, h, if_pos hj]

theorem read_of_lt {size : Nat} {mem : Nat → α} {a : Nat} (h : a < size) (undef : α) :
    read size mem a undef = mem a := read_of_index (truncateIndex_of_lt h) h undef

/-- A read that may give a value gives it when that is what an index outside the block reads. -/
theorem read_of_read {size : Nat} {mem : Nat → α} {i : Nat} {undef x : α}
    (h : read size mem i undef = x) : read size mem i x = x := by
  unfold read at h ⊢
  split at h
  · rename_i hin
    rw [if_pos hin, h]
  · rename_i hout
    exact if_neg hout

theorem write_of_lt {size : Nat} {mem : Nat → α} {a : Nat} (h : a < size) (ena : Bool) (x : α) :
    write size mem ena a x = if ena then Function.update mem a x else mem := by
  cases ena <;> simp [write, truncateIndex_of_lt h, h]

theorem write_of_ne {size i j : Nat} (hi : truncateIndex size i = i) (hne : j ≠ i) (mem : Nat → α)
    (ena : Bool) (x : α) : write size mem ena i x j = mem j := by
  unfold write
  split
  · rw [hi, Function.update_of_ne hne]
  · rfl

@[simp] theorem writeBytes_noBytes (size : Nat) (mem : Nat → Ocp.Word) (a : Nat) (w : Ocp.Word) :
    writeBytes size mem Ocp.noBytes a w = mem := by
  unfold writeBytes
  rw [Ocp.merge_none, Function.update_eq_self, ite_self]

theorem writeBytes_of_index {size i j : Nat} (h : truncateIndex size i = j) (hj : j < size)
    (mem : Nat → Ocp.Word) (be : Ocp.ByteEn) (w : Ocp.Word) :
    writeBytes size mem be i w = Function.update mem j (Ocp.merge be w (mem j)) := by
  rw [writeBytes, h, if_pos hj]

theorem writeBytes_of_lt {size : Nat} {a : Nat} (h : a < size) (mem : Nat → Ocp.Word)
    (be : Ocp.ByteEn) (w : Ocp.Word) :
    writeBytes size mem be a w = Function.update mem a (Ocp.merge be w (mem a)) :=
  writeBytes_of_index (truncateIndex_of_lt h) h mem be w

theorem writeBytes_of_ne {size i j : Nat} (hsize : size ≠ 1) (hne : j ≠ i)
    (mem : Nat → Ocp.Word) (be : Ocp.ByteEn) (w : Ocp.Word) :
    writeBytes size mem be i w j = mem j := by
  have hi : truncateIndex size i = i := if_neg hsize
  unfold writeBytes
  split
  · rw [hi, Function.update_of_ne hne]
  · rfl

/-! ### Words of a line -/

theorem eq_line_add {n a line pos : Nat} (hpos : pos < n) :
    a = line * n + pos ↔ a / n = line ∧ a % n = pos := by
  constructor
  · rintro rfl
    rw [mul_comm, Nat.mul_add_div (by omega), Nat.mul_add_mod, Nat.div_eq_of_lt hpos,
      Nat.mod_eq_of_lt hpos]
    exact ⟨rfl, rfl⟩
  · rintro ⟨rfl, rfl⟩
    rw [mul_comm]
    exact (Nat.div_add_mod a n).symm

/-- A word is in one line, at one position. -/
theorem line_add_inj {n line line' pos pos' : Nat} (hpos : pos < n) (hpos' : pos' < n)
    (h : line * n + pos = line' * n + pos') : line = line' ∧ pos = pos' := by
  obtain ⟨hdiv, hmod⟩ := (eq_line_add hpos).mp rfl
  obtain ⟨hdiv', hmod'⟩ := (eq_line_add hpos').mp h
  exact ⟨hdiv.symm.trans hdiv', hmod.symm.trans hmod'⟩

/-! ### Two banks -/

/-- Two blocks for the even and the odd entries of one memory. -/
structure Banks (α : Type) where
  even : Nat → α
  odd : Nat → α

namespace Banks

def get (m : Banks α) (i : Nat) : α := if i % 2 = 1 then m.odd (i / 2) else m.even (i / 2)

def write (m : Banks α) (ena : Bool) (i : Nat) (x : α) : Banks α :=
  { even := if ena && decide (i % 2 = 0) then Function.update m.even (i / 2) x else m.even
    odd := if ena && decide (i % 2 = 1) then Function.update m.odd (i / 2) x else m.odd }

@[simp] theorem write_false (m : Banks α) (i : Nat) (x : α) : m.write false i x = m := rfl

theorem get_write_self (m : Banks α) (i : Nat) (x : α) : (m.write true i x).get i = x := by
  rcases Nat.mod_two_eq_zero_or_one i with h | h
  · simp [get, write, h]
  · simp [get, write, h]

theorem get_write_of_ne (m : Banks α) (ena : Bool) {i j : Nat} (hne : j ≠ i) (x : α) :
    (m.write ena i x).get j = m.get j := by
  have hhalf : j % 2 = i % 2 → j / 2 ≠ i / 2 := by omega
  rcases Nat.mod_two_eq_zero_or_one j with hj | hj
  · simp only [get, hj, zero_ne_one, if_false, write]
    split
    · rename_i hi
      rw [Function.update_of_ne]
      exact hhalf (by rw [hj]; simp at hi; exact hi.2.symm)
    · rfl
  · simp only [get, hj, if_true, write]
    split
    · rename_i hi
      rw [Function.update_of_ne]
      exact hhalf (by rw [hj]; simp at hi; exact hi.2.symm)
    · rfl

end Banks

end Patmos.MemBlock
