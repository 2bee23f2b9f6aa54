import Mathlib.Algebra.Order.Group.Int
import Mathlib.Algebra.Order.Group.Nat

/-!
# The clock offset of PTP

On a delay response the slave computes the path delay and the clock offset from four timestamps, the
seconds and the nanoseconds apart.  Each part of the delay is halved with truncation.  An odd sum of
seconds loses half a second there, and nothing carries it over to the nanoseconds.
-/

namespace Patmos.PtpOffset

abbrev Word := BitVec 32

def ptpCalcOffset (t1 t2 delay : Word) : Word := t2 - t1 - delay

def ptpCalcDelay (t1 t2 t3 t4 : Word) : Word := (t2 - t1 + t4 - t3).sdiv 2

structure Timestamp where
  seconds : Word
  nanoseconds : Word

/-- What a delay response stores of `PTPv2TimeRecord`. -/
structure TimeRecord where
  delaySeconds : Word
  delayNanoseconds : Word
  offsetSeconds : Word
  offsetNanoseconds : Word

def delayReply (t1 t2 t3 t4 : Timestamp) : TimeRecord :=
  let delayNanoseconds := ptpCalcDelay t1.nanoseconds t2.nanoseconds t3.nanoseconds t4.nanoseconds
  let delaySeconds := ptpCalcDelay t1.seconds t2.seconds t3.seconds t4.seconds
  { delaySeconds, delayNanoseconds
    offsetSeconds := ptpCalcOffset t1.seconds t2.seconds delaySeconds
    offsetNanoseconds := ptpCalcOffset t1.nanoseconds t2.nanoseconds delayNanoseconds }

/-- The time in nanoseconds. -/
def Timestamp.time (t : Timestamp) : Int := t.seconds.toNat * 10 ^ 9 + t.nanoseconds.toNat

/-- The offset in nanoseconds, as it was computed. -/
def TimeRecord.offset (r : TimeRecord) : Int :=
  r.offsetSeconds.toInt * 10 ^ 9 + r.offsetNanoseconds.toInt

/-- Halving leaves a rest of at most one in magnitude. -/
theorem exists_rest (x : Int) : ∃ r, 2 * x.tdiv 2 + r = x ∧ -1 ≤ r ∧ r ≤ 1 := by
  refine ⟨x.tmod 2, Int.mul_tdiv_add_tmod x 2, ?_, ?_⟩
  · exact Int.lt_tmod_of_pos x (by decide)
  · exact Int.le_of_lt_add_one (Int.tmod_lt_of_pos x (by decide))

section Parts

variable {t1 t2 t3 t4 : Word} {a b : Int}

theorem toInt_sum (ha : (t2.toNat : Int) - t1.toNat = a) (hb : (t4.toNat : Int) - t3.toNat = b)
    (hlo : -10 ^ 9 < a) (hhi : a < 10 ^ 9) (hlo' : -10 ^ 9 < b) (hhi' : b < 10 ^ 9) :
    (t2 - t1 + t4 - t3).toInt = a + b := by
  rw [BitVec.toInt_eq_toNat_cond, BitVec.toNat_sub, BitVec.toNat_add, BitVec.toNat_sub]
  omega

theorem toInt_delay (ha : (t2.toNat : Int) - t1.toNat = a) (hb : (t4.toNat : Int) - t3.toNat = b)
    (hlo : -10 ^ 9 < a) (hhi : a < 10 ^ 9) (hlo' : -10 ^ 9 < b) (hhi' : b < 10 ^ 9) :
    (ptpCalcDelay t1 t2 t3 t4).toInt = (a + b).tdiv 2 := by
  obtain ⟨r, hr, hge, hle⟩ := exists_rest (a + b)
  have htwo : (2 : Word).toInt = 2 := by decide
  rw [ptpCalcDelay, BitVec.toInt_sdiv, toInt_sum ha hb hlo hhi hlo' hhi', htwo]
  apply Int.bmod_eq_of_le <;> omega

/-- One part of the offset. -/
theorem toInt_offset (ha : (t2.toNat : Int) - t1.toNat = a) (hb : (t4.toNat : Int) - t3.toNat = b)
    (hlo : -10 ^ 9 < a) (hhi : a < 10 ^ 9) (hlo' : -10 ^ 9 < b) (hhi' : b < 10 ^ 9) :
    (ptpCalcOffset t1 t2 (ptpCalcDelay t1 t2 t3 t4)).toInt = a - (a + b).tdiv 2 := by
  have hdelay := toInt_delay ha hb hlo hhi hlo' hhi'
  obtain ⟨r, hr, hge, hle⟩ := exists_rest (a + b)
  generalize ptpCalcDelay t1 t2 t3 t4 = delay at hdelay ⊢
  have hword := delay.isLt
  rw [BitVec.toInt_eq_toNat_cond] at hdelay
  rw [ptpCalcOffset, BitVec.toInt_eq_toNat_cond, BitVec.toNat_sub, BitVec.toNat_sub]
  omega

end Parts

/-- The error of the offset is half a second for each odd second. -/
theorem offset_close_iff {t1 t2 t3 t4 : Timestamp} {d o : Int} (h1 : t1.nanoseconds.toNat < 10 ^ 9)
    (h2 : t2.nanoseconds.toNat < 10 ^ 9) (h3 : t3.nanoseconds.toNat < 10 ^ 9)
    (h4 : t4.nanoseconds.toNat < 10 ^ 9) (hd : 0 ≤ d) (hd' : d < 2 ^ 30) (ho : o.natAbs < 10 ^ 9)
    (hsync : t2.time = t1.time + d + o) (hreq : t4.time = t3.time + d - o) :
    ((delayReply t1 t2 t3 t4).offset - o).natAbs ≤ 1 ↔
      2 ∣ (t2.seconds.toNat - t1.seconds.toNat + (t4.seconds.toNat - t3.seconds.toNat) : Int) := by
  unfold Timestamp.time at hsync hreq
  rw [TimeRecord.offset, delayReply,
    toInt_offset rfl rfl (by omega) (by omega) (by omega) (by omega),
    toInt_offset rfl rfl (by omega) (by omega) (by omega) (by omega)]
  obtain ⟨r, hr, hge, hle⟩ := exists_rest
    (t2.seconds.toNat - t1.seconds.toNat + (t4.seconds.toNat - t3.seconds.toNat))
  obtain ⟨r', hr', hge', hle'⟩ := exists_rest
    (t2.nanoseconds.toNat - t1.nanoseconds.toNat + (t4.nanoseconds.toNat - t3.nanoseconds.toNat))
  omega

/-- A tenth of a second on each way, and equal clocks. -/
theorem offset_close_within :
    ((delayReply ⟨1, 0⟩ ⟨1, 100000000⟩ ⟨2, 0⟩ ⟨2, 100000000⟩).offset - 0).natAbs ≤ 1 :=
  (offset_close_iff (d := 100000000) (by decide) (by decide) (by decide) (by decide) (by decide)
    (by decide)
    (by decide) (by decide) (by decide)).mpr (by decide)

/-- The same with a second boundary on the way to the slave. -/
theorem offset_half_second_off :
    let t1 : Timestamp := ⟨1, 900000000⟩
    let t2 : Timestamp := ⟨2, 0⟩
    let t3 : Timestamp := ⟨2, 200000000⟩
    let t4 : Timestamp := ⟨2, 300000000⟩
    t2.time = t1.time + 100000000 + 0 ∧ t4.time = t3.time + 100000000 - 0 ∧
      (delayReply t1 t2 t3 t4).offset = 500000000 ∧
      ¬ ((delayReply t1 t2 t3 t4).offset - 0).natAbs ≤ 1 := by
  decide

end Patmos.PtpOffset
