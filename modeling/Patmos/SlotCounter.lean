import Mathlib.Data.Nat.Count
import Mathlib.Data.Nat.ModEq

/-!
# Counters that advance in some slots of a period

A block counter has the number of a block and an offset.  In the marked slots of a period it goes
on to the next block, and from the last block to the first one at the next offset.  If a period has
as many marked slots as there are blocks, each marked slot has its own block, and the offset is the
number of the period.
-/

namespace Patmos.SlotCounter

/-! ### Marked slots -/

section Period

variable (mark : ℕ → Prop) [DecidablePred mark] {len t u : ℕ}

/-- The cycles before `t` whose slot is marked. -/
def marks (len t : ℕ) : ℕ := Nat.count (fun t => mark (t % len)) t

theorem marks_eq (hlen : 0 < len) (t : ℕ) :
    marks mark len t = t / len * Nat.count mark len + Nat.count mark (t % len) := by
  induction t with
  | zero => simp [marks]
  | succ t ih =>
    have hlt := Nat.mod_lt t hlen
    have hcount : marks mark len (t + 1) =
        t / len * Nat.count mark len + Nat.count mark (t % len + 1) := by
      rw [marks, Nat.count_succ, ← marks, ih, Nat.count_succ, add_assoc]
    rw [hcount]
    rcases lt_or_eq_of_le (Nat.succ_le_of_lt hlt) with hin | hend
    · have hmod : (t + 1) % len = t % len + 1 := by
        rw [← Nat.mod_add_mod, Nat.mod_eq_of_lt hin]
      have hdiv : (t + 1) / len = t / len := by
        rw [Nat.succ_div, if_neg fun hdvd => ?_, add_zero]
        rw [Nat.mod_eq_zero_of_dvd hdvd] at hmod
        cases hmod
      rw [hmod, hdiv]
    · -- the period is over
      have hlast : t % len + 1 = len := hend
      have hmod : (t + 1) % len = 0 := by
        rw [← Nat.mod_add_mod, hlast, Nat.mod_self]
      have hdiv : (t + 1) / len = t / len + 1 := by
        rw [Nat.succ_div, if_pos (Nat.dvd_of_mod_eq_zero hmod)]
      rw [hmod, hdiv, hlast, Nat.count_zero, add_zero, Nat.succ_mul]

theorem marks_add_len (hlen : 0 < len) (t : ℕ) :
    marks mark len (t + len) = marks mark len t + Nat.count mark len := by
  rw [marks_eq mark hlen, marks_eq mark hlen, Nat.add_mod_right, Nat.add_div_right t hlen,
    Nat.succ_mul]
  omega

variable {mark} {p : ℕ → Prop} [DecidablePred p]

/-- If the marked cycles are counted, and no multiple of the number of marks is missed, then only
    these are counted. -/
theorem mark_of_count_modEq (hlen : 0 < len) (hsub : ∀ t, mark (t % len) → p t)
    (hlen2 : len < 2 * Nat.count mark len)
    (hmod : Nat.count p (t + len) ≡ Nat.count p t [MOD Nat.count mark len])
    (htu : t ≤ u) (hu : u < t + len) (hp : p u) : mark (u % len) := by
  have hmarks := marks_add_len mark hlen t
  rw [marks, marks, Nat.count_add] at hmarks
  rw [Nat.count_add, ← add_zero (Nat.count p t), add_assoc, zero_add] at hmod
  -- the cycles that are counted in the period, and the marked ones among them
  have hle : Nat.count (fun k => mark ((t + k) % len)) len ≤ Nat.count (fun k => p (t + k)) len :=
    Nat.count_mono_left fun k _ => hsub (t + k)
  have hall : Nat.count (fun k => p (t + k)) len ≤ len :=
    Nat.count_le _
  have hdvd : Nat.count mark len ∣ Nat.count (fun k => p (t + k)) len := by
    exact Nat.modEq_zero_iff_dvd.mp (Nat.ModEq.add_left_cancel' (Nat.count p t) hmod)
  have heq : Nat.count (fun k => p (t + k)) len =
      Nat.count (fun k => mark ((t + k) % len)) len := by
    obtain ⟨q, hq⟩ := hdvd
    have hq1 : q < 2 := by
      by_contra hge
      have : Nat.count mark len * 2 ≤ Nat.count mark len * q := Nat.mul_le_mul_left _ (by omega)
      omega
    have hq0 : q ≠ 0 := by
      rintro rfl
      omega
    obtain rfl : q = 1 := by omega
    omega
  rw [Nat.count_eq_card_filter_range, Nat.count_eq_card_filter_range] at heq
  have hsame := Finset.eq_of_subset_of_card_le
    (Finset.monotone_filter_right (Finset.range len) fun k _ => hsub (t + k)) heq.le
  have hmem : u - t ∈ (Finset.range len).filter fun k => p (t + k) := by
    rw [Finset.mem_filter, Finset.mem_range, Nat.add_sub_of_le htu]
    exact ⟨by omega, hp⟩
  rw [← hsame, Finset.mem_filter, Nat.add_sub_of_le htu] at hmem
  exact hmem.2

end Period

/-! ### Block counters -/

/-- The number of a block and an offset. -/
@[ext]
structure BlockAddr where
  upper : ℕ
  lower : ℕ
deriving DecidableEq

/-- One step of a counter of `blocks` blocks whose registers have `w` and `bw` bits. -/
def BlockAddr.advance (blocks w bw : ℕ) (a : BlockAddr) : BlockAddr :=
  if a.upper = blocks - 1 then ⟨0, (a.lower + 1) % 2 ^ bw⟩ else ⟨(a.upper + 1) % 2 ^ w, a.lower⟩

/-- The counter after `c` steps. -/
def BlockAddr.after (blocks bw c : ℕ) : BlockAddr := ⟨c % blocks, c / blocks % 2 ^ bw⟩

section Counter

variable {blocks w bw len t : ℕ}

theorem BlockAddr.advance_after (hpos : 0 < blocks) (hw : blocks ≤ 2 ^ w) (c : ℕ) :
    (after blocks bw c).advance blocks w bw = after blocks bw (c + 1) := by
  have hlt := Nat.mod_lt c hpos
  rw [advance, after, after, ← Nat.mod_add_mod c]
  simp only
  split
  · rename_i hlast
    have hsum : c % blocks + 1 = blocks := by omega
    have hdvd : blocks ∣ c + 1 := by
      apply Nat.dvd_of_mod_eq_zero
      rw [← Nat.mod_add_mod, hsum, Nat.mod_self]
    rw [hsum, Nat.mod_self, Nat.succ_div, if_pos hdvd, Nat.mod_add_mod]
  · rename_i hin
    have hsum : c % blocks + 1 < blocks := by omega
    have hdvd : ¬ blocks ∣ c + 1 := by
      intro h
      have hzero := Nat.mod_eq_zero_of_dvd h
      rw [← Nat.mod_add_mod, Nat.mod_eq_of_lt hsum] at hzero
      cases hzero
    rw [Nat.mod_eq_of_lt hsum, Nat.mod_eq_of_lt (hsum.trans_le hw), Nat.succ_div, if_neg hdvd]
    rfl

/-- A counter that advances in some cycles has counted them. -/
theorem eq_after_count {p : ℕ → Prop} [DecidablePred p] {a : ℕ → BlockAddr} (hpos : 0 < blocks)
    (hw : blocks ≤ 2 ^ w) (hzero : a 0 = ⟨0, 0⟩)
    (hstep : ∀ t, a (t + 1) = if p t then (a t).advance blocks w bw else a t) (t : ℕ) :
    a t = BlockAddr.after blocks bw (Nat.count p t) := by
  induction t with
  | zero =>
    rw [hzero, Nat.count_zero, BlockAddr.after, Nat.zero_mod, Nat.zero_div, Nat.zero_mod]
  | succ t ih =>
    rw [hstep, ih, Nat.count_succ]
    split
    · exact BlockAddr.advance_after hpos hw _
    · rfl

/-- In a marked slot the block is the number of the marks before it in the period. -/
theorem after_marks (bw : ℕ) {mark : ℕ → Prop} [DecidablePred mark] (hlen : 0 < len)
    (hmark : mark (t % len)) :
    BlockAddr.after (Nat.count mark len) bw (marks mark len t) =
      ⟨Nat.count mark (t % len), t / len % 2 ^ bw⟩ := by
  have hlt : Nat.count mark (t % len) < Nat.count mark len :=
    Nat.count_strict_mono hmark (Nat.mod_lt t hlen)
  have hpos : 0 < Nat.count mark len := Nat.zero_lt_of_lt hlt
  rw [marks_eq mark hlen, BlockAddr.after, add_comm, Nat.add_mul_mod_self_right,
    Nat.mod_eq_of_lt hlt, Nat.add_mul_div_right _ _ hpos, Nat.div_eq_of_lt hlt, zero_add]

end Counter

end Patmos.SlotCounter
