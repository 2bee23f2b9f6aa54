import Mathlib.Order.Fin.Basic
import Mathlib.Tactic.SplitIfs

/-!
# Going round

Indices below `n` are gone through upwards and from the last to the first again.  `dist a b`
is the number of steps from `a` to `b`, and `IsNext q cur i` says that `i` is the first index
with `q` from `cur` on.  A pointer that moves so never goes past an index with `q`.
-/

namespace Patmos.RoundRobin

variable {n : ℕ} {q : Fin n → Bool} {a b cur i j : Fin n}

/-- The steps from `a` to `b`. -/
def dist (a b : Fin n) : ℕ := if a ≤ b then b.val - a.val else b.val + n - a.val

theorem dist_of_le (h : a ≤ b) : dist a b = b.val - a.val := if_pos h

theorem dist_of_lt (h : b < a) : dist a b = b.val + n - a.val := if_neg (not_le.mpr h)

@[simp] theorem dist_self : dist a a = 0 := by rw [dist_of_le le_rfl, Nat.sub_self]

theorem eq_of_dist_eq (h : dist a j = dist b j) : a = b := by
  have ha := a.isLt
  have hb := b.isLt
  have hj := j.isLt
  apply Fin.ext
  rcases le_or_gt a j with haj | haj <;> rcases le_or_gt b j with hbj | hbj
  · rw [dist_of_le haj, dist_of_le hbj] at h
    omega
  · rw [dist_of_le haj, dist_of_lt hbj] at h
    omega
  · rw [dist_of_lt haj, dist_of_le hbj] at h
    omega
  · rw [dist_of_lt haj, dist_of_lt hbj] at h
    omega

/-- An index on the way divides it. -/
theorem dist_add_of_le (h : dist a i ≤ dist a j) : dist a i + dist i j = dist a j := by
  have ha := a.isLt
  have hi := i.isLt
  have hj := j.isLt
  simp only [dist, Fin.le_def] at h ⊢
  split_ifs at h ⊢ <;> omega

theorem succ_lt {i : Fin n} (h : ¬ i.val = n - 1) : i.val + 1 < n := by
  omega

/-- The index after `i`. -/
def succ (i : Fin n) : Fin n :=
  if h : i.val = n - 1 then ⟨0, i.pos⟩ else ⟨i.val + 1, succ_lt h⟩

theorem val_succ (i : Fin n) : (succ i).val = if i.val = n - 1 then 0 else i.val + 1 := by
  unfold succ
  split <;> rfl

theorem dist_succ (h : a ≠ b) : dist (succ a) b + 1 = dist a b := by
  have ha := a.isLt
  have hb := b.isLt
  have hne : a.val ≠ b.val := fun heq => h (Fin.ext heq)
  unfold succ
  split
  · simp only [dist, Fin.le_def]
    split_ifs <;> omega
  · simp only [dist, Fin.le_def]
    split_ifs <;> omega

theorem dist_lt (a b : Fin n) : dist a b < n := by
  have ha := a.isLt
  have hb := b.isLt
  simp only [dist, Fin.le_def]
  split_ifs <;> omega

/-- `i` is the first index with `q` from `cur` on. -/
structure IsNext (q : Fin n → Bool) (cur i : Fin n) : Prop where
  mem : q i = true
  first : ∀ j, q j = true → dist cur i ≤ dist cur j

theorem IsNext.dist_le (h : IsNext q cur i) (hj : q j = true) : dist i j ≤ dist cur j := by
  have hsum := dist_add_of_le (h.first j hj)
  omega

theorem IsNext.eq_of_mem (h : IsNext q cur i) (hcur : q cur = true) : i = cur := by
  have hzero := h.first cur hcur
  rw [dist_self, Nat.le_zero] at hzero
  have hsum := dist_add_of_le (h.first cur hcur)
  rw [hzero, dist_self, Nat.zero_add] at hsum
  exact eq_of_dist_eq (hsum.trans dist_self.symm)

/-- The pointer leaves an index without `q`. -/
theorem IsNext.dist_lt (h : IsNext q cur i) (hj : q j = true) (hcur : q cur = false) :
    dist i j < dist cur j := by
  refine lt_of_le_of_ne (h.dist_le hj) fun heq => ?_
  have hsame : i = cur := eq_of_dist_eq heq
  have hmem := h.mem
  rw [hsame, hcur] at hmem
  cases hmem

end Patmos.RoundRobin
