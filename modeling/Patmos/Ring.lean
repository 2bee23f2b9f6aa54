import Mathlib.Logic.Function.Basic
import Mathlib.Data.Nat.ModEq

/-!
# Ring memories

A memory of `n` cells that is addressed modulo `n` stores a list along
consecutive cells.  `Holds n mem p xs` says that `xs` stands in the cells
`p, p + 1, …` (modulo `n`).  The lemmas say how the predicate splits, how it is
shifted, which writes leave it alone, and how a write appends to it; they are
all that the queues of this development need to know about wrap-around.
-/

namespace Patmos.Ring

variable {α : Type*}

/-- The cells `p, p + 1, …` modulo `n` hold the elements of `xs`. -/
def Holds (n : Nat) (mem : Nat → α) (p : Nat) (xs : List α) : Prop :=
  ∀ k x, xs[k]? = some x → mem ((p + k) % n) = x

variable {n : Nat} {mem : Nat → α} {p q : Nat} {xs ys : List α}

@[simp] theorem holds_nil : Holds n mem p [] := by
  intro k x hx
  simp at hx

@[simp] theorem holds_cons {x : α} :
    Holds n mem p (x :: xs) ↔ mem (p % n) = x ∧ Holds n mem (p + 1) xs := by
  constructor
  · intro h
    refine ⟨h 0 x rfl, fun k y hy => ?_⟩
    have := h (k + 1) y (by simpa using hy)
    rwa [show p + (k + 1) = p + 1 + k by omega] at this
  · rintro ⟨h0, h⟩ k y hy
    cases k with
    | zero => simpa [← (Option.some.inj hy : x = y)] using h0
    | succ k =>
      rw [show p + (k + 1) = p + 1 + k by omega]
      exact h k y (by simpa using hy)

theorem holds_append :
    Holds n mem p (xs ++ ys) ↔ Holds n mem p xs ∧ Holds n mem (p + xs.length) ys := by
  induction xs generalizing p with
  | nil => simp
  | cons x xs ih =>
    simp only [List.cons_append, holds_cons, ih, List.length_cons, and_assoc]
    rw [show p + 1 + xs.length = p + (xs.length + 1) by omega]

/-- Only the residue of the start address matters. -/
theorem Holds.congr_mod (h : Holds n mem p xs) (hpq : p % n = q % n) : Holds n mem q xs := by
  intro k x hx
  rw [← h k x hx, Nat.add_mod q, ← hpq, ← Nat.add_mod]

theorem Holds.congr_mem {mem' : Nat → α} (h : Holds n mem p xs)
    (heq : ∀ k < xs.length, mem' ((p + k) % n) = mem ((p + k) % n)) :
    Holds n mem' p xs := by
  intro k x hx
  have hk : k < xs.length := by
    by_contra hk
    rw [List.getElem?_eq_none (by omega)] at hx
    cases hx
  rw [heq k hk, h k x hx]

/-- Two offsets below `n` from the same start are different cells. -/
theorem offset_ne {j k : Nat} (hj : j < n) (hk : k < n) (hjk : j ≠ k) :
    (p + j) % n ≠ (p + k) % n := by
  intro h
  have hmod : j % n = k % n := Nat.ModEq.add_left_cancel' p h
  rw [Nat.mod_eq_of_lt hj, Nat.mod_eq_of_lt hk] at hmod
  exact hjk hmod

/-- A write behind the stored list, but less than a full turn behind its start,
    leaves the list alone. -/
theorem Holds.write_behind (h : Holds n mem p xs) {k : Nat} (hk : xs.length ≤ k) (hkn : k < n)
    {a : Nat} (ha : a = (p + k) % n) (v : α) : Holds n (Function.update mem a v) p xs := by
  refine h.congr_mem fun j hj => ?_
  rw [ha, Function.update_of_ne (offset_ne (by omega) hkn (by omega))]

/-- A write to the next free cell appends to the stored list. -/
theorem Holds.push (h : Holds n mem p xs) (hlen : xs.length < n) {a : Nat}
    (ha : a = (p + xs.length) % n) (v : α) :
    Holds n (Function.update mem a v) p (xs ++ [v]) := by
  rw [holds_append]
  refine ⟨h.write_behind (le_refl _) hlen ha v, ?_⟩
  simp [ha]

/-- A queue with its two pointers: the cells from `r` up to `w` hold `xs`. -/
structure Span (n : Nat) (mem : Nat → α) (r w : Nat) (xs : List α) : Prop where
  readPtr_lt : r < n
  writePtr_eq : w = (r + xs.length) % n
  length_le : xs.length ≤ n
  holds : Holds n mem r xs

namespace Span

variable {r w : Nat}

theorem writePtr_lt (h : Span n mem r w xs) : w < n := by
  rw [h.writePtr_eq]
  exact Nat.mod_lt _ (Nat.zero_lt_of_lt h.readPtr_lt)

/-- The pointers meet only when the queue is empty or full. -/
theorem meet_iff (h : Span n mem r w xs) : w = r ↔ xs.length = 0 ∨ xs.length = n := by
  have hr := h.readPtr_lt
  have hl := h.length_le
  rw [h.writePtr_eq]
  constructor
  · intro heq
    by_contra hne
    rw [not_or] at hne
    have hcell : (r + xs.length) % n ≠ (r + 0) % n := offset_ne (by omega) (by omega) hne.1
    exact hcell (by rw [heq, add_zero, Nat.mod_eq_of_lt hr])
  · rintro (h0 | hn)
    · rw [h0, add_zero, Nat.mod_eq_of_lt hr]
    · rw [hn, Nat.add_mod_right, Nat.mod_eq_of_lt hr]

theorem pop {x : α} (h : Span n mem r w (x :: xs)) : Span n mem ((r + 1) % n) w xs where
  readPtr_lt := Nat.mod_lt _ (Nat.zero_lt_of_lt h.readPtr_lt)
  writePtr_eq := by
    rw [h.writePtr_eq, Nat.mod_add_mod, List.length_cons, Nat.add_right_comm, Nat.add_assoc]
  length_le := Nat.le_of_succ_le h.length_le
  holds := (holds_cons.mp h.holds).2.congr_mod (Nat.mod_mod _ _).symm

theorem push (h : Span n mem r w xs) (hlen : xs.length < n) (v : α) :
    Span n (Function.update mem w v) r ((w + 1) % n) (xs ++ [v]) where
  readPtr_lt := h.readPtr_lt
  writePtr_eq := by
    rw [h.writePtr_eq, Nat.mod_add_mod, List.length_append]
    rfl
  length_le := by rwa [List.length_append]
  holds := h.holds.push hlen h.writePtr_eq v

end Span

end Patmos.Ring
