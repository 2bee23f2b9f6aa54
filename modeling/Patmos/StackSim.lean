import Patmos.Ocp
import Patmos.Ring

/-!
# The stack model of `stacksim.c`

The stack grows towards lower addresses.  The words from `sc_top` up to `mem_top` are in
the stack cache, at their address modulo its size, and the words from `mem_top` on are in
memory.  `reserve` may spill words, `ensure` may fill words, each with a loop over single
words; `free` only moves the pointers.  `spill` is the loop of `reserve` on its own.
-/

namespace Patmos.StackSim

open Ocp
open Function (update update_of_ne update_self)

/-- Pointers are word addresses; `sc` is the array of the cache. -/
structure State where
  mem : Memory
  sc : Nat → Word
  memTop : Nat
  scTop : Nat

variable (scSize : Nat)

/-- The loop body of `reserve`. -/
def spillOne (s : State) : State :=
  { s with
    memTop := s.memTop - 1
    mem := Function.update s.mem (s.memTop - 1) (s.sc ((s.memTop - 1) % scSize)) }

/-- The loop body of `ensure`. -/
def fillOne (s : State) : State :=
  { s with
    sc := Function.update s.sc (s.memTop % scSize) (s.mem s.memTop)
    memTop := s.memTop + 1 }

/-- The number of iterations is negative in the source when nothing is to be spilled; here
    it is truncated to zero, with the same effect. -/
def reserve (n : Nat) (s : State) : State :=
  let s1 := { s with scTop := s.scTop - n }
  (spillOne scSize)^[s1.memTop - s1.scTop - scSize] s1

def free (n : Nat) (s : State) : State :=
  let scTop := s.scTop + n
  { s with scTop := scTop, memTop := if s.memTop < scTop then scTop else s.memTop }

def ensure (n : Nat) (s : State) : State := (fillOne scSize)^[n - (s.memTop - s.scTop)] s

def spill (n : Nat) (s : State) : State := (spillOne scSize)^[n] s

/-- A store of the enabled bytes of a word. -/
def store (addr : Nat) (be : ByteEn) (val : Word) (s : State) : State :=
  { s with sc := Function.update s.sc (addr % scSize) (merge be val (s.sc (addr % scSize))) }

def load (addr : Nat) (s : State) : Word := s.sc (addr % scSize)

/-! ### The loops -/

section Loops

variable {scSize : Nat}

/-- Spilling `k` words copies the words below the top of memory out of the cache. -/
theorem spillOne_iterate (k : Nat) (s : State) (hk : k ≤ s.memTop) :
    ((spillOne scSize)^[k] s).memTop = s.memTop - k ∧
      ((spillOne scSize)^[k] s).scTop = s.scTop ∧ ((spillOne scSize)^[k] s).sc = s.sc ∧
      ∀ a, ((spillOne scSize)^[k] s).mem a =
        if s.memTop - k ≤ a ∧ a < s.memTop then s.sc (a % scSize) else s.mem a := by
  induction k with
  | zero =>
    refine ⟨rfl, rfl, rfl, ?_⟩
    intro a
    rw [if_neg (by omega)]
    rfl
  | succ k ih =>
    obtain ⟨htop, hsc, hcache, hmem⟩ := ih (by omega)
    rw [Function.iterate_succ_apply']
    refine ⟨?_, hsc, hcache, ?_⟩
    · change ((spillOne scSize)^[k] s).memTop - 1 = _
      rw [htop]
      omega
    · intro a
      change update ((spillOne scSize)^[k] s).mem (((spillOne scSize)^[k] s).memTop - 1)
        (((spillOne scSize)^[k] s).sc ((((spillOne scSize)^[k] s).memTop - 1) % scSize)) a = _
      rw [htop, hcache]
      by_cases ha : a = s.memTop - k - 1
      · rw [ha, update_self, if_pos (by omega)]
      · rw [update_of_ne ha, hmem a]
        by_cases hin : s.memTop - k ≤ a ∧ a < s.memTop
        · rw [if_pos hin, if_pos (by omega)]
        · rw [if_neg hin, if_neg (by omega)]

/-- Filling `k` words, no more than the cache holds, copies the words from the top of
    memory into the cache and leaves its other entries alone. -/
theorem fillOne_iterate (k : Nat) (s : State) (hk : k ≤ scSize) :
    ((fillOne scSize)^[k] s).memTop = s.memTop + k ∧
      ((fillOne scSize)^[k] s).scTop = s.scTop ∧ ((fillOne scSize)^[k] s).mem = s.mem ∧
      (∀ a, s.memTop ≤ a → a < s.memTop + k →
        ((fillOne scSize)^[k] s).sc (a % scSize) = s.mem a) ∧
      ∀ j, (∀ a, s.memTop ≤ a → a < s.memTop + k → a % scSize ≠ j) →
        ((fillOne scSize)^[k] s).sc j = s.sc j := by
  induction k with
  | zero =>
    refine ⟨rfl, rfl, rfl, ?_, ?_⟩
    · intro a h1 h2
      omega
    · intro j _
      rfl
  | succ k ih =>
    obtain ⟨htop, hsc, hmem, hin, hout⟩ := ih (by omega)
    have hstep : ((fillOne scSize)^[k + 1] s).sc =
        update ((fillOne scSize)^[k] s).sc ((s.memTop + k) % scSize)
          (s.mem (s.memTop + k)) := by
      rw [Function.iterate_succ_apply']
      change update ((fillOne scSize)^[k] s).sc
        (((fillOne scSize)^[k] s).memTop % scSize)
        (((fillOne scSize)^[k] s).mem ((fillOne scSize)^[k] s).memTop) = _
      rw [htop, hmem]
    refine ⟨?_, ?_, ?_, ?_, ?_⟩
    · rw [Function.iterate_succ_apply']
      change ((fillOne scSize)^[k] s).memTop + 1 = _
      rw [htop]
      omega
    · rw [Function.iterate_succ_apply']
      exact hsc
    · rw [Function.iterate_succ_apply']
      exact hmem
    · intro a h1 h2
      rw [hstep]
      by_cases ha : a = s.memTop + k
      · rw [ha, update_self]
      · -- fewer than `scSize` words apart, the two have different entries
        have hne : a % scSize ≠ (s.memTop + k) % scSize := by
          have := Ring.offset_ne (p := s.memTop) (n := scSize)
            (show a - s.memTop < scSize by omega) (show k < scSize by omega) (by omega)
          rwa [show s.memTop + (a - s.memTop) = a by omega] at this
        rw [update_of_ne hne]
        exact hin a h1 (by omega)
    · intro j hj
      rw [hstep, update_of_ne (fun h => hj (s.memTop + k) (by omega) (by omega) h.symm)]
      exact hout j (fun a h1 h2 => hj a h1 (by omega))

end Loops

end Patmos.StackSim
