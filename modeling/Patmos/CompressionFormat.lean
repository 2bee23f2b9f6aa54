import Mathlib.Tactic.Ring
import Patmos.Compression

/-!
# The format of the compressed text

The compressed text is a list of groups of eight units, the last one perhaps shorter.  A group
begins with a byte that has a flag for each unit.  A unit is a byte, or the position and the length
of a string in the ring buffer, which may run into the bytes that it stands for.

`txt` is the text with the spaces that precede it: the first byte of the text has index `N - F`, and
byte `j` has its place at `j % N` in the ring buffers of both sides.
-/

namespace Patmos.Compression

/-- A unit of the compressed text. -/
inductive Token where
  | literal (c : Byte)
  | copy (position length : Nat)

/-- The number of bytes that a unit stands for. -/
def Token.length : Token → Nat
  | .literal _ => 1
  | .copy _ length => length

def Token.bytes : Token → List Byte
  | .literal c => [c]
  | .copy position length => pair position length

/-- The flag of a unit. -/
def Token.flag : Token → Nat
  | .literal _ => 1
  | .copy _ _ => 0

/-- The flags of a group, the first unit in the lowest bit. -/
def flagsOf : List Token → Nat
  | [] => 0
  | u :: us => u.flag + 2 * flagsOf us

def group (us : List Token) : List Byte := BitVec.ofNat 8 (flagsOf us) :: us.flatMap Token.bytes

/-- The length of the text of some units. -/
def total (us : List Token) : Nat := (us.map Token.length).sum

/-- The unit stands for the text at `j`. -/
def Token.Sound (txt : Nat → Byte) (j : Nat) : Token → Prop
  | .literal c => c = txt j
  | .copy position length =>
    ∃ a, a % N = position ∧ a < j ∧ j ≤ a + (N - F) ∧ THRESHOLD < length ∧ length ≤ F ∧
      ∀ i, i < length → txt (a + i) = txt (j + i)

/-- The units stand for the text from `j` on. -/
def Sound (txt : Nat → Byte) (j : Nat) : List Token → Prop
  | [] => True
  | u :: us => u.Sound txt j ∧ Sound txt (j + u.length) us

theorem flag_le (u : Token) : u.flag ≤ 1 := by
  cases u with
  | literal c => exact Nat.le_refl 1
  | copy position length => exact Nat.zero_le 1

theorem flagsOf_lt (us : List Token) : flagsOf us < 2 ^ us.length := by
  induction us with
  | nil => exact one_pos
  | cons u us ih =>
    have hflag := flag_le u
    rw [flagsOf, List.length_cons, Nat.pow_succ]
    omega

theorem flagsOf_append (us : List Token) (u : Token) :
    flagsOf (us ++ [u]) = flagsOf us + u.flag * 2 ^ us.length := by
  induction us with
  | nil => simp [flagsOf]
  | cons v us ih =>
    rw [List.cons_append, flagsOf, ih, flagsOf, List.length_cons, Nat.pow_succ]
    ring

theorem total_append (us vs : List Token) : total (us ++ vs) = total us + total vs := by
  simp [total]

theorem sound_append {txt : Nat → Byte} {j : Nat} {us vs : List Token} :
    Sound txt j (us ++ vs) ↔ Sound txt j us ∧ Sound txt (j + total us) vs := by
  induction us generalizing j with
  | nil => simp [Sound, total]
  | cons u us ih =>
    have htotal : j + total (u :: us) = j + u.length + total us := by
      simp [total, add_assoc]
    rw [List.cons_append, Sound, ih, Sound, htotal, and_assoc]

/-! ### The two bytes of a match -/

theorem or_low (h : Nat) {l : Nat} (hl : l < 64) : 64 * h ||| l = 64 * h + l := by
  have hpow : l < 2 ^ 6 := hl
  exact (Nat.two_pow_add_eq_or_of_lt hpow h).symm

theorem high_bits (x : BitVec 8) :
    (x &&& BitVec.ofNat 8 (0xff <<< LENGTH_BITS)).toNat = 64 * (x.toNat / 64) := by
  revert x
  decide +kernel

/-- The second byte: the upper bits of the position and the length. -/
theorem second_toNat {position length : Nat} (hposition : position < N) (hlow : THRESHOLD < length)
    (hhigh : length ≤ F) :
    ((BitVec.ofNat 8 (position >>> (8 - LENGTH_BITS)) &&& BitVec.ofNat 8 (0xff <<< LENGTH_BITS)) |||
      BitVec.ofNat 8 (length - (THRESHOLD + 1))).toNat =
      64 * (position / 256) + (length - 3) := by
  unfold N THRESHOLD F at *
  have hshift : position >>> (8 - LENGTH_BITS) = position / 4 :=
    Nat.shiftRight_eq_div_pow position 2
  have hdiv : position / 4 % 256 / 64 = position / 256 := by omega
  have hlen : (length - (2 + 1)) % 256 = length - 3 := by omega
  rw [BitVec.toNat_or, high_bits, hshift, BitVec.toNat_ofNat, BitVec.toNat_ofNat]
  change 64 * (position / 4 % 256 / 64) ||| (length - (2 + 1)) % 256 = _
  rw [hdiv, hlen]
  exact or_low _ (by omega)

end Patmos.Compression
