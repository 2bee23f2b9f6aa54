import Mathlib.Tactic.Ring
import Patmos.Clocked

/-!
# The multiplier of the execute stage

A multiplication takes two enabled cycles.  In the first one the products of the halves of its
operands are registered, the upper halves with a sign bit in front, and in the second one they are
added up.  An instruction that waits for a coprocessor suppresses all writes to special registers;
when it comes right after a multiplication, the product is lost.
-/

namespace Patmos.Execute

open Clocked

/-! ### The circuit -/

def MFUNC_MUL : Nat := 0

def SPEC_SL : Nat := 2

def SPEC_SH : Nat := 3

/-- One of the pipelines, with the operands after forwarding. -/
structure Pipe where
  isMul : Bool
  isMTS : Bool
  func : Nat
  doExecute : Bool
  op1 : BitVec 32
  op2 : BitVec 32

/-- `enableCop` is low while the instruction in the stage waits for a coprocessor. -/
structure Cycle where
  ena_in : Bool
  enableCop : Bool
  first : Pipe
  others : List Pipe

/-- The words of the result, the partial products, of which only `mulHHReg` is cut to its width,
    and whether a multiplication is under way. -/
structure State where
  mulLoReg : Int
  mulHiReg : Int
  mulLLReg : Int
  mulLHReg : Int
  mulHLReg : Int
  mulHHReg : Int
  mulPipeReg : Bool

/-- `op1H` and `op2H`: 16 bits behind a sign bit. -/
def opH (signed : Bool) (x : BitVec 32) : Int :=
  x.toNat / 2 ^ 16 - if signed && x.msb then 2 ^ 16 else 0

def opL (x : BitVec 32) : Int := x.toNat % 2 ^ 16

def mulResult (s : State) : Int :=
  (s.mulHHReg * 2 ^ 32 + s.mulLLReg + s.mulHLReg * 2 ^ 16 + s.mulLHReg * 2 ^ 16) % 2 ^ 64

/-- The upper and the lower word of 64 bits. -/
def words (p : Int) : Int × Int := (p / 2 ^ 32 % 2 ^ 32, p % 2 ^ 32)

def regs (s : State) : Int × Int := (s.mulHiReg, s.mulLoReg)

/-- A move to a special register in one of the pipelines. -/
def mts (r : Int × Int) (x : Pipe) : Int × Int :=
  if x.isMTS && x.doExecute then
    if x.func = SPEC_SL then (r.1, x.op1.toNat)
    else if x.func = SPEC_SH then (x.op1.toNat, r.2) else r
  else r

def next (s : State) (c : Cycle) : State :=
  if c.ena_in then
    let signed := c.first.func == MFUNC_MUL
    let r := (c.first :: c.others).foldl mts (if s.mulPipeReg then words (mulResult s) else regs s)
    { mulLoReg := if c.enableCop then r.2 else s.mulLoReg
      mulHiReg := if c.enableCop then r.1 else s.mulHiReg
      mulLLReg := opL c.first.op1 * opL c.first.op2
      mulLHReg := opL c.first.op1 * opH signed c.first.op2
      mulHLReg := opH signed c.first.op1 * opL c.first.op2
      mulHHReg := opH signed c.first.op1 * opH signed c.first.op2 % 2 ^ 32
      mulPipeReg := c.first.isMul && c.first.doExecute }
  else s

/-! ### Products -/

/-- The number that an operand stands for. -/
def value (signed : Bool) (x : BitVec 32) : Int := if signed then x.toInt else x.toNat

/-- The product of the multiplication that is executed in a cycle. -/
def product (c : Cycle) : Option Int :=
  let signed := c.first.func == MFUNC_MUL
  if c.first.isMul && c.first.doExecute then
    some (value signed c.first.op1 * value signed c.first.op2)
  else none

/-- In an enabled cycle, nothing waits for a coprocessor while a product is due, and no instruction
    moves a value to the registers of the result. -/
def Undisturbed (s : State) (c : Cycle) : Prop :=
  c.ena_in = true → (s.mulPipeReg = true → c.enableCop = true) ∧
    (c.enableCop = true → ∀ x ∈ c.first :: c.others, (x.isMTS && x.doExecute) = true →
      x.func ≠ SPEC_SL ∧ x.func ≠ SPEC_SH)

instance (s : State) (c : Cycle) : Decidable (Undisturbed s c) :=
  inferInstanceAs (Decidable (_ → _))

theorem value_eq (signed : Bool) (x : BitVec 32) :
    value signed x = opH signed x * 2 ^ 16 + opL x := by
  have hsplit : (x.toNat : Int) = x.toNat / 2 ^ 16 * 2 ^ 16 + x.toNat % 2 ^ 16 :=
    (Int.ediv_mul_add_emod _ _).symm
  unfold value opH opL
  cases signed with
  | false =>
    simp only [Bool.false_and, Bool.false_eq_true, if_false]
    omega
  | true =>
    rw [BitVec.toInt_eq_msb_cond]
    cases x.msb <;> simp only [Bool.true_and, Bool.false_eq_true, if_true, if_false] <;> omega

theorem words_emod (p : Int) : words (p % 2 ^ 64) = words p := by
  unfold words
  refine Prod.ext ?_ ?_ <;> dsimp only <;> omega

/-- What the registers of the result hold after the next enabled cycle. -/
def due (s : State) : Int × Int := if s.mulPipeReg then words (mulResult s) else regs s

section Cycle

variable {s z : State} {c : Cycle}

theorem regs_next (hena : c.ena_in = true) (h : Undisturbed s c) : regs (next s c) = due s := by
  obtain ⟨hdue, hmove⟩ := h hena
  cases hcop : c.enableCop with
  | false =>
    have hpipe : s.mulPipeReg = false := by simpa [hcop] using hdue
    simp [regs, next, due, hena, hcop, hpipe]
  | true =>
    have hkeep : ∀ r, (c.first :: c.others).foldl mts r = r := by
      intro r
      refine List.foldlRecOn _ mts (motive := fun r' => r' = r) rfl ?_
      rintro _ rfl x hx
      unfold mts
      split
      · rename_i hmts
        obtain ⟨hsl, hsh⟩ := hmove hcop x hx hmts
        rw [if_neg hsl, if_neg hsh]
      · rfl
    simp only [regs, next, due, hena, hcop, hkeep, if_true]

/-- The partial products add up to the product, in 64 bits. -/
theorem mulResult_next (hena : c.ena_in = true) :
    let signed := c.first.func == MFUNC_MUL
    mulResult (next s c) = value signed c.first.op1 * value signed c.first.op2 % 2 ^ 64 := by
  intro signed
  rw [value_eq, value_eq, mulResult, next, if_pos hena]
  dsimp only
  generalize opH signed c.first.op1 = h₁
  generalize opH signed c.first.op2 = h₂
  generalize opL c.first.op1 = l₁
  generalize opL c.first.op2 = l₂
  have hprod : (h₁ * 2 ^ 16 + l₁) * (h₂ * 2 ^ 16 + l₂) =
      h₁ * h₂ * 2 ^ 32 + l₁ * l₂ + h₁ * l₂ * 2 ^ 16 + l₁ * h₂ * 2 ^ 16 := by ring
  rw [hprod]
  omega

theorem due_next (hena : c.ena_in = true) (h : Undisturbed s c) :
    due (next s c) = (product c).elim (due s) words := by
  have hpipe : (next s c).mulPipeReg = (c.first.isMul && c.first.doExecute) := by
    simp [next, hena]
  rw [due, hpipe, product]
  split
  · rw [mulResult_next hena, words_emod]
    rfl
  · exact regs_next hena h

/-! ### Every run -/

/-- The registers after the cycles `cs`, and after one more enabled cycle. -/
structure History (s : State) (cs : List Cycle) (z : State) : Prop where
  regs : regs z = ((cs.filter (·.ena_in)).dropLast.filterMap product).getLast?.elim (regs s) words
  due : due z = ((cs.filter (·.ena_in)).filterMap product).getLast?.elim (Execute.regs s) words

theorem History.next {cs : List Cycle} (h : History s cs z) (hc : Undisturbed z c) :
    History s (cs ++ [c]) (next z c) := by
  cases hena : c.ena_in with
  | false =>
    have hsame : Execute.next z c = z := by simp [Execute.next, hena]
    have hcs : (cs ++ [c]).filter (·.ena_in) = cs.filter (·.ena_in) := by simp [hena]
    rw [hsame]
    exact ⟨hcs ▸ h.regs, hcs ▸ h.due⟩
  | true =>
    have hcs : (cs ++ [c]).filter (·.ena_in) = cs.filter (·.ena_in) ++ [c] := by simp [hena]
    constructor
    · rw [regs_next hena hc, h.due, hcs, List.dropLast_concat]
    · rw [due_next hena hc, h.due, hcs, List.filterMap_append]
      cases hp : product c <;> simp [hp]

end Cycle

/-- **The multiplier computes full products**: after every run the registers of the result hold
    the upper and the lower word of the last product, of those multiplications that were executed
    before the last enabled cycle. -/
theorem regs_eq_last_product {s : State} (hs : s.mulPipeReg = false) {cs : List Cycle}
    (hcs : Along next Undisturbed s cs) :
    regs (run next s cs) =
      ((cs.filter (·.ena_in)).dropLast.filterMap product).getLast?.elim (regs s) words := by
  have hstart : History s [] s := ⟨rfl, by simp [due, hs]⟩
  exact (inv_history (I := History s) hstart (fun _ _ h hc => h.next hc) hcs).regs

/-! ### Two runs -/

def powerUp : State := ⟨0, 0, 0, 0, 0, 0, false⟩

/-- An instruction without an effect on the multiplier, and a multiplication of -3 by 5. -/
def other : Pipe := ⟨false, false, 0, true, 0, 0⟩

def negative : Pipe := { other with isMul := true, op1 := -3, op2 := 5 }

/-- The product is there in spite of a stall. -/
theorem negative_product : regs (run next powerUp
      [⟨true, true, negative, []⟩, ⟨false, true, other, []⟩, ⟨true, true, other, []⟩]) =
    words (-15) :=
  regs_eq_last_product rfl (by decide)

/-- The instruction after the multiplication waits one cycle for a coprocessor. -/
theorem negative_lost :
    let cs : List Cycle := [⟨true, true, negative, []⟩, ⟨true, false, other, []⟩,
      ⟨true, true, other, []⟩, ⟨true, true, other, []⟩]
    regs (run next powerUp cs) = (0, 0) ∧
      (cs.filter (·.ena_in)).dropLast.filterMap product = [-15] := by
  decide

end Patmos.Execute
