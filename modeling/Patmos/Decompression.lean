import Mathlib.Data.Nat.Bitwise
import Mathlib.Tactic.IntervalCases
import Patmos.CompressionFormat

/-!
# The decompression in the boot loader

`decompress_get_byte` returns the text byte by byte.  When it has returned all that it has, it reads
the next unit from the serial line and extends its ring buffer by the text of it.  The upper byte of
`flags` counts the eight units of a group.

The line is the list of the bytes that are still to come; a read from an empty line waits, which is
`none`.
-/

namespace Patmos.Compression

/-! ### The program -/

structure Decoder where
  textBuf : Nat → Byte
  writePos : Nat
  readPos : Nat
  flags : Nat

/-- `decompress_init`. -/
def decompressInit : Decoder := ⟨fun i => if i < N - F then 0x20 else 0, N - F, N - F, 0⟩

/-- `uart_read`. -/
def uartRead : List Byte → Option (Nat × List Byte)
  | [] => none
  | c :: line => some (c.toNat, line)

/-- `text_buf[write_pos++] = c; write_pos &= (N - 1)`. -/
def Decoder.put (d : Decoder) (c : Byte) : Decoder :=
  { d with textBuf := Function.update d.textBuf d.writePos c, writePos := (d.writePos + 1) % N }

/-- The loop that copies `n` bytes from position `k` on. -/
def Decoder.copy : Nat → Nat → Decoder → Decoder
  | 0, _, d => d
  | n + 1, k, d => Decoder.copy n (k + 1) (d.put (d.textBuf (k % N)))

/-- The flags of the next unit, read if the group is at its end. -/
def nextFlags (flags : Nat) (line : List Byte) : Option (Nat × List Byte) :=
  let flags := flags >>> 1
  if flags &&& 0x100 = 0 then (uartRead line).map fun r => (r.1 ||| 0xFF00, r.2)
  else some (flags, line)

/-- The next unit. -/
def readUnit (d : Decoder) (line : List Byte) : Option (Decoder × List Byte) := do
  let (flags, line) ← nextFlags d.flags line
  let d := { d with flags := flags }
  if flags &&& 1 ≠ 0 then
    let (c, line) ← uartRead line
    some (d.put (BitVec.ofNat 8 c), line)
  else
    let (i, line) ← uartRead line
    let (j, line) ← uartRead line
    let i := i ||| (j &&& (0xff <<< LENGTH_BITS) &&& 0xff) <<< (8 - LENGTH_BITS)
    let j := (j &&& (1 <<< LENGTH_BITS) - 1) + THRESHOLD
    some (Decoder.copy (j + 1) i d, line)

/-- The byte at `read_pos`. -/
def Decoder.take (d : Decoder) : Byte × Decoder :=
  (d.textBuf d.readPos, { d with readPos := (d.readPos + 1) % N })

/-- `decompress_get_byte`. -/
def getByte (d : Decoder) (line : List Byte) : Option (Byte × Decoder × List Byte) :=
  if d.readPos = d.writePos then
    (readUnit d line).map fun r => (r.1.take.1, r.1.take.2, r.2)
  else some (d.take.1, d.take.2, line)

/-- The results of `n` calls of `decompress_get_byte`. -/
def pull : Nat → Decoder → List Byte → Option (List Byte × Decoder × List Byte)
  | 0, d, line => some ([], d, line)
  | n + 1, d, line => do
      let (c, d, line) ← getByte d line
      let (cs, d, line) ← pull n d line
      some (c :: cs, d, line)

/-! ### The ring buffer -/

variable {txt : Nat → Byte} {d : Decoder} {j k n : Nat}

/-- The text up to `e` is in the buffer, and the text up to `r` has been returned. -/
structure Decoder.At (txt : Nat → Byte) (r e : Nat) (d : Decoder) : Prop where
  write : d.writePos = e % N
  read : d.readPos = r % N
  text : ∀ i, i < e → e ≤ i + N → d.textBuf (i % N) = txt i

theorem Decoder.At.put {r e : Nat} (h : d.At txt r e) : (d.put (txt e)).At txt r (e + 1) where
  write := by
    change (d.writePos + 1) % N = _
    rw [h.write]
    unfold N
    omega
  read := h.read
  text := by
    intro i hi hwindow
    change Function.update d.textBuf d.writePos (txt e) (i % N) = txt i
    rw [h.write]
    rcases Nat.lt_succ_iff_lt_or_eq.mp hi with hlt | rfl
    · have hne : i % N ≠ e % N := by
        unfold N at *
        omega
      rw [Function.update_of_ne hne]
      exact h.text i hlt (by omega)
    · rw [Function.update_self]

/-- A string of the buffer is copied, also where it runs into its copy. -/
theorem Decoder.At.copy {r e a : Nat} (h : d.At txt r e) (ha : a < e) (hwindow : e ≤ a + N)
    (hk : k % N = a % N)
    (hequal : ∀ i, i < n → txt (a + i) = txt (e + i)) : (Decoder.copy n k d).At txt r (e + n) := by
  induction n generalizing d e a k with
  | zero => exact h
  | succ n ih =>
    -- the byte that is read has been written before, perhaps by this loop
    rw [Decoder.copy]
    have hbyte : d.textBuf (k % N) = txt e := by
      rw [hk, h.text a ha hwindow]
      exact hequal 0 (Nat.succ_pos n)
    rw [hbyte]
    have hnext := ih (a := a + 1) h.put (by omega) (by omega) (k := k + 1)
      (by unfold N at *; omega) (fun i hi => ?_)
    · rw [add_assoc, add_comm 1] at hnext
      exact hnext
    · have heq := hequal (i + 1) (by omega)
      rw [add_assoc a, add_comm 1, add_assoc e, add_comm 1]
      exact heq

theorem Decoder.copy_flags : (Decoder.copy n k d).flags = d.flags := by
  induction n generalizing d k with
  | zero => rfl
  | succ n ih => exact ih

/-! ### The flags -/

theorem and_bit_eight (n : Nat) : n &&& 0x100 = 0 ↔ n / 256 % 2 = 0 := by
  have hand : n &&& 2 ^ 8 = (n.testBit 8).toNat * 2 ^ 8 := Nat.and_two_pow n 8
  have hbit : n.testBit 8 = decide (n / 2 ^ 8 % 2 = 1) := Nat.testBit_eq_decide_div_mod_eq
  change n &&& 2 ^ 8 = 0 ↔ n / 2 ^ 8 % 2 = 0
  rw [hand, hbit]
  simp

theorem or_count {c : Nat} (hc : c < 256) : c ||| 0xFF00 = c + 0xFF00 := by
  have hpow : c < 2 ^ 8 := hc
  have hor := Nat.two_pow_add_eq_or_of_lt hpow 255
  rw [Nat.or_comm]
  change 2 ^ 8 * 255 ||| c = _
  omega

theorem count_div {m : Nat} (hm : m ≤ 8) : 0xFF00 / 2 ^ m = 255 * 2 ^ (8 - m) := by
  revert m
  decide

/-- The next unit of a group has its flags in the register. -/
theorem nextFlags_of_units {u : Token} {us : List Token} {m flags : Nat} {line : List Byte}
    (hflags : flags / 2 = flagsOf (u :: us) + 0xFF00 / 2 ^ m) (hlength : us.length + 1 + m ≤ 8) :
    nextFlags flags line = some (flagsOf (u :: us) + 0xFF00 / 2 ^ m, line) := by
  have hlt := flagsOf_lt (u :: us)
  have hle : 2 ^ (u :: us).length ≤ 2 ^ (8 - m) :=
    Nat.pow_le_pow_right two_pos (by rw [List.length_cons]; omega)
  have hbit : ¬ (flagsOf (u :: us) + 0xFF00 / 2 ^ m) &&& 0x100 = 0 := by
    rw [and_bit_eight, count_div (by omega)]
    generalize flagsOf (u :: us) = x at *
    have hm : m < 8 := by omega
    interval_cases m <;> omega
  unfold nextFlags
  rw [Nat.shiftRight_one, hflags]
  exact if_neg hbit

theorem nextFlags_of_end {flags : Nat} {c : Byte} {line : List Byte}
    (hend : flags / 2 / 256 % 2 = 0) :
    nextFlags flags (c :: line) = some (c.toNat + 0xFF00, line) := by
  unfold nextFlags
  rw [Nat.shiftRight_one]
  refine (if_pos ((and_bit_eight _).mpr hend)).trans ?_
  rw [uartRead, Option.map_some, or_count c.isLt]

/-- The lowest flag is that of the unit. -/
theorem flag_of_units {u : Token} {us : List Token} {m : Nat} (hm : m ≤ 7) :
    (flagsOf (u :: us) + 0xFF00 / 2 ^ m) &&& 1 = u.flag := by
  have hflag := flag_le u
  rw [Nat.and_one_is_mod, flagsOf]
  interval_cases m <;> omega

theorem flags_next {u : Token} {us : List Token} {m : Nat} (hm : m ≤ 7) :
    (flagsOf (u :: us) + 0xFF00 / 2 ^ m) / 2 = flagsOf us + 0xFF00 / 2 ^ (m + 1) := by
  have hflag := flag_le u
  rw [flagsOf]
  interval_cases m <;> omega

/-! ### A unit -/

theorem high_position {j : Nat} (hj : j < 256) :
    (j &&& (0xff <<< LENGTH_BITS) &&& 0xff) <<< (8 - LENGTH_BITS) = 256 * (j / 64) := by
  have hall : ∀ j : Fin 256, (j.val &&& (0xff <<< LENGTH_BITS) &&& 0xff) <<< (8 - LENGTH_BITS) =
      256 * (j.val / 64) := by
    decide +kernel
  exact hall ⟨j, hj⟩

theorem low_length (j : Nat) : j &&& (1 <<< LENGTH_BITS) - 1 = j % 64 :=
  Nat.and_two_pow_sub_one_eq_mod j 6

theorem or_position (h : Nat) {i : Nat} (hi : i < 256) : i ||| 256 * h = 256 * h + i := by
  have hpow : i < 2 ^ 8 := hi
  rw [Nat.or_comm]
  exact (Nat.two_pow_add_eq_or_of_lt hpow h).symm

theorem pair_position {position length : Nat} (hposition : position < N) (hlow : THRESHOLD < length)
    (hhigh : length ≤ F) {i j : Byte} (hpair : pair position length = [i, j]) :
    i.toNat ||| (j.toNat &&& (0xff <<< LENGTH_BITS) &&& 0xff) <<< (8 - LENGTH_BITS) = position ∧
      (j.toNat &&& (1 <<< LENGTH_BITS) - 1) + THRESHOLD + 1 = length := by
  have hsecond := second_toNat hposition hlow hhigh
  obtain ⟨rfl, hj⟩ := List.cons.inj hpair
  obtain ⟨rfl, -⟩ := List.cons.inj hj
  rw [high_position (BitVec.isLt _), low_length, hsecond, or_position _ (BitVec.isLt _),
    BitVec.toNat_ofNat]
  unfold N THRESHOLD F at *
  omega

theorem Token.length_pos {u : Token} (h : u.Sound txt j) : 1 ≤ u.length ∧ u.length ≤ F := by
  cases u with
  | literal c => exact ⟨le_refl 1, (by decide : 1 ≤ F)⟩
  | copy position length =>
    obtain ⟨a, -, -, -, hlow, hhigh, -⟩ := h
    exact ⟨Nat.one_le_of_lt hlow, hhigh⟩

/-- A unit extends the text in the buffer by the text that it stands for. -/
theorem readUnit_of_sound {u : Token} {e f : Nat} {line rest : List Byte} (hat : d.At txt e e)
    (hsound : u.Sound txt e) (hflags : nextFlags d.flags line = some (f, u.bytes ++ rest))
    (hflag : f &&& 1 = u.flag) :
    ∃ d', readUnit d line = some (d', rest) ∧ d'.At txt e (e + u.length) ∧ d'.flags = f := by
  have hat' : Decoder.At txt e e { d with flags := f } := ⟨hat.write, hat.read, hat.text⟩
  cases u with
  | literal c =>
    refine ⟨Decoder.put { d with flags := f } c, ?_, ?_, rfl⟩
    · have hone : f &&& 1 ≠ 0 := by
        rw [hflag]
        exact one_ne_zero
      simp only [readUnit, hflags, Option.bind_eq_bind, Option.bind_some, if_pos hone, Token.bytes,
        List.cons_append, List.nil_append, uartRead, BitVec.ofNat_toNat, BitVec.setWidth_eq]
    · have hc : c = txt e := hsound
      rw [hc]
      exact hat'.put
  | copy position length =>
    obtain ⟨a, ha, hbefore, hwindow, hlow, hhigh, hequal⟩ := hsound
    have hposition : position < N := ha ▸ Nat.mod_lt a (by decide)
    obtain ⟨hi, hj⟩ := pair_position hposition hlow hhigh rfl
    refine ⟨Decoder.copy length position { d with flags := f }, ?_, ?_, Decoder.copy_flags⟩
    · have hzero : ¬ f &&& 1 ≠ 0 := not_not.mpr hflag
      simp only [readUnit, hflags, Option.bind_eq_bind, Option.bind_some, if_neg hzero, Token.bytes,
        pair, List.cons_append, List.nil_append, uartRead, hi, hj]
    · refine hat'.copy hbefore ?_ ?_ hequal
      · unfold N F at *
        omega
      · rw [← ha, Nat.mod_mod]

/-! ### Calls of `decompress_get_byte` -/

/-- The text of length `n` at `j`. -/
def text (txt : Nat → Byte) (j n : Nat) : List Byte := (List.range n).map fun i => txt (j + i)

theorem text_add (txt : Nat → Byte) (j m n : Nat) :
    text txt j (m + n) = text txt j m ++ text txt (j + m) n := by
  simp [text, List.range_add, add_assoc]

theorem text_succ (txt : Nat → Byte) (j n : Nat) :
    text txt j (n + 1) = txt j :: text txt (j + 1) n := by
  rw [add_comm n, text_add]
  rfl

theorem pull_add {m : Nat} {line line' : List Byte} {d' : Decoder} {cs : List Byte}
    (hpull : pull m d line = some (cs, d', line')) (n : Nat) :
    pull (m + n) d line = (pull n d' line').map fun r => (cs ++ r.1, r.2) := by
  induction m generalizing d line cs with
  | zero =>
    obtain ⟨rfl, rfl, rfl⟩ : [] = cs ∧ d = d' ∧ line = line' := by
      simpa [pull] using hpull
    rw [zero_add]
    cases pull n d line <;> rfl
  | succ m ih =>
    rw [Nat.succ_add, pull]
    rw [pull] at hpull
    cases hget : getByte d line with
    | none => simp [hget] at hpull
    | some r =>
      obtain ⟨c, d₁, line₁⟩ := r
      cases hrest : pull m d₁ line₁ with
      | none => simp [hget, hrest] at hpull
      | some r' =>
        obtain ⟨cs', d₂, line₂⟩ := r'
        obtain ⟨rfl, rfl, rfl⟩ : c :: cs' = cs ∧ d₂ = d' ∧ line₂ = line' := by
          simpa [hget, hrest] using hpull
        simp only [Option.bind_eq_bind, Option.bind_some, ih hrest]
        cases pull n d₂ line₂ <;> rfl

/-- What is in the buffer is returned without reading from the line. -/
theorem pull_buffer {r e : Nat} (h : d.At txt r e) (hn : r + n ≤ e) (he : e < r + N)
    (line : List Byte) :
    ∃ d', pull n d line = some (text txt r n, d', line) ∧ d'.At txt (r + n) e ∧
      d'.flags = d.flags := by
  induction n generalizing d r with
  | zero => exact ⟨d, rfl, h, rfl⟩
  | succ n ih =>
    have hne : d.readPos ≠ d.writePos := by
      rw [h.read, h.write]
      unfold N at *
      omega
    have htake : d.take.2.At txt (r + 1) e := by
      refine ⟨h.write, ?_, h.text⟩
      change (d.readPos + 1) % N = _
      rw [h.read]
      unfold N
      omega
    have hbyte : d.take.1 = txt r := by
      change d.textBuf d.readPos = _
      rw [h.read]
      exact h.text r (by omega) he.le
    obtain ⟨d', hpull, hat, hflags⟩ := ih htake (by omega) (by omega)
    refine ⟨d', ?_, ?_, hflags⟩
    · rw [pull, getByte, if_neg hne]
      simp only [Option.bind_eq_bind, Option.bind_some, hpull, hbyte, text_succ]
    · rw [add_assoc, add_comm 1] at hat
      exact hat

theorem pull_unit {u : Token} {e f : Nat} {line rest : List Byte} (hat : d.At txt e e)
    (hsound : u.Sound txt e) (hflags : nextFlags d.flags line = some (f, u.bytes ++ rest))
    (hflag : f &&& 1 = u.flag) :
    ∃ d', pull u.length d line = some (text txt e u.length, d', rest) ∧
      d'.At txt (e + u.length) (e + u.length) ∧ d'.flags = f := by
  obtain ⟨hpos, hle⟩ := Token.length_pos hsound
  obtain ⟨d₁, hread, hat₁, hflags₁⟩ := readUnit_of_sound hat hsound hflags hflag
  have hend : e + u.length < e + N := by
    unfold N F at *
    omega
  obtain ⟨d', hpull, hat', hflags'⟩ := pull_buffer hat₁ (le_refl _) hend rest
  refine ⟨d', ?_, hat', hflags'.trans hflags₁⟩
  -- the first call reads the unit, and goes on like a call with the unit in the buffer
  have hempty : d.readPos = d.writePos := hat.read.trans hat.write.symm
  have hfull : d₁.readPos ≠ d₁.writePos := by
    rw [hat₁.read, hat₁.write]
    unfold N at *
    omega
  have hget : getByte d line = getByte d₁ rest := by
    rw [getByte, getByte, if_pos hempty, if_neg hfull, hread]
    rfl
  obtain ⟨n, hn⟩ := Nat.exists_eq_add_of_le' hpos
  rw [hn] at hpull ⊢
  rw [pull, hget]
  exact hpull

/-! ### Groups of units -/

/-- A unit and what the units behind it give. -/
theorem pull_cons {u : Token} {us : List Token} {e m F : Nat} {line line' rest : List Byte}
    (hat : d.At txt e e) (hu : u.Sound txt e) (hm : m ≤ 7)
    (hnext : nextFlags d.flags line = some (flagsOf (u :: us) + 0xFF00 / 2 ^ m, u.bytes ++ line'))
    (htail : ∀ d₁ : Decoder, d₁.At txt (e + u.length) (e + u.length) →
      d₁.flags / 2 = flagsOf us + 0xFF00 / 2 ^ (m + 1) →
      ∃ d', pull (total us) d₁ line' = some (text txt (e + u.length) (total us), d', rest) ∧
        d'.At txt (e + u.length + total us) (e + u.length + total us) ∧ d'.flags / 2 = F) :
    ∃ d', pull (total (u :: us)) d line = some (text txt e (total (u :: us)), d', rest) ∧
      d'.At txt (e + total (u :: us)) (e + total (u :: us)) ∧ d'.flags / 2 = F := by
  obtain ⟨d₁, hpull₁, hat₁, hflags₁⟩ := pull_unit hat hu hnext (flag_of_units hm)
  obtain ⟨d', hpull, hat', hflags'⟩ := htail d₁ hat₁ (hflags₁ ▸ flags_next hm)
  have htotal : total (u :: us) = u.length + total us := by simp [total]
  refine ⟨d', ?_, ?_, hflags'⟩
  · rw [htotal, pull_add hpull₁, hpull, Option.map_some, text_add]
  · rw [htotal, ← add_assoc]
    exact hat'

theorem pull_units {us : List Token} {e m : Nat} {rest : List Byte} (hat : d.At txt e e)
    (hsound : Sound txt e us) (hflags : d.flags / 2 = flagsOf us + 0xFF00 / 2 ^ m)
    (hlength : us.length + m ≤ 8) :
    ∃ d', pull (total us) d (us.flatMap Token.bytes ++ rest) =
      some (text txt e (total us), d', rest) ∧
      d'.At txt (e + total us) (e + total us) ∧ d'.flags / 2 = 0xFF00 / 2 ^ (m + us.length) := by
  induction us generalizing d e m with
  | nil => exact ⟨d, rfl, hat, hflags.trans (zero_add _)⟩
  | cons u us ih =>
    rw [List.length_cons] at hlength
    obtain ⟨hu, hus⟩ := hsound
    rw [List.length_cons, add_comm us.length, ← add_assoc]
    refine pull_cons hat hu (by omega) ?_ fun d₁ hat₁ harmed => ih hat₁ hus harmed (by omega)
    rw [List.flatMap_cons, List.append_assoc]
    exact nextFlags_of_units hflags hlength

theorem pull_group {us : List Token} {e : Nat} (rest : List Byte) (hat : d.At txt e e)
    (hsound : Sound txt e us) (hend : d.flags / 2 / 256 % 2 = 0) (hne : us ≠ [])
    (hlength : us.length ≤ 8) :
    ∃ d', pull (total us) d (group us ++ rest) = some (text txt e (total us), d', rest) ∧
      d'.At txt (e + total us) (e + total us) ∧ d'.flags / 2 = 0xFF00 / 2 ^ us.length := by
  cases us with
  | nil => exact absurd rfl hne
  | cons u us =>
    obtain ⟨hu, hus⟩ := hsound
    have hbyte : (BitVec.ofNat 8 (flagsOf (u :: us))).toNat = flagsOf (u :: us) := by
      have hlt := flagsOf_lt (u :: us)
      have hle : 2 ^ (u :: us).length ≤ 2 ^ 8 := Nat.pow_le_pow_right Nat.two_pos hlength
      rw [BitVec.toNat_ofNat]
      exact Nat.mod_eq_of_lt (by omega)
    rw [List.length_cons] at hlength ⊢
    rw [add_comm us.length]
    refine pull_cons hat hu (Nat.zero_le 7) ?_ fun d₁ hat₁ harmed =>
      pull_units hat₁ hus harmed (by omega)
    rw [group, List.cons_append, nextFlags_of_end hend, hbyte, List.flatMap_cons, List.append_assoc]
    rfl

theorem pull_groups {gs : List (List Token)} {e : Nat} (rest : List Byte) (hat : d.At txt e e)
    (hsound : Sound txt e gs.flatten) (hend : d.flags / 2 / 256 % 2 = 0)
    (hfull : ∀ g ∈ gs, g.length = 8) :
    ∃ d', pull (total gs.flatten) d (gs.flatMap group ++ rest) =
        some (text txt e (total gs.flatten), d', rest) ∧
      d'.At txt (e + total gs.flatten) (e + total gs.flatten) ∧ d'.flags / 2 / 256 % 2 = 0 := by
  induction gs generalizing d e with
  | nil => exact ⟨d, rfl, hat, hend⟩
  | cons g gs ih =>
    have hg := hfull g List.mem_cons_self
    rw [List.flatten_cons, sound_append] at hsound
    have hne : g ≠ [] := by
      rintro rfl
      exact absurd hg (by decide)
    obtain ⟨d₁, hpull₁, hat₁, hflags₁⟩ :=
      pull_group (gs.flatMap group ++ rest) hat hsound.1 hend hne hg.le
    have hend₁ : d₁.flags / 2 / 256 % 2 = 0 := by
      rw [hflags₁, hg]
      rfl
    obtain ⟨d', hpull, hat', hend'⟩ :=
      ih hat₁ hsound.2 hend₁ fun g' hg' => hfull g' (List.mem_cons_of_mem _ hg')
    refine ⟨d', ?_, ?_, hend'⟩
    · rw [List.flatMap_cons, List.append_assoc, List.flatten_cons, total_append,
        pull_add hpull₁, hpull,
        Option.map_some, text_add]
    · rw [List.flatten_cons, total_append, ← add_assoc]
      exact hat'

theorem readUnit_nil (d : Decoder) : readUnit d [] = none := by
  unfold readUnit nextFlags
  by_cases hbit : d.flags >>> 1 &&& 0x100 = 0
  · simp only [if_pos hbit]
    rfl
  · simp only [if_neg hbit, Option.bind_eq_bind, Option.bind_some]
    split <;> rfl

/-- Behind the last unit the decompression waits for the line. -/
theorem Decoder.At.getByte_nil {e : Nat} (hat : d.At txt e e) : getByte d [] = none := by
  have hempty : d.readPos = d.writePos := hat.read.trans hat.write.symm
  rw [getByte, if_pos hempty, readUnit_nil]
  rfl

/-- **The decompression of sound units returns the text that they stand for, and nothing else.** -/
theorem pull_stream {gs : List (List Token)} {us : List Token} {e : Nat} (hat : d.At txt e e)
    (hsound : Sound txt e (gs.flatten ++ us)) (hend : d.flags / 2 / 256 % 2 = 0)
    (hfull : ∀ g ∈ gs, g.length = 8) (hlength : us.length ≤ 8) :
    ∃ d', pull (total (gs.flatten ++ us)) d (gs.flatMap group ++ if us = [] then [] else group us) =
        some (text txt e (total (gs.flatten ++ us)), d', []) ∧ getByte d' [] = none := by
  obtain ⟨hgs, hus⟩ := sound_append.mp hsound
  obtain ⟨d₁, hpull₁, hat₁, hend₁⟩ :=
    pull_groups (if us = [] then [] else group us) hat hgs hend hfull
  rw [total_append, pull_add hpull₁, text_add]
  by_cases hnil : us = []
  · subst hnil
    exact ⟨d₁, rfl, hat₁.getByte_nil⟩
  · obtain ⟨d', hpull, hat', -⟩ := pull_group [] hat₁ hus hend₁ hnil hlength
    rw [List.append_nil] at hpull
    rw [if_neg hnil, hpull]
    exact ⟨d', rfl, hat'.getByte_nil⟩

theorem at_decompressInit (htxt : ∀ j, j < N - F → txt j = 0x20) :
    decompressInit.At txt (N - F) (N - F) where
  write := by decide
  read := by decide
  text := by
    intro i hi _
    have hlt : i % N < N - F := by
      unfold N F at *
      omega
    change (if i % N < N - F then (0x20 : Byte) else 0) = _
    rw [if_pos hlt, htxt i hi]

end Patmos.Compression
