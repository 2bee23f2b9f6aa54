import Mathlib.Tactic.IntervalCases
import Patmos.CompressionTrees
import Patmos.Decompression

/-!
# The compressed text is the text

The stream keeps its place `A` in the text: the bytes before `A` are the ones to find matches in,
and the next `currLen` bytes are to be compressed.  Its buffer holds a window of the text around
`A`, its trees hold strings that begin in the window, and the units that it has emitted stand for
the text before some place.
-/

namespace Patmos.Compression

open ArrayForest
open Function (update update_of_ne update_self)

variable {txt : Nat → Byte} {textBuf : Nat → Byte} {t : Trees} {s : State} {A a i lo hi : Nat}

/-! ### The buffer -/

/-- The text from `lo` to `hi` is in the ring buffer, and its first bytes are repeated behind the
    end. -/
structure Window (txt : Nat → Byte) (lo hi : Nat) (textBuf : Nat → Byte) : Prop where
  text : ∀ j, lo ≤ j → j < hi → textBuf (j % N) = txt j
  copy : ∀ j, lo ≤ j → j < hi → N ≤ j → j % N < F - 1 → textBuf (j % N + N) = txt j

theorem Window.read (h : Window txt lo hi textBuf) (hlo : lo ≤ a + i) (hhi : a + i < hi)
    (hi : i < F) :
    textBuf (a % N + i) = txt (a + i) := by
  by_cases hwrap : a % N + i < N
  · have hmod : (a + i) % N = a % N + i := by
      unfold N at *
      omega
    rw [← hmod]
    exact h.text _ hlo hhi
  · have hmod : a % N + i = (a + i) % N + N := by
      unfold N F at *
      omega
    rw [hmod]
    exact h.copy _ hlo hhi (by unfold N at *; omega) (by unfold N F at *; omega)

theorem Window.fill (h : Window txt lo hi textBuf) (hhi : hi < N) :
    Window txt lo (hi + 1) (update textBuf hi (txt hi)) where
  text := by
    intro j hlo hj
    rw [Nat.mod_eq_of_lt (by omega)]
    rcases Nat.lt_succ_iff_lt_or_eq.mp hj with hlt | rfl
    · have htext := h.text j hlo hlt
      rw [Nat.mod_eq_of_lt (by omega)] at htext
      rw [update_of_ne (by omega), htext]
    · rw [update_self]
  copy := by
    intro j hlo hj hN
    omega

/-- The buffer after a byte is written in the place of the oldest one. -/
def overwrite (textBuf : Nat → Byte) (killPos : Nat) (b : Byte) : Nat → Byte :=
  if killPos < F - 1 then Function.update (Function.update textBuf killPos b) (killPos + N) b
  else Function.update textBuf killPos b

theorem overwrite_of_ne {killPos x : Nat} {b : Byte} (hx : x ≠ killPos) (hx' : x ≠ killPos + N) :
    overwrite textBuf killPos b x = textBuf x := by
  unfold overwrite
  split
  · rw [update_of_ne hx', update_of_ne hx]
  · rw [update_of_ne hx]

theorem overwrite_self {killPos : Nat} {b : Byte} : overwrite textBuf killPos b killPos = b := by
  unfold overwrite
  split
  · rw [update_of_ne (by unfold N; omega), update_self]
  · rw [update_self]

theorem overwrite_copy {killPos : Nat} {b : Byte} (h : killPos < F - 1) :
    overwrite textBuf killPos b (killPos + N) = b := by
  rw [overwrite, if_pos h, update_self]

theorem Window.slide (h : Window txt lo hi textBuf) (hsize : hi = lo + N) :
    Window txt (lo + 1) (hi + 1) (overwrite textBuf (hi % N) (txt hi)) where
  text := by
    intro j hlo hj
    rcases Nat.lt_succ_iff_lt_or_eq.mp hj with hlt | rfl
    · rw [overwrite_of_ne (by unfold N at *; omega) (by unfold N at *; omega)]
      exact h.text j (by omega) hlt
    · exact overwrite_self
  copy := by
    intro j hlo hj hN hcopy
    rcases Nat.lt_succ_iff_lt_or_eq.mp hj with hlt | rfl
    · rw [overwrite_of_ne (by unfold N at *; omega) (by unfold N at *; omega)]
      exact h.copy j (by omega) hlt hN hcopy
    · exact overwrite_copy hcopy

/-! ### The trees -/

/-- The strings in the trees begin in the window. -/
def Within (lo hi : Nat) (t : Trees) : Prop := ∀ x, In t x → ∃ a, lo ≤ a ∧ a < hi ∧ a % N = x

/-- Bytes that do not begin a string can be changed. -/
theorem Ok.congr {textBuf' : Nat → Byte} (h : Ok textBuf t)
    (hsame : ∀ x, In t x → textBuf' x = textBuf x) : Ok textBuf' t := by
  have hkey : ∀ b q, Slot N t.forest b q → key textBuf' q = key textBuf q := by
    rintro b q (hq | hq)
    · rw [key_of_lt hq.1, key_of_lt hq.1, hsame q hq]
    · rw [key, key, if_neg (by omega), if_neg (by omega)]
  refine ⟨h.up, h.down, h.apart, fun x hx => ?_, h.depth⟩
  obtain ⟨b, hs, -⟩ := h.up x hx
  rw [hkey b _ hs, hkey true x (Or.inl hx)]
  exact h.key_eq x hx

/-- The oldest string is taken out. -/
theorem Within.leave (hok : Ok textBuf t) (h : Within (A - (N - F)) (A + 1) t) (hA : N - F ≤ A) :
    ∃ t', deleteNode t ((A + F) % N) = some t' ∧ Ok textBuf t' ∧
      Within (A + 1 - (N - F)) (A + 1) t' ∧
      ¬ In t' ((A + F) % N) := by
  obtain ⟨t', hdelete, hok', hin⟩ := hok.deleteNode ((A + F) % N) (Nat.mod_lt _ (by decide))
  refine ⟨t', hdelete, hok', fun x hx => ?_, fun hx => ((hin _).mp hx).2 rfl⟩
  obtain ⟨hx, hne⟩ := (hin x).mp hx
  obtain ⟨a, hlo, hhi, rfl⟩ := h x hx
  refine ⟨a, ?_, hhi, rfl⟩
  by_contra hlt
  refine hne ?_
  unfold N F at *
  omega

/-- The string at `A` is put in, and matches with it are found in the window. -/
theorem Within.enter (hok : Ok textBuf t) (h : Within (A - (N - F)) A t) :
    ∃ t', insertNode textBuf t (A % N) = some t' ∧ Ok textBuf t' ∧ Within (A - (N - F)) (A + 1) t' ∧
      Found textBuf (fun x => ∃ a, A - (N - F) ≤ a ∧ a < A ∧ a % N = x) (A % N) t' := by
  have hout : t.parent (A % N) = NIL := by
    by_contra hne
    obtain ⟨a, hlo, hhi, heq⟩ := h (A % N) ⟨Nat.mod_lt _ (by decide), hne⟩
    unfold N F at *
    omega
  obtain ⟨t', hinsert, hok', hin, hfound⟩ := hok.insertNode (Nat.mod_lt _ (by decide)) hout
  refine ⟨t', hinsert, hok', fun x hx => ?_, ?_⟩
  · rcases hin x hx with hx | rfl
    · obtain ⟨a, hlo, hhi, heq⟩ := h x hx
      exact ⟨a, hlo, by omega, heq⟩
    · exact ⟨A, by omega, by omega, rfl⟩
  · rcases hfound with hzero | ⟨hposition, hmatch⟩
    · exact Or.inl hzero
    · exact Or.inr ⟨h _ hposition, hmatch⟩

/-- The match that was found is a string of the text before `A`, as far as the text goes. -/
def Matches (txt : Nat → Byte) (A len : Nat) (t : Trees) : Prop :=
  t.matchLength = 0 ∨ ∃ a, a % N = t.matchPosition ∧ a < A ∧ A ≤ a + (N - F) ∧ t.matchLength ≤ F ∧
    ∀ i, i < t.matchLength → i < len → txt (a + i) = txt (A + i)

theorem Window.matches {len : Nat} (h : Window txt (A - (N - F)) (A + len) textBuf)
    (hfound : Found textBuf (fun x => ∃ a, A - (N - F) ≤ a ∧ a < A ∧ a % N = x) (A % N) t) :
    Matches txt A len t := by
  rcases hfound with hzero | ⟨⟨a, hlo, hlt, hposition⟩, hle, hequal⟩
  · exact Or.inl hzero
  · refine Or.inr ⟨a, hposition, hlt, by omega, hle, fun i hi hlen => ?_⟩
    have hbytes := hequal i hi
    rw [← hposition, h.read (by omega) (by omega) (by omega),
      h.read (by omega) (by omega) (by omega)]
      at hbytes
    exact hbytes.symm

/-! ### The units -/

/-- The unit that `encode` chooses. -/
def unit (s : State) : Token :=
  if min s.trees.matchLength s.currLen ≤ THRESHOLD then .literal (s.textBuf s.currPos)
  else .copy s.trees.matchPosition (min s.trees.matchLength s.currLen)

/-- A unit is added to the buffer, and the buffer is emptied when it has eight. -/
def pack (u : Token) (s : State) : State :=
  let s := { s with
    flags := if u.flag = 1 then s.flags ||| s.codeMask else s.flags
    units := s.units ++ u.bytes, codeMask := s.codeMask <<< 1 }
  if s.codeMask = 0 then flushBuffer s else s

theorem pack_eq (u : Token) (s : State) :
    pack u s = { s with
      flags := (pack u s).flags, units := (pack u s).units, codeMask := (pack u s).codeMask
      out := (pack u s).out } := by
  unfold pack flushBuffer
  dsimp only
  split
  · split <;> rfl
  · rfl

theorem pack_trees (u : Token) (s : State) (t : Trees) :
    pack u { s with trees := t } = { pack u s with trees := t } := by
  unfold pack flushBuffer
  dsimp only
  split
  · split <;> rfl
  · rfl

theorem encode_eq (h : s.currLen ≠ 0) :
    encode s = { pack (unit s) s with
      trees := { s.trees with matchLength := (unit s).length },
      lastMatchLength := (unit s).length } := by
  have hmin : (if s.trees.matchLength > s.currLen then s.currLen else s.trees.matchLength)
      = min s.trees.matchLength s.currLen := by
    split <;> omega
  have hpack := pack_trees (unit s) s { s.trees with matchLength := (unit s).length }
  unfold encode
  rw [if_neg h, hmin]
  by_cases hliteral : min s.trees.matchLength s.currLen ≤ THRESHOLD
  · have hunit : unit s = .literal (s.textBuf s.currPos) := if_pos hliteral
    rw [hunit] at hpack ⊢
    simp only [hliteral, decide_true, if_true]
    exact congrArg (fun p : State => { p with lastMatchLength := 1 }) hpack
  · have hunit : unit s = .copy s.trees.matchPosition (min s.trees.matchLength s.currLen) :=
      if_neg hliteral
    rw [hunit] at hpack ⊢
    simp only [hliteral, decide_false, Bool.false_eq_true, if_false]
    exact congrArg
      (fun p : State => { p with lastMatchLength := min s.trees.matchLength s.currLen }) hpack

/-- The stream has emitted the groups `gs` and has the units `us` in its buffer. -/
structure Packed (gs : List (List Token)) (us : List Token) (s : State) : Prop where
  out : s.out = gs.flatMap group
  flags : s.flags = BitVec.ofNat 8 (flagsOf us)
  units : s.units = us.flatMap Token.bytes
  mask : s.codeMask = BitVec.ofNat 8 (2 ^ us.length)
  short : us.length < 8
  full : ∀ g ∈ gs, g.length = 8

theorem bytes_ne_nil (u : Token) : u.bytes ≠ [] := by
  cases u with
  | literal c | copy position length => exact List.cons_ne_nil _ _

theorem shift_mask {k : Nat} (hk : k < 8) :
    (BitVec.ofNat 8 (2 ^ k)) <<< 1 = BitVec.ofNat 8 (2 ^ (k + 1)) := by
  interval_cases k <;> rfl

theorem mask_eq_zero {k : Nat} (hk : k < 8) : BitVec.ofNat 8 (2 ^ (k + 1)) = 0 ↔ k = 7 := by
  interval_cases k <;> decide

theorem flags_append (us : List Token) (u : Token) :
    (if u.flag = 1 then BitVec.ofNat 8 (flagsOf us) ||| BitVec.ofNat 8 (2 ^ us.length)
      else BitVec.ofNat 8 (flagsOf us)) = BitVec.ofNat 8 (flagsOf (us ++ [u])) := by
  rw [flagsOf_append]
  cases u with
  | literal c =>
    have hor := Nat.two_pow_add_eq_or_of_lt (flagsOf_lt us) 1
    rw [Nat.mul_one] at hor
    rw [Token.flag, if_pos rfl, Nat.one_mul, add_comm, hor, Nat.lor_comm, BitVec.ofNat_or]
  | copy position length => simp [Token.flag]

theorem Packed.pack {gs : List (List Token)} {us : List Token} (h : Packed gs us s) (u : Token) :
    ∃ gs' us', Packed gs' us' (pack u s) ∧ gs'.flatten ++ us' = gs.flatten ++ us ++ [u] := by
  have hflags : (if u.flag = 1 then s.flags ||| s.codeMask else s.flags)
      = BitVec.ofNat 8 (flagsOf (us ++ [u])) := by
    rw [h.flags, h.mask, flags_append]
  have hunits : s.units ++ u.bytes = (us ++ [u]).flatMap Token.bytes := by
    rw [h.units]
    simp
  have hmask : s.codeMask <<< 1 = BitVec.ofNat 8 (2 ^ (us.length + 1)) := by
    rw [h.mask, shift_mask h.short]
  unfold Compression.pack
  dsimp only
  rw [hflags, hunits, hmask]
  by_cases hlast : us.length = 7
  · have hne : (us ++ [u]).flatMap Token.bytes ≠ [] := by
      rw [← hunits]
      exact List.append_ne_nil_of_right_ne_nil _ (bytes_ne_nil u)
    rw [if_pos ((mask_eq_zero h.short).mpr hlast), flushBuffer, if_pos hne]
    refine ⟨gs ++ [us ++ [u]], [], ⟨?_, rfl, rfl, rfl, by decide, fun g hg => ?_⟩, by simp⟩
    · simp [h.out, group]
    · rcases List.mem_append.mp hg with hg | hg
      · exact h.full g hg
      · rw [List.mem_singleton.mp hg, List.length_append, hlast]
        rfl
  · rw [if_neg (fun heq => hlast ((mask_eq_zero h.short).mp heq))]
    refine ⟨gs, us ++ [u], ⟨h.out, rfl, rfl, ?_, ?_, h.full⟩, by simp⟩
    · simp
    · have hshort := h.short
      rw [List.length_append, List.length_singleton]
      omega

/-- The units so far stand for the text before `E`. -/
def Emitted (txt : Nat → Byte) (E : Nat) (s : State) : Prop :=
  ∃ gs us, Packed gs us s ∧ Sound txt (N - F) (gs.flatten ++ us) ∧
    N - F + total (gs.flatten ++ us) = E

theorem Emitted.congr {s' : State} {E : Nat} (h : Emitted txt E s) (hout : s'.out = s.out)
    (hflags : s'.flags = s.flags) (hunits : s'.units = s.units) (hmask : s'.codeMask = s.codeMask) :
    Emitted txt E s' := by
  obtain ⟨gs, us, hpacked, hrest⟩ := h
  exact ⟨gs, us, ⟨hout.trans hpacked.out, hflags.trans hpacked.flags, hunits.trans hpacked.units,
    hmask.trans hpacked.mask, hpacked.short, hpacked.full⟩, hrest⟩

/-! ### The state of a stream -/

/-- The stream is at `A`. -/
structure State.At (txt : Nat → Byte) (A : Nat) (s : State) : Prop where
  start : N - F ≤ A
  currPos : s.currPos = A % N
  killPos : s.killPos = (A + F) % N
  currLen : s.currLen ≤ F
  window : Window txt (A - (N - F)) (A + s.currLen) s.textBuf
  trees : Ok s.textBuf s.trees
  within : Within (A - (N - F)) (A + 1) s.trees

/-- The chosen unit stands for the text at `A`. -/
theorem State.At.unit (h : s.At txt A) (hlen : s.currLen ≠ 0)
    (hmatch : Matches txt A s.currLen s.trees) :
    (unit s).Sound txt A ∧ 1 ≤ (unit s).length ∧ (unit s).length ≤ s.currLen := by
  unfold Compression.unit
  split
  · have hbyte := h.window.text A (by omega) (by omega)
    rw [← h.currPos] at hbyte
    exact ⟨hbyte, Nat.le_refl 1, Nat.one_le_iff_ne_zero.mpr hlen⟩
  · rename_i hlong
    rcases hmatch with hzero | ⟨a, hposition, hlt, hnear, hle, hequal⟩
    · rw [hzero] at hlong
      exact absurd (Nat.le_trans (Nat.min_le_left _ _) (Nat.zero_le _)) hlong
    · refine ⟨⟨a, hposition, hlt, hnear, by omega, by omega,
        fun i hi => hequal i (by omega) (by omega)⟩,
        ?_, Nat.min_le_right _ _⟩
      unfold THRESHOLD at hlong
      change 1 ≤ min s.trees.matchLength s.currLen
      omega

/-- `encode` emits a unit for the text at `A`. -/
theorem State.At.encode (h : s.At txt A) (hlen : s.currLen ≠ 0)
    (hmatch : Matches txt A s.currLen s.trees) (hemitted : Emitted txt A s) :
    (encode s).At txt A ∧ (encode s).currLen = s.currLen ∧ 1 ≤ (encode s).lastMatchLength ∧
      (encode s).lastMatchLength ≤ s.currLen ∧
      Emitted txt (A + (encode s).lastMatchLength) (encode s) := by
  obtain ⟨hsound, hpos, hle⟩ := h.unit hlen hmatch
  obtain ⟨gs, us, hpacked, hsounds, htotal⟩ := hemitted
  obtain ⟨gs', us', hpacked', hunits⟩ := hpacked.pack (Compression.unit s)
  rw [encode_eq hlen]
  refine ⟨?_, ?_, hpos, hle, gs', us', ?_, ?_, ?_⟩
  · rw [pack_eq]
    exact { h with }
  · rw [pack_eq]
  · exact { hpacked' with }
  · rw [hunits, sound_append, htotal]
    exact ⟨hsounds, hsound, trivial⟩
  · rw [hunits, total_append, ← add_assoc, htotal]
    rfl

theorem encode_writeCount (h : s.currLen ≠ 0) : (encode s).writeCount = s.writeCount := by
  rw [encode_eq h, pack_eq]

/-- Fewer than `F` bytes are written: they wait in the buffer. -/
structure Filling (txt : Nat → Byte) (s : State) : Prop where
  place : s.At txt (N - F)
  short : s.currLen < F
  empty : ∀ x, ¬ In s.trees x
  noMatch : s.trees.matchLength = 0
  noUnit : s.lastMatchLength = 0
  count : s.writeCount = 0
  emitted : Emitted txt (N - F) s

/-- The last unit reaches `lastMatchLength - writeCount` bytes beyond `A`. -/
structure Running (txt : Nat → Byte) (A : Nat) (s : State) : Prop where
  place : s.At txt A
  full : s.currLen = F
  count : s.writeCount < s.lastMatchLength
  last : s.lastMatchLength ≤ F
  emitted : Emitted txt (A + (s.lastMatchLength - s.writeCount)) s

theorem ok_of_empty (hroots : ∀ q, N < q → t.rchild q = NIL) (hempty : ∀ x, ¬ In t x) :
    Ok textBuf t where
  up x hx := absurd hx (hempty x)
  down b q hslot hne := by
    rcases hslot with hq | ⟨rfl, hq⟩
    · exact absurd hq (hempty q)
    · exact absurd (hroots q hq) hne
  apart q hq := absurd hq (hempty q)
  key_eq x hx := absurd hx (hempty x)
  depth := ⟨id, fun x hx => absurd hx (hempty x)⟩

theorem filling_init (htxt : ∀ j, j < N - F → txt j = 0x20) : Filling txt init := by
  have hempty : ∀ x, ¬ In init.trees x := by
    rintro x ⟨hx, hne⟩
    exact hne (if_pos hx)
  have hwindow : Window txt 0 (N - F) init.textBuf := by
    refine ⟨fun j _ hj => ?_, fun j _ hj hN => ?_⟩
    · rw [htxt j hj, Nat.mod_eq_of_lt (by omega)]
      exact if_pos hj
    · omega
  refine ⟨⟨Nat.le_refl _, rfl, rfl, Nat.zero_le _, hwindow, ?_, ?_⟩, by decide, hempty, rfl, rfl,
    rfl, ?_⟩
  · exact ok_of_empty (fun q hq => if_pos hq) hempty
  · exact fun x hx => absurd hx (hempty x)
  · exact ⟨[], [], ⟨rfl, rfl, rfl, rfl, by decide, by simp⟩, trivial, rfl⟩

/-! ### `write` -/

/-- The strings before the text are put in, from `i` bytes before it on. -/
theorem insertSpaces_ok {k : Nat} (hok : Ok textBuf t)
    (hnodes : ∀ x, In t x → N - F < x + i ∧ x < N - F) (hi : 1 ≤ i) (hk : i + k ≤ F + 1) :
    ∃ t', insertSpaces textBuf (N - F) k i t = some t' ∧ Ok textBuf t' ∧
      ∀ x, In t' x → N - F < x + (i + k) ∧ x < N - F := by
  induction k generalizing i t with
  | zero => exact ⟨t, rfl, hok, hnodes⟩
  | succ k ih =>
    have hlt : N - F - i < N := by
      unfold N
      omega
    have hout : t.parent (N - F - i) = NIL := by
      by_contra hne
      have hnode := hnodes (N - F - i) ⟨hlt, hne⟩
      unfold N F at *
      omega
    obtain ⟨t₁, hinsert, hok₁, hin, -⟩ := hok.insertNode hlt hout
    have hnodes₁ : ∀ x, In t₁ x → N - F < x + (i + 1) ∧ x < N - F := by
      intro x hx
      rcases hin x hx with hx | rfl
      · have hnode := hnodes x hx
        omega
      · unfold N F at *
        omega
    obtain ⟨t', hspaces, hok', hnodes'⟩ := ih hok₁ hnodes₁ (by omega) (by omega)
    refine ⟨t', ?_, hok', fun x hx => ?_⟩
    · rw [insertSpaces, hinsert]
      exact hspaces
    · have hnode := hnodes' x hx
      omega

/-- The byte goes into the buffer. -/
def store (b : Byte) (s : State) : State :=
  { s with
    textBuf := Function.update s.textBuf (s.currPos + s.currLen) b
    currLen := s.currLen + 1 }

theorem Filling.store (h : Filling txt s) {b : Byte} (hb : txt (N - F + s.currLen) = b) :
    (store b s).At txt (N - F) := by
  have hpos : s.currPos = N - F := h.place.currPos
  have hshort := h.short
  refine ⟨le_refl _, h.place.currPos, h.place.killPos, h.short, ?_, ?_, h.place.within⟩
  · have hwindow := h.place.window.fill (by unfold N F at *; omega)
    rw [hb, ← hpos] at hwindow
    rw [← hpos]
    exact hwindow
  · exact h.place.trees.congr fun x hx => absurd hx (h.empty x)

/-- The stream has a whole buffer and emits the next unit. -/
theorem Running.encode (h : s.At txt A) (hfull : s.currLen = F) (hmatch : Matches txt A F s.trees)
    (hemitted : Emitted txt A s) : Running txt A { encode s with writeCount := 0 } := by
  have hlen : s.currLen ≠ 0 := by
    rw [hfull]
    decide
  rw [← hfull] at hmatch
  obtain ⟨hplace, hsame, hpos, hle, hemitted'⟩ := h.encode hlen hmatch hemitted
  exact ⟨{ hplace with }, hsame.trans hfull, hpos, hle.trans hfull.le,
    hemitted'.congr rfl rfl rfl rfl⟩

theorem Filling.write (h : Filling txt s) {b : Byte} (hb : txt (N - F + s.currLen) = b) :
    ∃ s', write s b = some s' ∧
      (Filling txt s' ∧ s'.currLen = s.currLen + 1 ∨
        Running txt (N - F) s' ∧ s.currLen + 1 = F) := by
  have hstore := h.store hb
  have hemitted : Emitted txt (N - F) (Compression.store b s) := h.emitted.congr rfl rfl rfl rfl
  unfold Compression.write
  rw [if_pos h.short]
  by_cases hfull : s.currLen + 1 = F
  · obtain ⟨t₁, hspaces, hok₁, hnodes⟩ := insertSpaces_ok (k := F) hstore.trees
      (fun x hx => absurd hx (h.empty x)) (le_refl 1) (by omega)
    have hwithin : Within (N - F - (N - F)) (N - F) t₁ := by
      intro x hx
      exact ⟨x, by omega, (hnodes x hx).2, Nat.mod_eq_of_lt hx.1⟩
    obtain ⟨t₂, hinsert, hok₂, hwithin₂, hfound⟩ := hwithin.enter hok₁
    have hmatch : Matches txt (N - F) (s.currLen + 1) t₂ := hstore.window.matches hfound
    rw [hfull] at hmatch
    let s₁ : State := { Compression.store b s with trees := t₂ }
    have hplace : s₁.At txt (N - F) := { hstore with trees := hok₂, within := hwithin₂ }
    have hcount : { Compression.encode s₁ with writeCount := 0 } = Compression.encode s₁ := by
      have hzero : (Compression.encode s₁).writeCount = 0 :=
        (encode_writeCount (Nat.succ_ne_zero s.currLen)).trans h.count
      rw [← hzero]
    refine ⟨Compression.encode s₁, ?_, Or.inr ⟨?_, hfull⟩⟩
    · rw [if_pos hfull]
      have hpos : N - F = s.currPos := h.place.currPos.symm
      have hmod : (N - F) % N = s.currPos := h.place.currPos.symm
      rw [hpos] at hspaces
      rw [hmod] at hinsert
      change (insertSpaces (Compression.store b s).textBuf s.currPos F 1 s.trees).bind _ = _
      refine (congrArg (Option.bind · _) hspaces).trans ?_
      exact (congrArg (Option.bind · _) hinsert).trans rfl
    · rw [← hcount]
      exact Running.encode hplace hfull hmatch (hemitted.congr rfl rfl rfl rfl)
  · refine ⟨Compression.store b s, if_neg hfull, Or.inl ⟨?_, rfl⟩⟩
    have hshort := h.short
    refine ⟨hstore, ?_, h.empty, h.noMatch, h.noUnit, h.count, hemitted⟩
    change s.currLen + 1 < F
    omega

theorem mod_next {x m : Nat} (h : x = m % N) : (x + 1) % N = (m + 1) % N := by
  rw [h, Nat.mod_add_mod]

theorem Running.write (h : Running txt A s) {b : Byte} (hb : txt (A + F) = b) :
    ∃ s', write s b = some s' ∧ Running txt (A + 1) s' := by
  have hstart := h.place.start
  have hcount := h.count
  have hlast := h.last
  obtain ⟨t₁, hdelete, hok₁, hwithin₁, hout⟩ := h.place.within.leave h.place.trees h.place.start
  rw [← h.place.killPos] at hdelete hout
  have hok₁' : Ok (overwrite s.textBuf s.killPos b) t₁ := by
    refine hok₁.congr fun x hx => overwrite_of_ne (fun heq => hout (heq ▸ hx)) ?_
    have hlt := hx.1
    omega
  obtain ⟨t₂, hinsert, hok₂, hwithin₂, hfound⟩ := hwithin₁.enter hok₁'
  have hwindow : Window txt (A + 1 - (N - F)) (A + 1 + F) (overwrite s.textBuf s.killPos b) := by
    have hslide := h.place.window.slide (by rw [h.full]; unfold N F at *; omega)
    rw [h.full, hb, ← h.place.killPos] at hslide
    rw [Nat.sub_add_comm hstart, add_right_comm]
    exact hslide
  have hmatch := hwindow.matches hfound
  let s₁ : State := { s with
    textBuf := overwrite s.textBuf s.killPos b, trees := t₂, killPos := (s.killPos + 1) % N
    currPos := (s.currPos + 1) % N, writeCount := s.writeCount + 1 }
  have hplace : s₁.At txt (A + 1) := by
    refine ⟨by omega, mod_next h.place.currPos, ?_, h.place.currLen, ?_, hok₂, hwithin₂⟩
    · rw [add_right_comm]
      exact mod_next h.place.killPos
    · change Window txt _ (A + 1 + s.currLen) _
      rw [h.full]
      exact hwindow
  have hwrite : Compression.write s b
      = some (if s₁.writeCount = s₁.lastMatchLength
        then { Compression.encode s₁ with writeCount := 0 }
        else s₁) := by
    unfold Compression.write
    rw [if_neg (by rw [h.full]; omega), hdelete]
    rw [← mod_next h.place.currPos] at hinsert
    change (insertNode (overwrite s.textBuf s.killPos b) t₁ ((s.currPos + 1) % N)).bind _ = _
    exact (congrArg (Option.bind · _) hinsert).trans rfl
  refine ⟨_, hwrite, ?_⟩
  by_cases hdone : s.writeCount + 1 = s.lastMatchLength
  · rw [if_pos hdone]
    have hemitted : Emitted txt (A + 1) s := by
      have hreach : s.lastMatchLength - s.writeCount = 1 := by omega
      rw [← hreach]
      exact h.emitted
    exact Running.encode hplace h.full hmatch (hemitted.congr rfl rfl rfl rfl)
  · rw [if_neg hdone]
    have hreach : A + 1 + (s₁.lastMatchLength - s₁.writeCount) =
        A + (s.lastMatchLength - s.writeCount) := by
      change A + 1 + (s.lastMatchLength - (s.writeCount + 1)) = _
      omega
    refine ⟨hplace, h.full, ?_, h.last, ?_⟩
    · change s.writeCount + 1 < s.lastMatchLength
      omega
    · rw [hreach]
      exact h.emitted.congr rfl rfl rfl rfl

/-- The stream after `n` bytes. -/
def Phase (txt : Nat → Byte) (n : Nat) (s : State) : Prop :=
  Filling txt s ∧ s.currLen = n ∨ ∃ A, Running txt A s ∧ A + F = N - F + n

theorem Phase.write {n : Nat} (h : Phase txt n s) {b : Byte} (hb : txt (N - F + n) = b) :
    ∃ s', write s b = some s' ∧ Phase txt (n + 1) s' := by
  rcases h with ⟨h, rfl⟩ | ⟨A, h, hplace⟩
  · obtain ⟨s', hwrite, ⟨h', hlen⟩ | ⟨h', hfull⟩⟩ := h.write hb
    · exact ⟨s', hwrite, Or.inl ⟨h', hlen⟩⟩
    · exact ⟨s', hwrite, Or.inr ⟨N - F, h', by rw [hfull]⟩⟩
  · rw [← hplace] at hb
    obtain ⟨s', hwrite, h'⟩ := h.write hb
    exact ⟨s', hwrite, Or.inr ⟨A + 1, h', by omega⟩⟩

theorem Phase.run {n : Nat} (input : List Byte) (h : Phase txt n s)
    (hinput : ∀ i, i < input.length → txt (N - F + (n + i)) = input.getD i 0) :
    ∃ s', input.foldlM Compression.write s = some s' ∧ Phase txt (n + input.length) s' := by
  induction input generalizing n s with
  | nil => exact ⟨s, rfl, h⟩
  | cons b input ih =>
    obtain ⟨s₁, hwrite, h₁⟩ := h.write (hinput 0 (Nat.succ_pos _))
    have hrest : ∀ i, i < input.length → txt (N - F + (n + 1 + i)) = input.getD i 0 := by
      intro i hi
      have hbyte := hinput (i + 1) (Nat.succ_lt_succ hi)
      rw [List.getD_cons_succ] at hbyte
      rw [← hbyte, add_assoc n, add_comm 1]
    obtain ⟨s', hfold, h'⟩ := ih h₁ hrest
    refine ⟨s', ?_, ?_⟩
    · rw [List.foldlM_cons]
      exact (congrArg (Option.bind · _) hwrite).trans hfold
    · rw [List.length_cons, add_comm input.length, ← add_assoc]
      exact h'

/-! ### `finish` -/

theorem Window.mono {lo' : Nat} (h : Window txt lo hi textBuf) (hle : lo ≤ lo') :
    Window txt lo' hi textBuf :=
  ⟨fun j hlo => h.text j (hle.trans hlo), fun j hlo => h.copy j (hle.trans hlo)⟩

/-- The inner loop of `finish` moves through the text that is left.  The match at the end is new if
there was a step. -/
theorem State.At.advance {k : Nat} (h : s.At txt A) (hk : k ≤ s.currLen)
    (hmatch : k = 0 → 0 < s.currLen → Matches txt A s.currLen s.trees) {E : Nat}
    (hemitted : Emitted txt E s) :
    ∃ s', advance k s = some s' ∧ s'.At txt (A + k) ∧ s'.currLen + k = s.currLen ∧
      (0 < s'.currLen → Matches txt (A + k) s'.currLen s'.trees) ∧ Emitted txt E s' := by
  induction k generalizing s A with
  | zero => exact ⟨s, rfl, h, rfl, hmatch rfl, hemitted⟩
  | succ k ih =>
    have hstart := h.start
    have hlen := h.currLen
    obtain ⟨t₁, hdelete, hok₁, hwithin₁, -⟩ := h.within.leave h.trees h.start
    rw [← h.killPos] at hdelete
    have hwindow : Window txt (A + 1 - (N - F)) (A + 1 + (s.currLen - 1)) s.textBuf := by
      have hend : A + 1 + (s.currLen - 1) = A + s.currLen := by omega
      rw [hend]
      exact h.window.mono (by omega)
    -- the string at `A + 1` is put in unless the text ends there
    have hinsert : ∃ t₂, (if s.currLen - 1 > 0 then insertNode s.textBuf t₁ ((s.currPos + 1) % N)
        else some t₁) = some t₂ ∧ Ok s.textBuf t₂ ∧ Within (A + 1 - (N - F)) (A + 1 + 1) t₂ ∧
        (0 < s.currLen - 1 → Matches txt (A + 1) (s.currLen - 1) t₂) := by
      by_cases hleft : s.currLen - 1 > 0
      · obtain ⟨t₂, hinsert, hok₂, hwithin₂, hfound⟩ := hwithin₁.enter hok₁
        rw [if_pos hleft, mod_next h.currPos]
        exact ⟨t₂, hinsert, hok₂, hwithin₂, fun _ => hwindow.matches hfound⟩
      · rw [if_neg hleft]
        refine ⟨t₁, rfl, hok₁, fun x hx => ?_, fun hpos => absurd hpos hleft⟩
        obtain ⟨a, hlo, hhi, heq⟩ := hwithin₁ x hx
        exact ⟨a, hlo, by omega, heq⟩
    obtain ⟨t₂, hinsert, hok₂, hwithin₂, hmatch₂⟩ := hinsert
    let s₁ : State := { s with
      trees := t₂, killPos := (s.killPos + 1) % N, currPos := (s.currPos + 1) % N
      currLen := s.currLen - 1 }
    have hplace : s₁.At txt (A + 1) := by
      refine ⟨by omega, mod_next h.currPos, ?_, (Nat.sub_le _ _).trans h.currLen, hwindow, hok₂,
        hwithin₂⟩
      rw [add_right_comm]
      exact mod_next h.killPos
    have hadvance : Compression.advance (k + 1) s = Compression.advance k s₁ := by
      rw [Compression.advance, hdelete]
      change ite (s.currLen - 1 > 0) _ _ = _
      split at hinsert
      · rename_i hleft
        rw [if_pos hleft]
        exact (congrArg (Option.bind · _) hinsert).trans rfl
      · rename_i hleft
        rw [if_neg hleft, Option.some.inj hinsert]
        rfl
    obtain ⟨s', hs', hplace', hlen', hmatch', hemitted'⟩ := ih hplace (Nat.le_sub_one_of_lt hk)
      (fun _ => hmatch₂) (hemitted.congr rfl rfl rfl rfl)
    refine ⟨s', hadvance.trans hs', ?_, ?_, ?_, hemitted'⟩
    · rw [add_comm k, ← add_assoc]
      exact hplace'
    · have hlen₁ : s'.currLen + k = s.currLen - 1 := hlen'
      omega
    · rw [add_comm k, ← add_assoc]
      exact hmatch'

/-- The outer loop emits units for the text that is left. -/
theorem State.At.finishLoop {fuel : Nat} (h : s.At txt A)
    (hle : s.lastMatchLength - s.writeCount ≤ s.currLen)
    (hmatch : s.lastMatchLength - s.writeCount = 0 → 0 < s.currLen →
      Matches txt A s.currLen s.trees)
    (hemitted : Emitted txt (A + (s.lastMatchLength - s.writeCount)) s)
    (hfuel : s.currLen + (if s.lastMatchLength - s.writeCount = 0 then 1 else 0) < fuel) :
    ∃ s', finishLoop fuel s = some s' ∧ Emitted txt (A + s.currLen) s' := by
  induction fuel generalizing s A with
  | zero => exact absurd hfuel (Nat.not_lt_zero _)
  | succ fuel ih =>
    rw [Compression.finishLoop]
    by_cases hpos : s.currLen > 0
    · rw [if_pos hpos]
      obtain ⟨s₁, hadvance, h₁, hlen₁, hmatch₁, hemitted₁⟩ := h.advance hle hmatch hemitted
      rw [hadvance]
      have hend : A + s.currLen = A + (s.lastMatchLength - s.writeCount) + s₁.currLen := by omega
      rw [hend]
      by_cases hpos₁ : s₁.currLen = 0
      · -- `encode` does nothing, and the loop ends
        obtain ⟨fuel, rfl⟩ : ∃ n, fuel = n + 1 := Nat.exists_eq_add_one.mpr (by omega)
        refine ⟨{ s₁ with writeCount := 0 }, ?_, ?_⟩
        · have hencode : Compression.encode s₁ = s₁ := if_pos hpos₁
          change Compression.finishLoop (fuel + 1)
            { Compression.encode s₁ with writeCount := 0 } = _
          rw [hencode, Compression.finishLoop]
          exact if_neg (by rw [hpos₁]; omega)
        · rw [hpos₁, Nat.add_zero]
          exact hemitted₁.congr rfl rfl rfl rfl
      · have hleft := hmatch₁ (Nat.pos_of_ne_zero hpos₁)
        obtain ⟨h₂, hlen₂, hpos₂, hle₂, hemitted₂⟩ := h₁.encode hpos₁ hleft hemitted₁
        let s₂ : State := { Compression.encode s₁ with writeCount := 0 }
        have hplace : s₂.At txt (A + (s.lastMatchLength - s.writeCount)) :=
          { h₂ with }
        have hreach : s₂.lastMatchLength - s₂.writeCount ≠ 0 := Nat.one_le_iff_ne_zero.mp hpos₂
        have hlen : s₂.currLen = s₁.currLen := hlen₂
        rw [← hlen]
        refine ih hplace (hle₂.trans hlen₂.ge) (fun hzero => absurd hzero hreach)
          (hemitted₂.congr rfl rfl rfl rfl) ?_
        rw [if_neg hreach, hlen]
        split at hfuel <;> omega
    · rw [if_neg hpos]
      have hzero : s.lastMatchLength - s.writeCount = s.currLen := by omega
      rw [hzero] at hemitted
      exact ⟨s, rfl, hemitted⟩

/-- What is left in the buffer is the last group. -/
theorem out_flushBuffer {gs : List (List Token)} {us : List Token} (h : Packed gs us s) :
    (flushBuffer s).out = gs.flatMap group ++ if us = [] then [] else group us := by
  unfold flushBuffer
  cases us with
  | nil => rw [if_neg (by rw [h.units]; simp), h.out, if_pos rfl, List.append_nil]
  | cons u us =>
    have hne : s.units ≠ [] := by
      rw [h.units, List.flatMap_cons]
      exact List.append_ne_nil_of_left_ne_nil (bytes_ne_nil u) _
    rw [if_pos hne, if_neg (List.cons_ne_nil u us)]
    change s.out ++ s.flags :: s.units = _
    rw [h.out, h.flags, h.units]
    rfl

theorem Phase.finish {n : Nat} (h : Phase txt n s) :
    ∃ (s' : State) (gs : List (List Token)) (us : List Token), finish s = some s' ∧
      s'.out = (gs.flatMap group ++ if us = [] then [] else group us) ∧
      Sound txt (N - F) (gs.flatten ++ us) ∧ total (gs.flatten ++ us) = n ∧
      (∀ g ∈ gs, g.length = 8) ∧ us.length < 8 := by
  have hloop : ∃ s', finishLoop (s.currLen + 2) s = some s' ∧ Emitted txt (N - F + n) s' := by
    rcases h with ⟨h, rfl⟩ | ⟨A, h, hplace⟩
    · have hreach : s.lastMatchLength - s.writeCount = 0 := by
        rw [h.noUnit, Nat.zero_sub]
      refine h.place.finishLoop (by omega) (fun _ _ => Or.inl h.noMatch) ?_ ?_
      · rw [hreach]
        exact h.emitted
      · rw [if_pos hreach]
        omega
    · have hcount := h.count
      have hlast := h.last
      have hfull := h.full
      rw [← hplace, ← hfull]
      refine h.place.finishLoop (by omega) (fun hzero => by omega) h.emitted ?_
      split <;> omega
  obtain ⟨s', hfinish, gs, us, hpacked, hsound, htotal⟩ := hloop
  refine ⟨flushBuffer s', gs, us, ?_, out_flushBuffer hpacked, hsound, by omega, hpacked.full,
    hpacked.short⟩
  rw [Compression.finish, hfinish]
  rfl

/-! ### Round trip -/

/-- The text after the spaces that the buffers hold at first. -/
def spaced (input : List Byte) (j : Nat) : Byte :=
  if j < N - F then 0x20 else input.getD (j - (N - F)) 0

theorem text_spaced (input : List Byte) : text (spaced input) (N - F) input.length = input := by
  refine List.ext_getElem (by simp [text]) fun i hi hi' => ?_
  simp only [text, List.getElem_map, List.getElem_range]
  rw [spaced, if_neg (by omega), Nat.add_sub_cancel_left,
    List.getD_eq_getElem _ _ hi']

/-- **The encoder never fails.**  After any input its buffer holds the window of the text around the
    current position, and its search trees are well formed and have only places of that window. -/
theorem writes_at (input : List Byte) :
    ∃ s A, input.foldlM Compression.write init = some s ∧ s.At (spaced input) A ∧
      A + s.currLen = N - F + input.length := by
  have hbytes : ∀ i, i < input.length → spaced input (N - F + (0 + i)) = input.getD i 0 := by
    intro i _
    rw [spaced, if_neg (by omega), zero_add, Nat.add_sub_cancel_left]
  have hinit : Phase (spaced input) 0 init := Or.inl ⟨filling_init fun _ hj => if_pos hj, rfl⟩
  obtain ⟨s, hwrites, hphase⟩ := hinit.run input hbytes
  rw [zero_add] at hphase
  rcases hphase with ⟨h, hlen⟩ | ⟨A, h, hplace⟩
  · exact ⟨s, N - F, hwrites, h.place, by rw [hlen]⟩
  · exact ⟨s, A, hwrites, h.place, by rw [h.full, hplace]⟩

/-- The receiver reads the text that was compressed; the next byte waits for the line. -/
theorem decompress_compress (input : List Byte) :
    ∃ code, compress input = some code ∧
      ∃ d, pull input.length decompressInit code = some (input, d, []) ∧ getByte d [] = none := by
  have hspaces : ∀ j, j < N - F → spaced input j = 0x20 := fun j hj => if_pos hj
  have hbytes : ∀ i, i < input.length → spaced input (N - F + (0 + i)) = input.getD i 0 := by
    intro i _
    rw [spaced, if_neg (by omega), zero_add, Nat.add_sub_cancel_left]
  obtain ⟨s₁, hwrites, hphase⟩ :=
    Phase.run input (Or.inl ⟨filling_init hspaces, rfl⟩ : Phase (spaced input) 0 init) hbytes
  obtain ⟨s₂, gs, us, hfinish, hout, hsound, htotal, hfull, hshort⟩ := hphase.finish
  rw [zero_add] at htotal
  obtain ⟨d, hpull, hend⟩ :=
    pull_stream (at_decompressInit hspaces) hsound (by decide) hfull (le_of_lt hshort)
  rw [htotal, text_spaced] at hpull
  refine ⟨_, ?_, d, hpull, hend⟩
  rw [compress, hwrites]
  change (finish s₁).bind (fun s => some s.out) = _
  rw [hfinish, ← hout]
  rfl

end Patmos.Compression
