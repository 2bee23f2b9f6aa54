import Mathlib.Data.Fin.VecNotation
import Patmos.Clocked

/-!
# Sampling ports with two buffers

`mp_write` sends its sample word by word into the buffer `next` of the reader, outside the
lock, and then publishes it under the lock by setting the reader's `newest` to `next`.
`mp_read` copies, under the lock, the buffer that `newest` names.  The lock gives mutual
exclusion, and a transfer is complete when `noc_dma_done` holds; a schedule says whose access
or which word of a transfer comes next.
-/

namespace Patmos.SamplingPort

open Clocked

abbrev Word := BitVec 32

/-- The words of a sample; `sample_size` is `4 * n` bytes. -/
abbrev Sample (n : ℕ) := Fin n → Word

inductive Side where
  | writer | reader
  deriving DecidableEq, Repr

/-- The next access of `mp_write`. -/
inductive Writer (n : ℕ) where
  | idle
  | sending (x : Sample n) (k : ℕ)
  | locking (x : Sample n)
  | publishing (x : Sample n)
  | unlocking
  | flipping

/-- The next access of `mp_read`, which fills the buffer `sample` of its caller. -/
inductive Reader (n : ℕ) where
  | idle
  | locking (sample : Sample n)
  | newest (sample : Sample n)
  | copying (newest k : ℕ) (sample : Sample n)
  | unlocking (sample : Sample n)

/-- The scratchpad of the reader by words, the descriptors of the two ports, the owner of the
    lock, and the samples published so far. -/
structure S (n : ℕ) where
  mem : ℕ → Word
  newest : ℕ
  next : ℕ
  lock : Option Side
  writer : Writer n
  reader : Reader n
  published : List (Sample n)

inductive Act (n : ℕ) where
  | mp_write (x : Sample n)
  | mp_read (sample : Sample n)
  | writer
  | reader

section Port

variable (read_bufs : ℕ) {n : ℕ}

/-- Word `i` of the buffer with the index `buf`, which is an `unsigned int` in the source. -/
def bufWord (read_bufs n buf i : ℕ) : ℕ := (read_bufs + buf * (4 * n) + 4 * i) % 2 ^ 32 / 4

def S.stepWriter (s : S n) : S n :=
  match s.writer with
  | .idle => s
  | .sending x k =>
    if h : k < n then
      { s with
        mem := Function.update s.mem (bufWord read_bufs n s.next k) (x ⟨k, h⟩)
        writer := .sending x (k + 1) }
    else { s with writer := .locking x }
  | .locking x => if s.lock = none then { s with lock := some .writer, writer := .publishing x }
    else s
  | .publishing x =>
    { s with newest := s.next, writer := .unlocking, published := s.published ++ [x] }
  | .unlocking => { s with lock := none, writer := .flipping }
  | .flipping => { s with next := s.next ^^^ 1, writer := .idle }

def S.stepReader (s : S n) : S n :=
  match s.reader with
  | .idle => s
  | .locking buf => if s.lock = none then { s with lock := some .reader, reader := .newest buf }
    else s
  | .newest buf => { s with reader := .copying s.newest 0 buf }
  | .copying newest k buf =>
    if h : k < n then
      let word := s.mem (bufWord read_bufs n newest k)
      { s with reader := .copying newest (k + 1) (Function.update buf ⟨k, h⟩ word) }
    else { s with reader := .unlocking buf }
  | .unlocking _ => { s with lock := none, reader := .idle }

/-- A call enters its function when the one before it has returned. -/
def step (s : S n) : Act n → S n
  | .mp_write x =>
    match s.writer with
    | .idle => { s with writer := .sending x 0 }
    | _ => s
  | .mp_read buf =>
    match s.reader with
    | .idle => { s with reader := .locking buf }
    | _ => s
  | .writer => s.stepWriter read_bufs
  | .reader => s.stepReader read_bufs

/-- The ports after `mp_create_sport` and `mp_init_ports`: `newest` is -1. -/
structure IsReset (s : S n) : Prop where
  newest : s.newest = 2 ^ 32 - 1
  next : s.next = 0
  lock : s.lock = none
  writer : s.writer = .idle
  reader : s.reader = .idle
  published : s.published = []

/-- A read copies from the two buffers only, and what it delivers is the sample published
    last, at the end of its critical section. -/
structure Correct (s : S n) : Prop where
  inside : ∀ m k buf, s.reader = .copying m k buf → m < 2
  fresh : ∀ buf, s.reader = .unlocking buf → s.published.getLast? = some buf

/-- A sample has been published when a read looks for the newest one. -/
def Careful (s : S n) (a : Act n) : Prop :=
  ∀ buf, (a matches .reader) → s.reader = .newest buf → s.published ≠ []

/-- The two buffers lie in the address space. -/
def Placed (read_bufs n : ℕ) : Prop := read_bufs % 4 = 0 ∧ read_bufs + 8 * n ≤ 2 ^ 32

/-! ## The buffers -/

theorem bufWord_eq {read_bufs buf i : ℕ} (h : Placed read_bufs n) (hbuf : buf < 2) (hi : i < n) :
    bufWord read_bufs n buf i = read_bufs / 4 + buf * n + i := by
  obtain ⟨halign, hfits⟩ := h
  have hbuf' : buf = 0 ∨ buf = 1 := by omega
  unfold bufWord
  rcases hbuf' with rfl | rfl
  · rw [Nat.mod_eq_of_lt (by omega)]
    omega
  · rw [Nat.mod_eq_of_lt (by omega)]
    omega

theorem bufWord_ne {read_bufs buf buf' i j : ℕ} (h : Placed read_bufs n) (hbuf : buf < 2)
    (hbuf' : buf' < 2) (hi : i < n) (hj : j < n) (hne : buf ≠ buf' ∨ i ≠ j) :
    bufWord read_bufs n buf i ≠ bufWord read_bufs n buf' j := by
  rw [bufWord_eq h hbuf hi, bufWord_eq h hbuf' hj]
  have hzero : buf = 0 ∨ buf = 1 := by omega
  have hzero' : buf' = 0 ∨ buf' = 1 := by omega
  rcases hzero with rfl | rfl <;> rcases hzero' with rfl | rfl <;> omega

theorem xor_one {m : ℕ} (h : m < 2) : m ^^^ 1 < 2 ∧ m ≠ m ^^^ 1 := by
  have hm : m = 0 ∨ m = 1 := by omega
  rcases hm with rfl | rfl <;> decide

/-! ## The invariant -/

/-- The buffer `buf` has the first `k` words of `x`. -/
def Holds (read_bufs : ℕ) (s : S n) (buf k : ℕ) (x : Sample n) : Prop :=
  ∀ i : Fin n, i.val < k → s.mem (bufWord read_bufs n buf i) = x i

def Writer.owns : Writer n → Bool
  | .publishing _ | .unlocking => true
  | _ => false

def Reader.owns : Reader n → Bool
  | .newest _ | .copying _ _ _ | .unlocking _ => true
  | _ => false

/-- The newest sample is not in the buffer that is written next, except from its publication
    until `next` is flipped; what has been sent is in the buffer `next`. -/
def Written (read_bufs : ℕ) (s : S n) : Prop :=
  match s.writer with
  | .idle => s.newest ≠ s.next
  | .sending x k => s.newest ≠ s.next ∧ Holds read_bufs s s.next k x
  | .locking x | .publishing x => s.newest ≠ s.next ∧ Holds read_bufs s s.next n x
  | .unlocking | .flipping => s.newest = s.next

/-- What has been copied is part of the newest sample. -/
def Copied (s : S n) : Prop :=
  match s.reader with
  | .copying m k buf => m = s.newest ∧ ∃ x, s.published.getLast? = some x ∧
      ∀ i : Fin n, i.val < k → buf i = x i
  | .unlocking buf => s.published.getLast? = some buf
  | _ => True

structure Inv (s : S n) : Prop where
  next : s.next < 2
  writer : s.writer.owns = true → s.lock = some .writer
  reader : s.reader.owns = true → s.lock = some .reader
  newest : ∀ x, s.published.getLast? = some x → s.newest < 2 ∧ Holds read_bufs s s.newest n x
  written : Written read_bufs s
  copied : Copied s

theorem Inv.correct {s : S n} (h : Inv read_bufs s) : Correct s := by
  constructor
  · intro m k buf hr
    have hcopied := h.copied
    simp only [Copied, hr] at hcopied
    obtain ⟨rfl, x, hx, -⟩ := hcopied
    exact (h.newest x hx).1
  · intro buf hr
    have hcopied := h.copied
    simpa only [Copied, hr] using hcopied

theorem IsReset.inv {s : S n} (h : IsReset s) : Inv read_bufs s := by
  refine ⟨by rw [h.next]; decide, ?_, ?_, ?_, ?_, ?_⟩
  · simp [h.writer, Writer.owns]
  · simp [h.reader, Reader.owns]
  · simp [h.published]
  · simp [Written, h.writer, h.newest, h.next]
  · simp [Copied, h.reader]

/-! ## The writer -/

/-- A word that is sent goes into the buffer that nobody reads. -/
theorem Holds.send {s : S n} {read_bufs k buf j : ℕ} {x y : Sample n} {w : Writer n}
    (hplaced : Placed read_bufs n) (hnext : s.next < 2) (hk : k < n) (hbuf : buf < 2)
    (hne : buf ≠ s.next ∨ j ≤ k) (h : Holds read_bufs s buf j x) :
    Holds read_bufs
      { s with
        mem := Function.update s.mem (bufWord read_bufs n s.next k) (y ⟨k, hk⟩), writer := w }
      buf j x := by
  intro i hi
  have hword : bufWord read_bufs n buf i ≠ bufWord read_bufs n s.next k :=
    bufWord_ne hplaced hbuf hnext i.isLt hk (hne.imp_right fun hle => by omega)
  exact (Function.update_of_ne hword _ _).trans (h i hi)

theorem Inv.stepWriter {s : S n} {read_bufs : ℕ} (hplaced : Placed read_bufs n)
    (h : Inv read_bufs s) : Inv read_bufs (s.stepWriter read_bufs) := by
  obtain ⟨hnext, hwriter, hreader, hnewest, hwritten, hcopied⟩ := h
  unfold S.stepWriter
  unfold Written at hwritten
  cases hw : s.writer with
  | idle => exact ⟨hnext, hwriter, hreader, hnewest, by simpa only [Written, hw] using hwritten,
    hcopied⟩
  | sending x k =>
    simp only [hw] at hwritten
    obtain ⟨hne, hsent⟩ := hwritten
    simp only
    split
    · rename_i hk
      refine ⟨hnext, nofun, hreader, fun y hy => ?_, ⟨hne, fun i hi => ?_⟩, hcopied⟩
      · obtain ⟨hlt, hholds⟩ := hnewest y hy
        exact ⟨hlt, hholds.send hplaced hnext hk hlt (.inl hne)⟩
      · by_cases hik : i.val = k
        · subst hik
          exact Function.update_self _ _ _
        · exact hsent.send hplaced hnext hk hnext (.inr (Nat.le_refl k)) i (by omega)
    · rename_i hk
      exact ⟨hnext, nofun, hreader, hnewest, ⟨hne, fun i hi => hsent i (by omega)⟩, hcopied⟩
  | locking x =>
    simp only [hw] at hwritten
    simp only
    split
    · rename_i hlock
      refine ⟨hnext, fun _ => rfl, fun hr => ?_, hnewest, hwritten, hcopied⟩
      rw [hreader hr] at hlock
      cases hlock
    · exact ⟨hnext, hwriter, hreader, hnewest, by simpa only [Written, hw] using hwritten, hcopied⟩
  | publishing x =>
    simp only [hw] at hwritten
    have hlock : s.lock = some .writer := hwriter (by rw [hw]; rfl)
    -- the reader is outside: the lock is the writer's
    have hout : s.reader.owns = false := by
      by_contra hr
      rw [hreader (by simpa using hr)] at hlock
      cases hlock
    refine ⟨hnext, fun _ => hlock, hreader, fun y hy => ?_, rfl, ?_⟩
    · rw [List.getLast?_concat] at hy
      obtain rfl := Option.some.inj hy
      exact ⟨hnext, hwritten.2⟩
    · cases hr : s.reader with
      | idle | locking buf => simp [Copied]
      | newest buf | copying m k buf | unlocking buf => simp [hr, Reader.owns] at hout
  | unlocking =>
    simp only [hw] at hwritten
    have hlock : s.lock = some .writer := hwriter (by rw [hw]; rfl)
    refine ⟨hnext, nofun, fun hr => ?_, hnewest, hwritten, hcopied⟩
    rw [hreader hr] at hlock
    cases hlock
  | flipping =>
    simp only [hw] at hwritten
    obtain ⟨hlt, hne⟩ := xor_one hnext
    exact ⟨hlt, nofun, hreader, hnewest, hwritten ▸ hne, hcopied⟩

/-! ## The reader -/

theorem Inv.stepReader {s : S n} {read_bufs : ℕ} (h : Inv read_bufs s)
    (hcareful : Careful s .reader) : Inv read_bufs (s.stepReader read_bufs) := by
  obtain ⟨hnext, hwriter, hreader, hnewest, hwritten, hcopied⟩ := h
  unfold S.stepReader
  cases hr : s.reader with
  | idle => exact ⟨hnext, hwriter, hreader, hnewest, hwritten, hcopied⟩
  | locking buf =>
    simp only
    split
    · rename_i hlock
      refine ⟨hnext, fun hw => ?_, fun _ => rfl, hnewest, hwritten, trivial⟩
      rw [hwriter hw] at hlock
      cases hlock
    · exact ⟨hnext, hwriter, hreader, hnewest, hwritten, hcopied⟩
  | newest buf =>
    have hlock := hreader (by rw [hr]; rfl)
    have hsome := List.getLast?_eq_some_getLast (hcareful buf rfl hr)
    exact ⟨hnext, hwriter, fun _ => hlock, hnewest, hwritten, rfl, _, hsome, fun i hi => by omega⟩
  | copying m k buf =>
    have hlock := hreader (by rw [hr]; rfl)
    simp only [Copied, hr] at hcopied
    obtain ⟨rfl, x, hx, hbuf⟩ := hcopied
    simp only
    split
    · rename_i hk
      refine ⟨hnext, hwriter, fun _ => hlock, hnewest, hwritten, rfl, x, hx, fun i hi => ?_⟩
      by_cases hik : i = ⟨k, hk⟩
      · subst hik
        rw [Function.update_self]
        exact (hnewest x hx).2 ⟨k, hk⟩ hk
      · rw [Function.update_of_ne hik]
        have hne : i.val ≠ k := fun hc => hik (Fin.ext hc)
        exact hbuf i (by omega)
    · rename_i hk
      have hall : buf = x := funext fun i => hbuf i (by omega)
      exact ⟨hnext, hwriter, fun _ => hlock, hnewest, hwritten, by rw [hall]; exact hx⟩
  | unlocking buf =>
    have hlock := hreader (by rw [hr]; rfl)
    refine ⟨hnext, fun hw => ?_, nofun, hnewest, hwritten, trivial⟩
    rw [hwriter hw] at hlock
    cases hlock

theorem Inv.step {s : S n} {read_bufs : ℕ} (hplaced : Placed read_bufs n) (h : Inv read_bufs s)
    {a : Act n} (hcareful : Careful s a) : Inv read_bufs (step read_bufs s a) := by
  cases a with
  | mp_write x =>
    unfold SamplingPort.step
    cases hw : s.writer with
    | idle =>
      have hne : s.newest ≠ s.next := by simpa only [Written, hw] using h.written
      exact ⟨h.next, nofun, h.reader, h.newest, ⟨hne, fun i hi => by omega⟩, h.copied⟩
    | sending | locking | publishing | unlocking | flipping => exact h
  | mp_read buf =>
    unfold SamplingPort.step
    cases hr : s.reader with
    | idle => exact ⟨h.next, h.writer, nofun, h.newest, h.written, trivial⟩
    | locking | newest | copying | unlocking => exact h
  | writer => exact h.stepWriter hplaced
  | reader => exact h.stepReader hcareful

/-- **Samples are complete and fresh.**  In every schedule of one writer and one reader in which
    a sample has been published before a read looks for it, each read delivers the sample that
    was published last. -/
theorem samples_fresh (hplaced : Placed read_bufs n) {s : S n} (hs : IsReset s)
    {acts : List (Act n)}
    (hcareful : Along (step read_bufs) Careful s acts) : Correct (run (step read_bufs) s acts) :=
  (inv_run (fun _ _ h ha => h.step hplaced ha) (hs.inv read_bufs) hcareful).correct read_bufs

end Port

/-! ## Runs -/

/-- Ports after reset; the buffers are to start at byte 16. -/
def reset (n : ℕ) : S n := ⟨fun _ => 7, 2 ^ 32 - 1, 0, none, .idle, .idle, []⟩

/-- A sample of two words is published.  While a read copies it, the next one is sent word by
    word into the other buffer, and its writer is kept out of the lock. -/
def overlap : List (Act 2) :=
  .mp_write ![5, 6] :: List.replicate 7 .writer ++ .mp_read ![0, 0] :: .mp_write ![8, 9] ::
    [.reader, .writer, .reader, .writer, .reader, .writer, .reader, .writer, .reader]

theorem overlap_fresh :
    (run (step 16) (reset 2) overlap).reader = .unlocking ![5, 6] ∧
      (run (step 16) (reset 2) overlap).writer = .locking ![8, 9] ∧
      Correct (run (step 16) (reset 2) overlap) := by
  refine ⟨congrArg Reader.unlocking ?_, rfl, samples_fresh 16 ⟨by decide, by decide⟩
    ⟨rfl, rfl, rfl, rfl, rfl, rfl⟩ ?_⟩
  · exact funext (Fin.forall_fin_two.mpr ⟨rfl, rfl⟩)
  · simp [overlap, Careful, step, S.stepWriter, S.stepReader, reset, List.replicate]

def earlyRead : List (Act 1) := .mp_read (fun _ => 0) :: List.replicate 4 .reader

/-- Before the first write a read copies the word below the buffers, and delivers it. -/
theorem earlyRead_outside :
    (run (step 16) (reset 1) earlyRead).reader = .unlocking (Function.update (fun _ => 0) 0 7) ∧
      ¬ Correct (run (step 16) (reset 1) earlyRead) := by
  refine ⟨rfl, fun h => ?_⟩
  have hlast : none = some _ := h.fresh _ rfl
  cases hlast

end Patmos.SamplingPort
