import Patmos.Clocked

/-!
# The bakery lock over the network-on-chip

Two cores share a lock (`libmp/lock.c`).  Each has a `LOCK_T` in its own scratchpad: its
choosing flag and ticket, and copies of those of the other core, which the other core's
DMA writes.  A core takes a ticket one above the copy it sees, and waits until the copy of
the other's flag is clear and the copy of the other's ticket is zero or behind its own.

The two functions are modelled memory access by memory access.  A transfer is started,
reads its source word at some later time and delivers it at some still later time;
`noc_dma_done` holds when there is none.
-/

namespace Patmos.NocLock

open Clocked

/-- The word of a lock that a transfer copies to the other side. -/
inductive Field where
  | entering
  | number
  deriving DecidableEq, Repr

/-- A transfer in progress, with the data once they have been read. -/
structure Transfer where
  field : Field
  data : Option ℕ
  deriving DecidableEq, Repr

/-- The next memory access of a core, with its ticket `n` from where it has one. -/
inductive PC where
  | idle
  | setEntering
  | sendEntering
  | waitEntering
  | readNumber
  | setNumber (n : ℕ)
  | sendNumber (n : ℕ)
  | waitNumber (n : ℕ)
  | clearEntering (n : ℕ)
  | sendCleared (n : ℕ)
  | waitRemote (n : ℕ)
  | compare (n : ℕ)
  | critical (n : ℕ)
  | clearNumber (n : ℕ)
  | sendReleased
  | waitReleased
  deriving DecidableEq, Repr

/-- What one core writes: its program counter, its words of its own lock, its DMA, and the
    copies that it keeps in the lock of the other core. -/
structure Side where
  pc : PC
  local_entering : ℕ
  local_number : ℕ
  dma : Option Transfer
  remote_entering : ℕ
  remote_number : ℕ
  deriving DecidableEq, Repr

namespace Side

/-- `noc_write`: try again until the transfer before it is done. -/
def noc_write (x : Side) (f : Field) (pc : PC) : Side :=
  if x.dma = none then { x with dma := some ⟨f, none⟩, pc := pc } else x

/-- `while (!noc_dma_done(remote));` -/
def awaitDone (x : Side) (pc : PC) : Side :=
  if x.dma = none then { x with pc := pc } else x

/-- One access of the core with the id `id`; `other` is the other side, of core `remote`. -/
def core (id remote : ℕ) (x other : Side) : Side :=
  match x.pc with
  | .idle => x
  | .setEntering => { x with local_entering := 1, pc := .sendEntering }
  | .sendEntering => x.noc_write .entering .waitEntering
  | .waitEntering => x.awaitDone .readNumber
  | .readNumber => { x with pc := .setNumber ((other.remote_number + 1) % 2 ^ 32) }
  | .setNumber n => { x with local_number := n, pc := .sendNumber n }
  | .sendNumber n => x.noc_write .number (.waitNumber n)
  | .waitNumber n => x.awaitDone (.clearEntering n)
  | .clearEntering n => { x with local_entering := 0, pc := .sendCleared n }
  | .sendCleared n => x.noc_write .entering (.waitRemote n)
  | .waitRemote n => if other.remote_entering = 1 then x else { x with pc := .compare n }
  | .compare n =>
    let m := other.remote_number
    if m ≠ 0 ∧ (m < n ∨ m = n ∧ remote < id) then x else { x with pc := .critical n }
  | .critical _ => x
  | .clearNumber _ => { x with local_number := 0, pc := .sendReleased }
  | .sendReleased => x.noc_write .number .waitReleased
  | .waitReleased => x.awaitDone .idle

def word (x : Side) : Field → ℕ
  | .entering => x.local_entering
  | .number => x.local_number

/-- The DMA reads the source word of its transfer. -/
def fetch (x : Side) : Side :=
  match x.dma with
  | some ⟨f, none⟩ => { x with dma := some ⟨f, some (x.word f)⟩ }
  | _ => x

/-- The data of the transfer arrive at the other core. -/
def deliver (x : Side) : Side :=
  match x.dma with
  | some ⟨.entering, some v⟩ => { x with dma := none, remote_entering := v }
  | some ⟨.number, some v⟩ => { x with dma := none, remote_number := v }
  | _ => x

/-- A call of `acquire_lock`, possible when the core is outside. -/
def acquire_lock (x : Side) : Side :=
  if x.pc = .idle then { x with pc := .setEntering } else x

/-- A call of `release_lock`, possible when the core has the lock. -/
def release_lock (x : Side) : Side :=
  match x.pc with
  | .critical n => { x with pc := .clearNumber n }
  | _ => x

end Side

inductive Move where
  | core | fetch | deliver | acquire_lock | release_lock
  deriving DecidableEq, Repr

/-- The two sides, `false` and `true`. -/
abbrev S := Bool → Side

def Side.move (id remote : ℕ) (m : Move) (x other : Side) : Side :=
  match m with
  | .core => x.core id remote other
  | .fetch => x.fetch
  | .deliver => x.deliver
  | .acquire_lock => x.acquire_lock
  | .release_lock => x.release_lock

/-- One move of one side; `id` gives the ids of the two cores. -/
def step (id : Bool → ℕ) (s : S) (a : Bool × Move) : S :=
  Function.update s a.1 ((s a.1).move (id a.1) (id !a.1) a.2 (s !a.1))

/-- Tickets stay below the largest word. -/
def Legal (s : S) (a : Bool × Move) : Prop :=
  a.2 = .core → (s a.1).pc = .readNumber → (s !a.1).remote_number + 1 < 2 ^ 32 - 1

/-- Two locks after `initialize_lock`, linked to each other, with nobody inside. -/
def initial : S := fun _ => ⟨.idle, 0, 0, none, 0, 0⟩

/-- The core is between the return of `acquire_lock` and the next call of `release_lock`. -/
def Side.Holds (x : Side) : Prop := ∃ n, x.pc = .critical n

/-! ## What one side keeps to -/

/-- The ticket of a core, from when it has read the other's until it gives it up. -/
def PC.ticket : PC → Option ℕ
  | .setNumber n | .sendNumber n | .waitNumber n | .clearEntering n | .sendCleared n
  | .waitRemote n | .compare n | .critical n | .clearNumber n => some n
  | _ => none

/-- The transfer in progress, if there is one, is of the word `f`. -/
def Side.Only (x : Side) (f : Field) : Prop := ∀ t, x.dma = some t → t.field = f

/-- What the other core sees while this one is at its program counter: its flag from the
    wait for the flag's transfer to the start of the next one, its ticket from the wait for
    the ticket's transfer on. -/
def Side.Shown (x : Side) : Prop :=
  match x.pc with
  | .idle | .setEntering => x.dma = none
  | .sendEntering => x.dma = none ∧ x.local_entering = 1
  | .waitEntering => x.Only .entering ∧ x.local_entering = 1 ∧
      (x.dma = none → x.remote_entering = 1)
  | .readNumber => x.dma = none ∧ x.remote_entering = 1
  | .setNumber n => x.dma = none ∧ x.remote_entering = 1 ∧ 0 < n
  | .sendNumber n => x.dma = none ∧ x.remote_entering = 1 ∧ 0 < n ∧ x.local_number = n
  | .waitNumber n => x.Only .number ∧ x.remote_entering = 1 ∧ 0 < n ∧ x.local_number = n ∧
      (x.dma = none → x.remote_number = n)
  | .clearEntering n | .sendCleared n =>
    x.dma = none ∧ x.remote_entering = 1 ∧ 0 < n ∧ x.remote_number = n
  | .waitRemote n | .compare n | .critical n | .clearNumber n =>
    x.Only .entering ∧ 0 < n ∧ x.remote_number = n
  | .sendReleased => x.Only .entering
  | .waitReleased => x.Only .number

/-- Data that have been read are still those of the source word. -/
def Side.Fresh (x : Side) : Prop := ∀ t v, x.dma = some t → t.data = some v → v = x.word t.field

/-- What one side keeps to. -/
structure Side.Good (x : Side) : Prop where
  fresh : x.Fresh
  shown : x.Shown

theorem Side.fresh_of_none {x : Side} (h : x.dma = none) : x.Fresh := by
  intro t v ht
  simp [h] at ht

theorem Side.only_of_none {x : Side} (h : x.dma = none) (f : Field) : x.Only f := by
  intro t ht
  simp [h] at ht

/-- A transfer that has just been started has no data yet. -/
theorem Side.fresh_started {x : Side} {f : Field} (h : x.dma = some ⟨f, none⟩) : x.Fresh := by
  intro t v ht hv
  rw [h] at ht
  obtain rfl := Option.some.inj ht
  cases hv

theorem Side.only_started {x : Side} {f : Field} (h : x.dma = some ⟨f, none⟩) : x.Only f := by
  intro t ht
  rw [h] at ht
  obtain rfl := Option.some.inj ht
  rfl

section Steps

variable {id remote : ℕ} {x other : Side}

/-- A core that goes on with its DMA idle only has to show what its new place asks for. -/
theorem Side.Good.of_none (hdma : x.dma = none) (hshown : x.Shown) : x.Good :=
  ⟨fresh_of_none hdma, hshown⟩

theorem Side.Good.core (h : x.Good)
    (hlegal : x.pc = .readNumber → other.remote_number + 1 < 2 ^ 32 - 1) :
    (x.core id remote other).Good := by
  obtain ⟨hfresh, hshown⟩ := h
  unfold Side.core
  cases hpc : x.pc with
  | idle | critical n => exact ⟨hfresh, hshown⟩
  | setEntering =>
    simp only [Side.Shown, hpc] at hshown
    exact .of_none hshown ⟨hshown, rfl⟩
  | sendEntering =>
    simp only [Side.Shown, hpc] at hshown
    simp only [Side.noc_write, hshown.1, if_true]
    exact ⟨Side.fresh_started rfl, Side.only_started rfl, hshown.2, fun h => nomatch h⟩
  | waitEntering =>
    simp only [Side.awaitDone]
    split
    · rename_i hdma
      simp only [Side.Shown, hpc] at hshown
      exact .of_none hdma ⟨hdma, hshown.2.2 hdma⟩
    · exact ⟨hfresh, hshown⟩
  | readNumber =>
    simp only [Side.Shown, hpc] at hshown
    have hn : (other.remote_number + 1) % 2 ^ 32 = other.remote_number + 1 :=
      Nat.mod_eq_of_lt (by have := hlegal hpc; omega)
    exact .of_none hshown.1 ⟨hshown.1, hshown.2, by rw [hn]; omega⟩
  | setNumber n =>
    simp only [Side.Shown, hpc] at hshown
    exact .of_none hshown.1 ⟨hshown.1, hshown.2.1, hshown.2.2, rfl⟩
  | sendNumber n =>
    simp only [Side.Shown, hpc] at hshown
    obtain ⟨hdma, hentering, hn, hlocal⟩ := hshown
    simp only [Side.noc_write, hdma, if_true]
    exact ⟨Side.fresh_started rfl, Side.only_started rfl, hentering, hn, hlocal,
      fun h => nomatch h⟩
  | waitNumber n =>
    simp only [Side.awaitDone]
    split
    · rename_i hdma
      simp only [Side.Shown, hpc] at hshown
      obtain ⟨-, hentering, hn, -, hremote⟩ := hshown
      exact .of_none hdma ⟨hdma, hentering, hn, hremote hdma⟩
    · exact ⟨hfresh, hshown⟩
  | clearEntering n =>
    simp only [Side.Shown, hpc] at hshown
    exact .of_none hshown.1 hshown
  | sendCleared n =>
    simp only [Side.Shown, hpc] at hshown
    obtain ⟨hdma, -, hn, hremote⟩ := hshown
    simp only [Side.noc_write, hdma, if_true]
    exact ⟨Side.fresh_started rfl, Side.only_started rfl, hn, hremote⟩
  | waitRemote n | compare n =>
    simp only
    split
    · exact ⟨hfresh, hshown⟩
    · simp only [Side.Shown, hpc] at hshown
      exact ⟨hfresh, hshown⟩
  | clearNumber n =>
    -- the transfer that may still be going on is of the flag, not of the ticket
    simp only [Side.Shown, hpc] at hshown
    refine ⟨fun t v ht hv => ?_, hshown.1⟩
    have hfield : t.field = .entering := hshown.1 t ht
    have hv := hfresh t v ht hv
    rw [hfield] at hv ⊢
    exact hv
  | sendReleased =>
    simp only [Side.noc_write]
    split
    · exact ⟨Side.fresh_started rfl, Side.only_started rfl⟩
    · exact ⟨hfresh, hshown⟩
  | waitReleased =>
    simp only [Side.awaitDone]
    split
    · rename_i hdma
      exact .of_none hdma hdma
    · exact ⟨hfresh, hshown⟩

theorem Side.Good.fetch (h : x.Good) : x.fetch.Good := by
  obtain ⟨hfresh, hshown⟩ := h
  unfold Side.fetch
  split
  · rename_i f hdma
    refine ⟨fun t v ht hv => ?_, ?_⟩
    · obtain rfl := Option.some.inj ht
      exact (Option.some.inj hv).symm
    · have honly : ∀ g, x.Only g → Side.Only { x with dma := some ⟨f, some (x.word f)⟩ } g := by
        intro g hg t ht
        obtain rfl := Option.some.inj ht
        exact hg ⟨f, none⟩ hdma
      have hsome : x.dma ≠ none := by simp [hdma]
      cases hpc : x.pc <;> simp only [Side.Shown, hpc] at hshown ⊢ <;>
        first
          | exact absurd hshown hsome
          | exact absurd hshown.1 hsome
          | exact honly _ hshown
          | exact ⟨honly _ hshown.1, hshown.2.1, fun h => nomatch h⟩
          | exact ⟨honly _ hshown.1, hshown.2⟩
          | exact ⟨honly _ hshown.1, hshown.2.1, hshown.2.2.1, hshown.2.2.2.1, fun h => nomatch h⟩
  · exact ⟨hfresh, hshown⟩

/-- Where a core stands while a transfer of its flag is in progress. -/
theorem Side.Good.deliver_entering (h : x.Good) {v : ℕ} (hdma : x.dma = some ⟨.entering, some v⟩) :
    Side.Shown { x with dma := none, remote_entering := v } := by
  obtain ⟨hfresh, hshown⟩ := h
  have hv : v = x.local_entering := hfresh _ v hdma rfl
  have hsome : x.dma ≠ none := by simp [hdma]
  have hnumber : ¬ x.Only .number := fun h => nomatch h _ hdma
  have hnone : Side.Only { x with dma := none, remote_entering := v } .entering :=
    Side.only_of_none rfl _
  cases hpc : x.pc <;> simp only [Side.Shown, hpc] at hshown ⊢ <;>
    first
      | exact absurd hshown hsome
      | exact absurd hshown.1 hsome
      | exact absurd hshown hnumber
      | exact absurd hshown.1 hnumber
      | exact hnone
      | exact ⟨hnone, hshown.2⟩
      | exact ⟨hnone, hshown.2.1, fun _ => hv.trans hshown.2.1⟩

theorem Side.Good.deliver_number (h : x.Good) {v : ℕ} (hdma : x.dma = some ⟨.number, some v⟩) :
    Side.Shown { x with dma := none, remote_number := v } := by
  obtain ⟨hfresh, hshown⟩ := h
  have hv : v = x.local_number := hfresh _ v hdma rfl
  have hsome : x.dma ≠ none := by simp [hdma]
  have hentering : ¬ x.Only .entering := fun h => nomatch h _ hdma
  have hnone : Side.Only { x with dma := none, remote_number := v } .number :=
    Side.only_of_none rfl _
  cases hpc : x.pc <;> simp only [Side.Shown, hpc] at hshown ⊢ <;>
    first
      | exact absurd hshown hsome
      | exact absurd hshown.1 hsome
      | exact absurd hshown hentering
      | exact absurd hshown.1 hentering
      | exact hnone
      | exact ⟨hnone, hshown.2.1, hshown.2.2.1, hshown.2.2.2.1, fun _ => hv.trans hshown.2.2.2.1⟩

theorem Side.Good.deliver (h : x.Good) : x.deliver.Good := by
  unfold Side.deliver
  split
  · rename_i v hdma
    exact .of_none rfl (h.deliver_entering hdma)
  · rename_i v hdma
    exact .of_none rfl (h.deliver_number hdma)
  · exact h

theorem Side.Good.acquire_lock (h : x.Good) : x.acquire_lock.Good := by
  unfold Side.acquire_lock
  split
  · rename_i hpc
    have hshown := h.shown
    simp only [Side.Shown, hpc] at hshown
    exact .of_none hshown hshown
  · exact h

theorem Side.Good.release_lock (h : x.Good) : x.release_lock.Good := by
  unfold Side.release_lock
  split
  · rename_i n hpc
    have hshown := h.shown
    simp only [Side.Shown, hpc] at hshown
    exact ⟨h.fresh, hshown⟩
  · exact h

theorem Side.Good.move (h : x.Good) {m : Move}
    (hlegal : m = .core → x.pc = .readNumber → other.remote_number + 1 < 2 ^ 32 - 1) :
    (x.move id remote m other).Good := by
  cases m with
  | core => exact h.core (hlegal rfl)
  | fetch => exact h.fetch
  | deliver => exact h.deliver
  | acquire_lock => exact h.acquire_lock
  | release_lock => exact h.release_lock

/-! ## Who is before whom -/

/-- The ticket of a queued core has arrived at the other core. -/
def PC.queued : PC → Bool
  | .waitRemote _ | .compare _ | .critical _ | .clearNumber _ => true
  | _ => false

/-- A core that has seen the other's flag clear compares with the ticket of the other, or
    the other takes a larger one later; a core that has the lock is before the other. -/
def Side.Before (id remote : ℕ) (x other : Side) : Prop :=
  match x.pc with
  | .compare n => ∀ m, other.pc.ticket = some m → other.pc.queued = true ∨ n < m
  | .critical n => ∀ m, other.pc.ticket = some m → n < m ∨ n = m ∧ id < remote
  | _ => True

/-- A core with a ticket that has not arrived yet shows its flag. -/
theorem Side.Good.flag_of_ticket (h : x.Good) {m : ℕ} (hticket : x.pc.ticket = some m)
    (hflag : x.remote_entering ≠ 1) : x.pc.queued = true := by
  have hshown := h.shown
  cases hpc : x.pc <;> simp only [hpc, PC.ticket, Side.Shown] at hticket hshown <;>
    first
      | rfl
      | exact absurd hshown.2.1 hflag
      | cases hticket

/-- The other core sees the ticket of a queued one. -/
theorem Side.Good.number_of_queued (h : x.Good) {m : ℕ} (hticket : x.pc.ticket = some m)
    (hqueued : x.pc.queued = true) : x.remote_number = m ∧ 0 < m := by
  have hshown := h.shown
  cases hpc : x.pc <;>
    simp only [hpc, PC.ticket, PC.queued, Side.Shown] at hticket hqueued hshown <;>
    first
      | exact Option.some.inj hticket ▸ ⟨hshown.2.2, hshown.2.1⟩
      | cases hqueued

theorem Side.fetch_pc : x.fetch.pc = x.pc := by
  unfold Side.fetch
  split <;> rfl

theorem Side.deliver_pc : x.deliver.pc = x.pc := by
  unfold Side.deliver
  split <;> rfl

/-- A move keeps the ticket and the place in the queue, or takes a ticket from the copy of the
    other's, or gives the ticket up. -/
theorem Side.ticket_move {mv : Move} {m : ℕ} (h : (x.move id remote mv other).pc.ticket = some m) :
    (x.pc.ticket = some m ∧ (x.pc.queued = true → (x.move id remote mv other).pc.queued = true)) ∨
      (mv = .core ∧ x.pc = .readNumber ∧ m = (other.remote_number + 1) % 2 ^ 32) := by
  cases mv with
  | core =>
    by_cases hread : x.pc = .readNumber
    · refine .inr ⟨rfl, hread, ?_⟩
      simp only [Side.move, Side.core, hread, PC.ticket] at h
      exact (Option.some.inj h).symm
    · refine .inl ?_
      simp only [Side.move] at h ⊢
      revert h
      unfold Side.core
      cases hpc : x.pc <;> simp only [Side.noc_write, Side.awaitDone] <;> (try split) <;>
        simp_all [PC.ticket, PC.queued]
  | fetch =>
    simp only [Side.move, Side.fetch_pc] at h ⊢
    exact .inl ⟨h, fun hq => hq⟩
  | deliver =>
    simp only [Side.move, Side.deliver_pc] at h ⊢
    exact .inl ⟨h, fun hq => hq⟩
  | acquire_lock =>
    simp only [Side.move, Side.acquire_lock] at h ⊢
    split at h
    · cases h
    · rename_i hpc
      simp [hpc, h]
  | release_lock =>
    simp only [Side.move, Side.release_lock] at h ⊢
    split at h
    · rename_i n hpc
      simp only [hpc]
      exact .inl ⟨h, fun _ => rfl⟩
    · exact .inl ⟨h, fun hq => hq⟩

theorem Side.Before.own (hid : id ≠ remote) (h : x.Before id remote other) (hother : other.Good)
    (m : Move) : (x.move id remote m other).Before id remote other := by
  cases m with
  | core =>
    simp only [Side.move]
    unfold Side.core
    cases hpc : x.pc with
    | idle => exact h
    | critical n => exact h
    | waitRemote n =>
      simp only
      split
      · exact h
      · rename_i hflag
        exact fun m hm => .inl (hother.flag_of_ticket hm hflag)
    | compare n =>
      simp only
      split
      · exact h
      · rename_i hcond
        simp only [Side.Before, hpc] at h
        intro m hm
        rcases h m hm with hqueued | hlt
        · -- the ticket that was read is the other's
          obtain ⟨hnumber, hpos⟩ := hother.number_of_queued hm hqueued
          rw [hnumber] at hcond
          omega
        · exact .inl hlt
    | _ =>
      simp only [Side.noc_write, Side.awaitDone]
      try split
      all_goals simp [Side.Before, hpc]
  | fetch =>
    simp only [Side.move, Side.Before, Side.fetch_pc]
    exact h
  | deliver =>
    simp only [Side.move, Side.Before, Side.deliver_pc]
    exact h
  | acquire_lock =>
    simp only [Side.move, Side.acquire_lock]
    split
    · exact trivial
    · exact h
  | release_lock =>
    simp only [Side.move, Side.release_lock]
    split
    · exact trivial
    · exact h

theorem Side.Before.look_on (h : other.Before remote id x) (hother : other.Good) {mv : Move}
    (hlegal : mv = .core → x.pc = .readNumber → other.remote_number + 1 < 2 ^ 32 - 1) :
    other.Before remote id (x.move id remote mv other) := by
  -- a ticket taken now is above the one that the other shows
  have hnew : ∀ n m, other.pc.ticket = some n → other.pc.queued = true →
      mv = .core ∧ x.pc = .readNumber ∧ m = (other.remote_number + 1) % 2 ^ 32 → n < m := by
    rintro n m hticket hqueued ⟨hmv, hpc, rfl⟩
    have hlt := hlegal hmv hpc
    rw [(hother.number_of_queued hticket hqueued).1] at hlt ⊢
    rw [Nat.mod_eq_of_lt (by omega)]
    omega
  unfold Side.Before at h ⊢
  cases hpc : other.pc with
  | compare n =>
    simp only [hpc] at h
    intro m hm
    rcases Side.ticket_move hm with ⟨hticket, hqueue⟩ | htaken
    · exact (h m hticket).imp_left hqueue
    · exact .inr (hnew n m (by rw [hpc]; rfl) (by rw [hpc]; rfl) htaken)
  | critical n =>
    simp only [hpc] at h
    intro m hm
    rcases Side.ticket_move hm with ⟨hticket, -⟩ | htaken
    · exact h m hticket
    · exact .inl (hnew n m (by rw [hpc]; rfl) (by rw [hpc]; rfl) htaken)
  | _ => trivial

end Steps

/-! ## Mutual exclusion -/

/-- The invariant of the two cores together. -/
def Inv (id : Bool → ℕ) (s : S) : Prop :=
  ∀ c, (s c).Good ∧ (s c).Before (id c) (id !c) (s !c)

theorem initial_inv (id : Bool → ℕ) : Inv id initial :=
  fun _ => ⟨.of_none rfl rfl, trivial⟩

theorem Inv.step {id : Bool → ℕ} (hid : id false ≠ id true) {s : S} (h : Inv id s)
    {a : Bool × Move} (hlegal : Legal s a) : Inv id (step id s a) := by
  obtain ⟨c, m⟩ := a
  have hne : id c ≠ id !c := by
    cases c
    · exact hid
    · exact hid.symm
  intro d
  by_cases hd : d = c
  · subst hd
    have hother : NocLock.step id s (d, m) (!d) = s !d :=
      Function.update_of_ne (by cases d <;> simp) _ _
    rw [hother, NocLock.step, Function.update_self]
    exact ⟨(h d).1.move hlegal, (h d).2.own hne (h !d).1 m⟩
  · obtain rfl : d = !c := by revert hd; cases c <;> cases d <;> simp
    have hsame : NocLock.step id s (c, m) (!c) = s !c := Function.update_of_ne hd _ _
    rw [hsame, Bool.not_not, NocLock.step, Function.update_self]
    have hbefore := (h !c).2
    rw [Bool.not_not] at hbefore
    exact ⟨(h !c).1, Side.Before.look_on hbefore (h !c).1 hlegal⟩

theorem Inv.exclusive {id : Bool → ℕ} {s : S} (h : Inv id s) :
    ¬ ((s false).Holds ∧ (s true).Holds) := by
  rintro ⟨⟨n, hn⟩, ⟨m, hm⟩⟩
  have hfalse := (h false).2
  have htrue := (h true).2
  simp only [Side.Before, hn, hm, Bool.not_false, Bool.not_true, PC.ticket] at hfalse htrue
  have hnm := hfalse m rfl
  have hmn := htrue n rfl
  omega

/-- **Mutual exclusion.**  In every interleaving of the accesses of two cores with distinct
    ids and of their transfers, at most one core has the lock. -/
theorem mutual_exclusion {id : Bool → ℕ} (hid : id false ≠ id true) {acts : List (Bool × Move)}
    (hlegal : Along (step id) Legal initial acts) :
    ¬ ((run (step id) initial acts false).Holds ∧ (run (step id) initial acts true).Holds) :=
  (inv_run (fun _ _ h ha => h.step hid ha) (initial_inv id) hlegal).exclusive

/-- Core 1 takes the lock, and core 0 waits for it with the next ticket. -/
def contention : List (Bool × Move) :=
  let enter (c : Bool) : List (Bool × Move) :=
    [(c, .acquire_lock), (c, .core), (c, .core), (c, .fetch), (c, .deliver), (c, .core)]
  let choose (c : Bool) : List (Bool × Move) :=
    [(c, .core), (c, .core), (c, .core), (c, .fetch), (c, .deliver), (c, .core), (c, .core),
      (c, .core), (c, .fetch), (c, .deliver)]
  enter true ++ choose true ++ [(true, .core), (true, .core)] ++ enter false ++ choose false ++
    [(false, .core), (false, .core), (false, .core)]

theorem contention_exclusive :
    (run (step Bool.toNat) initial contention true).pc = .critical 1 ∧
      (run (step Bool.toNat) initial contention false).pc = .compare 2 ∧
      ¬ ((run (step Bool.toNat) initial contention false).Holds ∧
        (run (step Bool.toNat) initial contention true).Holds) :=
  ⟨by decide +kernel, by decide +kernel,
    mutual_exclusion (by decide) (by unfold Legal; decide +kernel)⟩

end Patmos.NocLock
