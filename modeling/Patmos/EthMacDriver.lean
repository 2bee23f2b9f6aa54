import Mathlib.Data.List.Infix
import Patmos.Clocked

/-!
# The transmit side of the Ethernet driver

`eth_mac_send` and `eth_mac_send_nb` share one transmit descriptor with the MAC: a word
with the length, the flags and the READY bit, and a word with the address of the frame.
The driver is modelled access by access, the MAC as it works on the descriptor: it sees
READY together with the length, reads the pointer, transmits byte by byte, writes the
status back with READY cleared and then raises TXB.  A schedule says who moves next.
-/

namespace Patmos.EthMacDriver

open Clocked

abbrev Word := BitVec 32

def INT_SOURCE_TXB_BIT : Word := 0x0001
def TX_BD_READY_BIT : Word := 0x8000
def TX_BD_IRQEN_BIT : Word := 0x4000
def TX_BD_WRAP_BIT : Word := 0x2000
def TX_BD_PAD_EN_BIT : Word := 0x1000

/-- The address and the length of a frame, as a call gives them or as the MAC sends them. -/
structure Frame where
  tx_addr : Word
  frame_length : Word
  deriving DecidableEq, Repr

inductive Call where
  | eth_mac_send (f : Frame)
  | eth_mac_send_nb (f : Frame)
  deriving DecidableEq, Repr

/-- The next access of the driver to the controller, with the arguments of the call. -/
inductive PC where
  | idle
  | free (f : Frame)
  | clear (f : Frame)
  | pointer (f : Frame)
  | descriptor (f : Frame)
  | done
  | nbTest (f : Frame)
  | nbPointer (f : Frame)
  | nbDescriptor (f : Frame)
  | nbClear
  | nbFlags
  deriving DecidableEq, Repr

/-- What the MAC is doing with the descriptor. -/
inductive Phase where
  | idle
  | seen (length : Word)
  | sending (f : Frame) (left : ℕ)
  | written
  deriving DecidableEq, Repr

/-- The registers of the controller, the two parties, and the ledgers of a run: the frames
    handed over by a call, the frames on the wire, the results of non-blocking calls. -/
structure S where
  bd : Word
  bdPointer : Word
  intSource : Word
  pc : PC
  phase : Phase
  accepted : List Frame
  frames : List Frame
  returned : List ℕ
  deriving DecidableEq, Repr

def S.ready (s : S) : Bool := s.bd.getLsbD 15

def S.txb (s : S) : Bool := s.intSource.getLsbD 0

/-- The word that both calls write into the descriptor. -/
def descriptorWord (f : Frame) : Word := (f.frame_length <<< 16) ||| 0xF000

/-- One access of the driver. -/
def S.driver (s : S) : S :=
  match s.pc with
  | .idle => s
  | .free f =>
    -- `free` is an unsigned char, so the READY bit is cut off
    let free : BitVec 8 := (s.bd &&& 0x8000).setWidth 8
    if free = 1 then s else { s with pc := .clear f }
  | .clear f => { s with intSource := s.intSource &&& ~~~(0x00000001 : Word), pc := .pointer f }
  | .pointer f => { s with bdPointer := f.tx_addr, pc := .descriptor f }
  | .descriptor f => { s with bd := descriptorWord f, pc := .done, accepted := s.accepted ++ [f] }
  | .done =>
    let done : BitVec 8 := (s.intSource &&& 0x1).setWidth 8
    if done = 0 then s else { s with pc := .idle }
  | .nbTest f =>
    if s.bd &&& TX_BD_READY_BIT = 1 then { s with pc := .idle, returned := s.returned ++ [0] }
    else { s with pc := .nbPointer f }
  | .nbPointer f => { s with bdPointer := f.tx_addr, pc := .nbDescriptor f }
  | .nbDescriptor f =>
    { s with bd := descriptorWord f, pc := .nbClear, accepted := s.accepted ++ [f] }
  | .nbClear => { s with intSource := s.intSource &&& ~~~INT_SOURCE_TXB_BIT, pc := .nbFlags }
  | .nbFlags =>
    { s with
      bd := TX_BD_READY_BIT ||| TX_BD_IRQEN_BIT ||| TX_BD_WRAP_BIT ||| TX_BD_PAD_EN_BIT
      pc := .idle
      returned := s.returned ++ [1] }

/-- One step of the MAC. -/
def S.mac (s : S) : S :=
  match s.phase with
  | .idle => if s.ready then { s with phase := .seen (s.bd >>> 16) } else s
  | .seen length => { s with phase := .sending ⟨s.bdPointer, length⟩ length.toNat }
  | .sending f (left + 1) => { s with phase := .sending f left }
  | .sending f 0 =>
    { s with bd := s.bd &&& ~~~TX_BD_READY_BIT, phase := .written, frames := s.frames ++ [f] }
  | .written => { s with intSource := s.intSource ||| INT_SOURCE_TXB_BIT, phase := .idle }

inductive Act where
  | call (c : Call)
  | driver
  | mac
  deriving DecidableEq, Repr

/-- A call enters the driver when the one before it has returned. -/
def S.call (s : S) (c : Call) : S :=
  match s.pc, c with
  | .idle, .eth_mac_send f => { s with pc := .free f }
  | .idle, .eth_mac_send_nb f => { s with pc := .nbTest f }
  | _, _ => s

def step (s : S) : Act → S
  | .call c => s.call c
  | .driver => s.driver
  | .mac => s.mac

/-- The access at `pc` writes the descriptor or its pointer. -/
def PC.writes : PC → Bool
  | .pointer _ | .descriptor _ | .nbPointer _ | .nbDescriptor _ | .nbFlags => true
  | _ => false

/-- The driver leaves a descriptor alone that the MAC owns. -/
def Undisturbed (s : S) (a : Act) : Prop :=
  a = .driver → s.ready = true → s.pc.writes = false

/-- A non-blocking call that finds READY set returns 0 and changes nothing. -/
def Refused (s : S) (a : Act) : Prop :=
  ∀ f, a = .driver → s.ready = true → s.pc = .nbTest f →
    step s a = { s with pc := .idle, returned := s.returned ++ [0] }

/-- What the driver promises about a run. -/
structure Correct (s : S) (acts : List Act) : Prop where
  undisturbed : Along step Undisturbed s acts
  refused : Along step Refused s acts
  frames : (run step s acts).frames <+: (run step s acts).accepted
  once : ∃ n, (run step s (acts ++ List.replicate n .mac)).frames = (run step s acts).accepted

structure IsReset (s : S) : Prop where
  pc : s.pc = .idle
  phase : s.phase = .idle
  ready : s.ready = false
  frames : s.frames = s.accepted

/-- Only blocking calls, of frames whose length fits the field of the descriptor. -/
def Act.Careful : Act → Prop
  | .call (.eth_mac_send f) => f.frame_length.toNat < 2 ^ 16
  | .call (.eth_mac_send_nb _) => False
  | _ => True

/-! ## The words of the descriptor -/

theorem ready_descriptorWord (f : Frame) : (descriptorWord f).getLsbD 15 = true := by
  simp [descriptorWord]

theorem length_descriptorWord {f : Frame} (hf : f.frame_length.toNat < 2 ^ 16) :
    descriptorWord f >>> 16 = f.frame_length := by
  apply BitVec.eq_of_getLsbD_eq
  intro i hi
  have hflags : (0xF000 : Word).getLsbD (16 + i) = false := by
    apply Nat.testBit_lt_two_pow
    calc 0xF000 < 2 ^ 16 := by decide
      _ ≤ 2 ^ (16 + i) := Nat.pow_le_pow_right (by decide) (Nat.le_add_right _ _)
  have hbig : 16 ≤ i → f.frame_length.getLsbD i = false := by
    intro h
    exact Nat.testBit_lt_two_pow (lt_of_lt_of_le hf (Nat.pow_le_pow_right (by decide) h))
  rw [BitVec.getLsbD_ushiftRight, descriptorWord, BitVec.getLsbD_or, hflags, Bool.or_false,
    BitVec.getLsbD_shiftLeft]
  by_cases h : 16 ≤ i
  · simp [hbig h]
  · have h' : 16 + i < 32 := by omega
    simp [h']

theorem ready_written (w : Word) : (w &&& ~~~TX_BD_READY_BIT).getLsbD 15 = false := by
  simp [TX_BD_READY_BIT]

theorem txb_cleared (w : Word) : (w &&& ~~~(1 : Word)).getLsbD 0 = false := by
  simp

/-- The wait for TXB goes on while the bit is clear. -/
theorem done_of_txb {w : Word} (h : w.getLsbD 0 = false) :
    (w &&& 0x1).setWidth 8 = (0 : BitVec 8) := by
  apply BitVec.eq_of_getLsbD_eq
  intro i hi
  cases i with
  | zero => simpa using h
  | succ i => simp

/-! ## The invariant of a careful run -/

/-- The MAC works on the frame `f` of the descriptor, and the driver waits for it. -/
def Sends (f : Frame) : Phase → Prop
  | .idle => True
  | .seen length => length = f.frame_length
  | .sending g _ => g = f
  | .written => False

/-- The accesses of a blocking call before it hands its frame over. -/
def Prepares (s : S) : Prop :=
  match s.pc with
  | .idle | .done => True
  | .free f | .clear f => f.frame_length.toNat < 2 ^ 16
  | .pointer f => f.frame_length.toNat < 2 ^ 16 ∧ s.txb = false
  | .descriptor f => f.frame_length.toNat < 2 ^ 16 ∧ s.txb = false ∧ s.bdPointer = f.tx_addr
  | _ => False

/-- The descriptor belongs to the driver; to the MAC, with one frame; or the MAC has
    written it back and not raised TXB yet. -/
inductive Inv (s : S) : Prop where
  | quiet (phase : s.phase = .idle) (ready : s.ready = false) (frames : s.frames = s.accepted)
      (pc : Prepares s)
  | busy (f : Frame) (pc : s.pc = .done) (txb : s.txb = false) (ready : s.ready = true)
      (length : s.bd >>> 16 = f.frame_length) (pointer : s.bdPointer = f.tx_addr)
      (frames : s.frames ++ [f] = s.accepted) (phase : Sends f s.phase)
  | written (phase : s.phase = .written) (pc : s.pc = .done) (txb : s.txb = false)
      (ready : s.ready = false) (frames : s.frames = s.accepted)

theorem Inv.call {s : S} (h : Inv s) {c : Call} (hc : (Act.call c).Careful) : Inv (s.call c) := by
  cases hpc : s.pc with
  | idle =>
    cases h with
    | quiet phase ready frames pc =>
      cases c with
      | eth_mac_send f =>
        have hs : s.call (.eth_mac_send f) = { s with pc := .free f } := by simp [S.call, hpc]
        rw [hs]
        exact .quiet phase ready frames hc
      | eth_mac_send_nb f => exact hc.elim
    | busy f pc | written phase pc => simp [pc] at hpc
  | _ =>
    have hs : s.call c = s := by simp [S.call, hpc]
    rw [hs]
    exact h

theorem driver_waits {s : S} (pc : s.pc = .done) (txb : s.txb = false) : s.driver = s := by
  simp only [S.driver, pc]
  exact if_pos (done_of_txb txb)

theorem Inv.driver {s : S} (h : Inv s) : Inv s.driver := by
  cases h with
  | busy f pc txb ready length pointer frames phase =>
    rw [driver_waits pc txb]
    exact .busy f pc txb ready length pointer frames phase
  | written phase pc txb ready frames =>
    rw [driver_waits pc txb]
    exact .written phase pc txb ready frames
  | quiet phase ready frames pc =>
    cases hpc : s.pc with
    | idle =>
      have hs : s.driver = s := by simp [S.driver, hpc]
      rw [hs]
      exact .quiet phase ready frames pc
    | free f =>
      simp only [Prepares, hpc] at pc
      simp only [S.driver, hpc]
      split
      · exact .quiet phase ready frames (by simpa [Prepares, hpc] using pc)
      · exact .quiet phase ready frames pc
    | clear f =>
      simp only [Prepares, hpc] at pc
      simp only [S.driver, hpc]
      exact .quiet phase ready frames ⟨pc, txb_cleared _⟩
    | pointer f =>
      simp only [Prepares, hpc] at pc
      simp only [S.driver, hpc]
      exact .quiet phase ready frames ⟨pc.1, pc.2, rfl⟩
    | descriptor f =>
      -- the hand-over: from here on the descriptor is the MAC's
      simp only [Prepares, hpc] at pc
      simp only [S.driver, hpc]
      obtain ⟨hf, txb, pointer⟩ := pc
      exact .busy f rfl txb (ready_descriptorWord f) (length_descriptorWord hf) pointer
        (congrArg (· ++ [f]) frames) (by simp [phase, Sends])
    | done =>
      simp only [S.driver, hpc]
      split
      · exact .quiet phase ready frames pc
      · exact .quiet phase ready frames trivial
    | _ => simp [Prepares, hpc] at pc

theorem Inv.mac {s : S} (h : Inv s) : Inv s.mac := by
  cases h with
  | quiet phase ready frames pc =>
    have hs : s.mac = s := by simp [S.mac, phase, ready]
    rw [hs]
    exact .quiet phase ready frames pc
  | busy f pc txb ready length pointer frames phase =>
    cases hp : s.phase with
    | idle =>
      simp only [S.mac, hp, ready, if_true]
      exact .busy f pc txb ready length pointer frames length
    | seen l =>
      simp only [hp, Sends] at phase
      simp only [S.mac, hp]
      exact .busy f pc txb ready length pointer frames (by simp [Sends, pointer, phase])
    | sending g left =>
      simp only [hp, Sends] at phase
      cases left with
      | succ left =>
        simp only [S.mac, hp]
        exact .busy f pc txb ready length pointer frames phase
      | zero =>
        simp only [S.mac, hp]
        exact .written rfl pc txb (ready_written s.bd) (by simpa [phase] using frames)
    | written => simp [hp, Sends] at phase
  | written phase pc txb ready frames =>
    simp only [S.mac, phase]
    exact .quiet rfl ready frames (by simp [Prepares, pc])

theorem Inv.next {s : S} {a : Act} (h : Inv s) (ha : a.Careful) : Inv (step s a) := by
  cases a with
  | call c => exact h.call ha
  | driver => exact h.driver
  | mac => exact h.mac

/-! ## What the invariant says -/

theorem Inv.undisturbed {s : S} (h : Inv s) (a : Act) : Undisturbed s a := by
  intro _ hready
  cases h with
  | quiet phase ready | written phase pc txb ready => simp [hready] at ready
  | busy f pc => simp [pc, PC.writes]

theorem Inv.refused {s : S} (h : Inv s) (a : Act) : Refused s a := by
  intro f _ _ hpc
  cases h with
  | quiet phase ready frames pc => simp [Prepares, hpc] at pc
  | busy g pc | written phase pc => simp [hpc] at pc

theorem Inv.frames {s : S} (h : Inv s) : s.frames <+: s.accepted := by
  cases h with
  | quiet phase ready frames => rw [frames]
  | busy f pc txb ready length pointer frames => exact ⟨[f], frames⟩
  | written phase pc txb ready frames => rw [frames]

/-- The bytes left, then the status: the MAC puts a frame it sends on the wire. -/
theorem frames_of_sending {s : S} {f : Frame} {left : ℕ} (h : s.phase = .sending f left) :
    (run step s (List.replicate (left + 1) .mac)).frames = s.frames ++ [f] := by
  induction left generalizing s with
  | zero => simp [List.replicate, step, S.mac, h]
  | succ left ih =>
    rw [List.replicate_succ, run_cons]
    have hs : step s .mac = { s with phase := .sending f left } := by simp [step, S.mac, h]
    rw [hs]
    exact ih rfl

/-- Left alone, the MAC sends what has been handed over. -/
theorem Inv.once {s : S} (h : Inv s) :
    ∃ n, (run step s (List.replicate n .mac)).frames = s.accepted := by
  cases h with
  | quiet phase ready frames | written phase pc txb ready frames => exact ⟨0, frames⟩
  | busy f pc txb ready length pointer frames phase =>
    have hseen : ∀ t : S, t.phase = .seen f.frame_length → t.bdPointer = f.tx_addr →
        ∃ n, (run step t (List.replicate n .mac)).frames = t.frames ++ [f] := by
      intro t ht hptr
      refine ⟨f.frame_length.toNat + 1 + 1, ?_⟩
      rw [List.replicate_succ, run_cons]
      have hs : step t .mac = { t with phase := .sending f f.frame_length.toNat } := by
        simp [step, S.mac, ht, hptr]
      rw [hs]
      exact frames_of_sending rfl
    cases hp : s.phase with
    | idle =>
      have hs : step s .mac = { s with phase := .seen f.frame_length } := by
        simp [step, S.mac, hp, ready, length]
      obtain ⟨n, hn⟩ := hseen { s with phase := .seen f.frame_length } rfl pointer
      exact ⟨n + 1, by rw [List.replicate_succ, run_cons, hs, hn, ← frames]⟩
    | seen l =>
      simp only [hp, Sends] at phase
      obtain ⟨n, hn⟩ := hseen s (by rw [hp, phase]) pointer
      exact ⟨n, hn.trans frames⟩
    | sending g left =>
      simp only [hp, Sends] at phase
      subst phase
      exact ⟨left + 1, (frames_of_sending hp).trans frames⟩
    | written => simp [hp, Sends] at phase

theorem IsReset.inv {s : S} (h : IsReset s) : Inv s :=
  .quiet h.phase h.ready h.frames (by simp [Prepares, h.pc])

/-- **The driver never disturbs a frame.**  In every schedule of blocking calls with the
    MAC, no access writes a descriptor that is READY, and the frames on the wire are those
    of the calls, each once and in order. -/
theorem blocking_calls_correct {s : S} (hs : IsReset s) {acts : List Act}
    (hacts : ∀ a ∈ acts, a.Careful) : Correct s acts := by
  have hcareful : ∀ t : S, Along step (fun _ a => a.Careful) t acts := by
    intro t
    induction acts generalizing t with
    | nil => trivial
    | cons a acts ih =>
      exact ⟨hacts a (by simp), ih (fun b hb => hacts b (by simp [hb])) _⟩
  have hkeep : ∀ (t : S) (a : Act), Inv t → a.Careful → Inv (step t a) := fun _ _ h ha => h.next ha
  have hinv : Inv (run step s acts) := inv_run hkeep hs.inv (hcareful s)
  have hall := Along.with_inv hkeep hs.inv (hcareful s)
  refine ⟨hall.mono fun t a h => h.1.undisturbed a, hall.mono fun t a h => h.1.refused a,
    hinv.frames, ?_⟩
  obtain ⟨n, hn⟩ := hinv.once
  exact ⟨n, by rw [run_append]; exact hn⟩

def idle : S := ⟨0, 0, 0, .idle, .idle, [], [], []⟩

theorem idle_isReset : IsReset idle := ⟨rfl, rfl, rfl, rfl⟩

/-- A frame of 60 bytes is sent, its call returns, and the MAC is in the middle of the next. -/
def twoCalls : List Act :=
  .call (.eth_mac_send ⟨0, 60⟩) :: List.replicate 4 .driver ++ List.replicate 64 .mac ++
    .driver :: .call (.eth_mac_send ⟨2048, 61⟩) :: List.replicate 5 .driver ++
    List.replicate 20 .mac

theorem blocking_calls_correct_twoCalls :
    (run step idle twoCalls).frames = [⟨0, 60⟩] ∧
      (run step idle twoCalls).accepted = [⟨0, 60⟩, ⟨2048, 61⟩] ∧ Correct idle twoCalls := by
  refine ⟨by decide +kernel, by decide +kernel, blocking_calls_correct idle_isReset ?_⟩
  intro a ha
  simp only [twoCalls, List.cons_append, List.append_assoc, List.mem_cons, List.mem_append,
    List.mem_replicate] at ha
  rcases ha with rfl | ⟨-, rfl⟩ | ⟨-, rfl⟩ | rfl | rfl | ⟨-, rfl⟩ | ⟨-, rfl⟩ <;> simp [Act.Careful]

/-- A non-blocking call sets READY and then writes the descriptor again, with length 0;
    its own test of READY never succeeds, so a second call overwrites the frame too. -/
theorem nonblocking_call_disturbs :
    ¬ Correct idle (.call (.eth_mac_send_nb ⟨0, 64⟩) :: List.replicate 5 .driver) := by
  intro h
  have hflags := h.undisturbed.2.2.2.2.2.1 rfl (by decide)
  exact absurd hflags (by decide)

end Patmos.EthMacDriver
