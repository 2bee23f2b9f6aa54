import Mathlib.Algebra.GroupWithZero.Nat
import Mathlib.Data.Fin.VecNotation
import Mathlib.Data.Fintype.Pi
import Mathlib.Logic.Function.Basic

/-!
# OCP ports and burst memories

The codes of `OcpCmd` and `OcpResp` (the 3-bit command has more codes, but no master in
the modelled circuits drives another one), the signals of an OCP burst port, and a
burst slave with a memory behind it.

The slave takes one command at a time.  A write is accepted together with its first
word, the other words follow in consecutive cycles, and the response comes after the
last word.  A read is answered beat by beat, each after any delay.  What a slave is free
to do in a cycle is a `Choice`; a run of the slave for all choices is a run of every
conforming memory.
-/

namespace Patmos.Ocp

/-- `MCmd`. -/
inductive OcpCmd where
  | idle
  | wr
  | rd
deriving DecidableEq, Repr

/-- `SResp`. -/
inductive OcpResp where
  | null
  | dva
  | fail
  | err
deriving DecidableEq, Repr

namespace OcpResp

/-- The bitwise OR of two codes. -/
def or : OcpResp → OcpResp → OcpResp
  | .null, r => r
  | r, .null => r
  | .dva, .dva => .dva
  | .fail, .fail => .fail
  | _, _ => .err

@[simp] theorem null_or (r : OcpResp) : or .null r = r := by cases r <;> rfl

@[simp] theorem or_null (r : OcpResp) : or r .null = r := by cases r <;> rfl

end OcpResp

/-! ### Words and byte enables -/

abbrev Byte := BitVec 8

/-- A 32-bit word as its four byte lanes. -/
abbrev Word := Fin 4 → Byte

abbrev ByteEn := Fin 4 → Bool

def allBytes : ByteEn := fun _ => true

def noBytes : ByteEn := fun _ => false

/-- Bits 7 to 0 of a word. -/
def lowByte (w : Word) : Byte := w 0

/-- The number that a word stands for. -/
def wordVal (w : Word) : Nat :=
  (w 0).toNat + 2 ^ 8 * (w 1).toNat + 2 ^ 16 * (w 2).toNat + 2 ^ 24 * (w 3).toNat

/-- The enabled bytes of `new` over `old`. -/
def merge (be : ByteEn) (new old : Word) : Word := fun l => if be l then new l else old l

@[simp] theorem merge_all (new old : Word) : merge allBytes new old = new := rfl

@[simp] theorem merge_none (new old : Word) : merge noBytes new old = old := rfl

theorem merge_apply (be : ByteEn) (new old : Word) (l : Fin 4) :
    merge be new old l = if be l then new l else old l := rfl

/-- A memory by word address. -/
abbrev Memory := Nat → Word

namespace Memory

def write (m : Memory) (a : Nat) (be : ByteEn) (w : Word) : Memory :=
  Function.update m a (merge be w (m a))

@[simp] theorem write_self (m : Memory) (a : Nat) (be : ByteEn) (w : Word) :
    m.write a be w a = merge be w (m a) := Function.update_self _ _ _

theorem write_of_ne (m : Memory) {a b : Nat} (h : b ≠ a) (be : ByteEn) (w : Word) :
    m.write a be w b = m b := Function.update_of_ne h _ _

@[simp] theorem write_noBytes (m : Memory) (a : Nat) (w : Word) : m.write a noBytes w = m := by
  unfold write
  rw [merge_none, Function.update_eq_self]

theorem write_apply (m : Memory) (a b : Nat) (be : ByteEn) (w : Word) :
    m.write a be w b = if b = a then merge be w (m a) else m b := by
  by_cases h : b = a
  · rw [if_pos h, h, write_self]
  · rw [if_neg h, write_of_ne m h]

end Memory

/-- A memory with the number of each word in its bytes. -/
def numbered : Memory := fun a _ => BitVec.ofNat 8 a

/-! ### Ports -/

/-- `OcpCacheMasterSignals`, less the address space. -/
structure CacheMaster where
  cmd : OcpCmd
  addr : Nat
  data : Word
  byteEn : ByteEn
deriving DecidableEq

/-- The signals of a master without a command. -/
def nothing : CacheMaster := ⟨.idle, 0, fun _ => 0, noBytes⟩

/-- `OcpSlaveSignals`. -/
structure CoreSlave where
  resp : OcpResp
  data : Word
deriving DecidableEq

/-- `OcpBurstMasterSignals`. -/
structure BurstMaster where
  cmd : OcpCmd
  addr : Nat
  data : Word
  dataValid : Bool
  dataByteEn : ByteEn

/-- `OcpBurstSlaveSignals`. -/
structure BurstSlave where
  resp : OcpResp
  data : Word
  cmdAccept : Bool
  dataAccept : Bool

/-- The number of answers to a command. -/
def answers (burstLength : Nat) : OcpCmd → Nat
  | .idle => 0
  | .rd => burstLength
  | .wr => 1

theorem answers_eq_zero {burstLength : Nat} (hlen : 2 ≤ burstLength) {k : OcpCmd}
    (h : answers burstLength k = 0) : k = .idle := by
  cases k with
  | idle => rfl
  | rd => exact absurd h (by simp only [answers]; omega)
  | wr => exact absurd h (by simp [answers])

/-! ### Masters with one outstanding command -/

section Outstanding

variable {κ : Type*} (pend : κ → Option CacheMaster) (resp : κ → OcpResp) (c : κ → CacheMaster)

/-- The outstanding commands after a cycle in which the masters send `c` and see `resp`. -/
def pendNext (i : κ) : Option CacheMaster :=
  if (c i).cmd ≠ .idle then some (c i) else if resp i = .null then pend i else none

/-- A master has one command outstanding, and the next one comes at the earliest with the
    answer. -/
def OneAtATime : Prop := ∀ i, (c i).cmd ≠ .idle → pend i = none ∨ resp i ≠ .null

instance [Fintype κ] : Decidable (OneAtATime pend resp c) :=
  inferInstanceAs (Decidable (∀ i, (c i).cmd ≠ .idle → pend i = none ∨ resp i ≠ .null))

variable {pend resp c} {i : κ} {m : CacheMaster}

/-- A master that waits for an answer sends nothing. -/
theorem OneAtATime.silent (h : OneAtATime pend resp c) (hpend : pend i = some m)
    (hresp : resp i = .null) : (c i).cmd = .idle := by
  by_contra hcmd
  rcases h i hcmd with hnone | hne
  · rw [hpend] at hnone
    cases hnone
  · exact hne hresp

theorem OneAtATime.pendNext (h : OneAtATime pend resp c) (hpend : pend i = some m)
    (hresp : resp i = .null) : Ocp.pendNext pend resp c i = some m := by
  simp [Ocp.pendNext, h.silent hpend hresp, hresp, hpend]

theorem pendNext_of_wait (hpend : pend i ≠ none) (hresp : resp i = .null) :
    Ocp.pendNext pend resp c i ≠ none := by
  unfold Ocp.pendNext
  split
  · exact Option.some_ne_none _
  · exact hpend

/-- A master that waits for no answer has its command outstanding, if it sends one. -/
theorem pendNext_of_free (h : pend i = none ∨ resp i ≠ .null) :
    Ocp.pendNext pend resp c i = if (c i).cmd ≠ .idle then some (c i) else none := by
  unfold Ocp.pendNext
  rcases h with hnone | hne
  · rw [hnone, ite_self]
  · rw [if_neg hne]

end Outstanding

/-! ### A burst memory -/

/-- What the slave is doing, with the word address of the burst and the number of words
    already transferred. -/
inductive Phase where
  | idle
  | read (base done : Nat)
  | write (base done : Nat)
  | resp
deriving DecidableEq, Repr

structure Slave where
  phase : Phase
  mem : Memory

/-- What the slave decides in one cycle: to accept what is presented, to respond, to make
    the response an error, and what its data port carries besides valid data. -/
structure Choice where
  accept : Bool
  go : Bool
  err : Bool
  junk : Word

namespace Slave

/-- A busy slave accepts no command; without a command the accept signals mean nothing
    and have any value. -/
def busyAccept (m : BurstMaster) (c : Choice) : Bool := m.cmd == .idle && c.accept

def respOf (c : Choice) : OcpResp := if c.go then if c.err then .err else .dva else .null

def out (s : Slave) (m : BurstMaster) (c : Choice) : BurstSlave :=
  match s.phase with
  | .idle => ⟨.null, c.junk, c.accept, c.accept⟩
  | .read base done =>
    ⟨respOf c, if c.go && !c.err then s.mem (base + done) else c.junk, busyAccept m c,
      busyAccept m c⟩
  | .write _ _ => ⟨.null, c.junk, busyAccept m c, true⟩
  | .resp => ⟨respOf c, c.junk, busyAccept m c, busyAccept m c⟩

/-- One word of a write burst, the `done`-th, goes into the memory. -/
def takeWord (burstLength : Nat) (s : Slave) (m : BurstMaster) (base done : Nat) : Slave :=
  if m.dataValid then
    { phase := if done + 1 = burstLength then .resp else .write base (done + 1)
      mem := s.mem.write (base + done) m.dataByteEn m.data }
  else s

def next (burstLength : Nat) (s : Slave) (m : BurstMaster) (c : Choice) : Slave :=
  match s.phase with
  | .idle =>
    if c.accept then
      match m.cmd with
      | .idle => s
      | .rd => { s with phase := .read (m.addr / 4) 0 }
      | .wr => takeWord burstLength s m (m.addr / 4) 0
    else s
  | .read base done =>
    if c.go then
      { s with phase := if done + 1 = burstLength then .idle else .read base (done + 1) }
    else s
  | .write base done => takeWord burstLength s m base done
  | .resp => if c.go then { s with phase := .idle } else s

theorem respOf_ne_null {c : Choice} (hgo : c.go = true) : respOf c ≠ .null := by
  rw [respOf, if_pos hgo]
  cases c.err <;> exact OcpResp.noConfusion

/-- Without errors to choose, none is answered. -/
theorem resp_ne_err {s : Slave} {m : BurstMaster} {c : Choice} (herr : c.err = false) :
    (s.out m c).resp ≠ .err := by
  have hresp : respOf c ≠ .err := by
    rw [respOf, herr]
    cases c.go <;> exact OcpResp.noConfusion
  unfold out
  split
  · exact OcpResp.noConfusion
  · exact hresp
  · exact OcpResp.noConfusion
  · exact hresp

section Next

variable {burstLength : Nat} {s : Slave} {m : BurstMaster} {c : Choice} {base done : Nat}

theorem next_of_noCmd (hs : s.phase = .idle) (hm : m.cmd = .idle) : next burstLength s m c = s := by
  simp [next, hs, hm]

theorem next_of_wait (hs : s.phase = .idle) (hc : c.accept = false) :
    next burstLength s m c = s := by
  simp [next, hs, hc]

theorem next_of_rd (hs : s.phase = .idle) (hc : c.accept = true) (hm : m.cmd = .rd) :
    next burstLength s m c = ⟨.read (m.addr / 4) 0, s.mem⟩ := by
  simp [next, hs, hm, hc]

theorem next_of_wr (hs : s.phase = .idle) (hc : c.accept = true) (hm : m.cmd = .wr)
    (hv : m.dataValid = true) :
    next burstLength s m c = ⟨if 1 = burstLength then .resp else .write (m.addr / 4) 1,
      s.mem.write (m.addr / 4) m.dataByteEn m.data⟩ := by
  simp [next, hs, hm, hc, takeWord, hv]

theorem next_of_read (hs : s.phase = .read base done) (hc : c.go = true) :
    next burstLength s m c =
      ⟨if done + 1 = burstLength then .idle else .read base (done + 1), s.mem⟩ := by
  simp [next, hs, hc]

theorem next_of_read_wait (hs : s.phase = .read base done) (hc : c.go = false) :
    next burstLength s m c = s := by
  simp [next, hs, hc]

theorem next_of_write (hs : s.phase = .write base done) (hv : m.dataValid = true) :
    next burstLength s m c =
      ⟨if done + 1 = burstLength then .resp else .write base (done + 1),
        s.mem.write (base + done) m.dataByteEn m.data⟩ := by
  simp [next, hs, takeWord, hv]

theorem next_of_resp (hs : s.phase = .resp) (hc : c.go = true) :
    next burstLength s m c = ⟨.idle, s.mem⟩ := by
  simp [next, hs, hc]

theorem next_of_resp_wait (hs : s.phase = .resp) (hc : c.go = false) :
    next burstLength s m c = s := by
  simp [next, hs, hc]

end Next

end Slave

/-- No slave can tell the signals of `n` from those of `m`: the data port may carry
    anything while it is not valid. -/
structure BurstMaster.Agree (m n : BurstMaster) : Prop where
  cmd : n.cmd = m.cmd
  addr : n.addr = m.addr
  dataValid : n.dataValid = m.dataValid
  dataByteEn : n.dataByteEn = m.dataByteEn
  data : m.dataValid = true → n.data = m.data

namespace Slave

variable {burstLength : Nat} {s : Slave} {m n : BurstMaster} {c : Choice}

theorem out_of_agree (h : m.Agree n) : s.out n c = s.out m c := by
  simp only [out, busyAccept, h.cmd]

theorem takeWord_of_agree (h : m.Agree n) (base done : Nat) :
    takeWord burstLength s n base done = takeWord burstLength s m base done := by
  cases hv : m.dataValid with
  | false => simp [takeWord, h.dataValid, hv]
  | true => simp [takeWord, h.dataValid, hv, h.dataByteEn, h.data hv]

theorem next_of_agree (h : m.Agree n) : next burstLength s n c = next burstLength s m c := by
  simp only [next, h.cmd, h.addr, takeWord_of_agree h]

end Slave

end Patmos.Ocp
