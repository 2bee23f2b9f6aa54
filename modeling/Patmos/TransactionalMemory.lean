import Patmos.Clocked
import Patmos.MemBlock
import Patmos.RoundRobin

/-!
# Transactional memory

In `TransactionalMemory` every core has a buffer of addresses and words.  A read of an address
that is not in the buffer waits for the turn of the core and copies the word of the shared memory
into the buffer; a write goes into the buffer.  A commit waits for the turn of the core, goes
through the buffer and writes the words that were written, while the turn stays; it fails when
another core has written a word that the core has read.

The turn is `corecur`, which moves on in every cycle in which nothing is committed.  Ledgers
beside the circuit keep what a transaction has read from the shared memory and written, and the
shared memory as it was before the first write of a commit.
-/

namespace Patmos.TransactionalMemory

open Ocp Clocked

/-! ### The circuit -/

/-- The parameters of the circuit, less the number of cores. -/
structure Config where
  memsize : Nat
  bufsize : Nat
  pipeline : Bool

inductive Fsm where
  | sIdle
  | sRead
  | sPreSharedRead
  | sSharedRead
  | sCommit
deriving DecidableEq, Repr

/-- The registers of one core; `bufnxt` is the value of the counter. -/
structure Core where
  ioMReg : CacheMaster
  memrdaddrReg : Nat
  bufaddrs : Nat → Nat
  bufrds : Nat → Bool
  bufwrs : Nat → Bool
  bufnxt : Nat
  bufmem : Nat → Word
  bufmemrdaddrReg : Nat
  bufconflict : Bool
  sReg : Fsm
  slaveReg : CoreSlave
  overflowReg : Bool

/-- `corecur` is the value of the counter. -/
structure State (corecnt : Nat) where
  corecur : Fin corecnt
  sharedmem : Memory
  sharedmemrdaddrReg : Nat
  core : Fin corecnt → Core

abbrev Cycle (corecnt : Nat) := Fin corecnt → CacheMaster

section Circuit

variable (cfg : Config) {corecnt : Nat}

def memaddrwidth : Nat := MemBlock.log2Up cfg.memsize

def bufaddrwidth : Nat := MemBlock.log2Up cfg.bufsize

/-- `bufaddr`, which has one bit more than an address of the memory. -/
def bufaddr (m : CacheMaster) : Nat := m.addr / 4 % 2 ^ (memaddrwidth cfg + 1)

/-- The address of a commit. -/
def isCommit (m : CacheMaster) : Bool := m.cmd == .rd && m.addr / 4 % 2 ^ 14 == 0x3FFF

def minusOne : Word := fun _ => 255

def zero : Word := fun _ => 0

/-- `ioM`. -/
def ioM (x : Core) (m : CacheMaster) : CacheMaster := if cfg.pipeline then x.ioMReg else m

def bufmatches (x : Core) (m : CacheMaster) (j : Nat) : Bool :=
  x.bufaddrs j == bufaddr cfg m && (x.bufrds j || x.bufwrs j)

/-- `OHToUInt(bufmatches)`. -/
def bufmatch (x : Core) (m : CacheMaster) : Nat :=
  (List.range cfg.bufsize).foldl (fun k j => if bufmatches cfg x m j then k ||| j else k) 0

def bufmatched (x : Core) (m : CacheMaster) : Bool :=
  (List.range cfg.bufsize).any (bufmatches cfg x m)

/-- The core whose turn it is. -/
def current (s : State corecnt) : Core := s.core s.corecur

def sharedmemwr (s : State corecnt) : Bool :=
  (current s).sReg == .sCommit && !(current s).bufconflict

def sharedmemwrfin (s : State corecnt) : Bool :=
  (current s).bufmemrdaddrReg == (current s).bufnxt

/-- The write to the shared memory: the core, the address and the word. -/
def applied (s : State corecnt) : Option (Fin corecnt × Nat × Word) :=
  if sharedmemwr s && (current s).bufwrs (current s).bufmemrdaddrReg then
    some (s.corecur, (current s).bufaddrs (current s).bufmemrdaddrReg,
      (current s).bufmem (current s).bufmemrdaddrReg)
  else none

def memNext (s : State corecnt) : Memory :=
  match applied s with
  | some (_, a, w) => Function.update s.sharedmem a w
  | none => s.sharedmem

/-- A word that core `i` has read is written by another core. -/
def conflicts (s : State corecnt) (i : Fin corecnt) : Bool :=
  match applied s with
  | some (k, a, _) =>
    k != i && (List.range cfg.bufsize).any fun j =>
      (s.core i).bufrds j && a == (s.core i).bufaddrs j
  | none => false

def sharedmemrddata (s : State corecnt) : Word := s.sharedmem s.sharedmemrdaddrReg

/-- `bufnxt.inc`. -/
def bufnxtInc (x : Core) : Nat := if x.bufnxt = cfg.bufsize then 0 else x.bufnxt + 1

/-- The end of a transaction. -/
def finished (x : Core) (data : Word) : Core :=
  { x with
    slaveReg := ⟨.dva, data⟩
    overflowReg := false
    bufnxt := 0
    bufconflict := false
    bufrds := fun _ => false
    bufwrs := fun _ => false }

/-- What happens to the registers of core `i` in every cycle, before the state machine. -/
def defaults (s : State corecnt) (i : Fin corecnt) : Core :=
  { s.core i with
    bufmemrdaddrReg := 0
    bufconflict := (s.core i).bufconflict || conflicts cfg s i
    slaveReg := ⟨.null, sharedmemrddata s⟩ }

/-- A write of a core. -/
def write (x : Core) (m : CacheMaster) : Core :=
  if bufmatched cfg x m then
    { x with
      slaveReg := { x.slaveReg with resp := .dva }
      bufmem := Function.update x.bufmem (bufmatch cfg x m) m.data
      bufwrs := Function.update x.bufwrs (bufmatch cfg x m) true }
  else if x.bufnxt = cfg.bufsize then
    { x with slaveReg := { x.slaveReg with resp := .dva }, overflowReg := true }
  else
    { x with
      slaveReg := { x.slaveReg with resp := .dva }
      bufaddrs := Function.update x.bufaddrs x.bufnxt (bufaddr cfg m % 2 ^ memaddrwidth cfg)
      bufmem := Function.update x.bufmem x.bufnxt m.data
      bufwrs := Function.update x.bufwrs x.bufnxt true
      bufnxt := bufnxtInc cfg x }

/-- A read of a core, less a commit. -/
def read (x : Core) (m : CacheMaster) : Core :=
  if bufmatched cfg x m then { x with bufmemrdaddrReg := bufmatch cfg x m, sReg := .sRead }
  else if x.bufnxt = cfg.bufsize then { x with overflowReg := true }
  else { x with memrdaddrReg := bufaddr cfg m % 2 ^ memaddrwidth cfg, sReg := .sPreSharedRead }

/-- A word of the shared memory comes into the buffer. -/
def sharedRead (x : Core) (data : Word) : Core :=
  { x with
    slaveReg := ⟨.dva, data⟩
    bufaddrs := Function.update x.bufaddrs x.bufnxt x.memrdaddrReg
    bufmem := Function.update x.bufmem x.bufnxt data
    bufrds := Function.update x.bufrds x.bufnxt true
    bufnxt := bufnxtInc cfg x
    sReg := .sIdle }

/-- The state machine of core `i`, with `m` for `ioM`. -/
def fsmNext (s : State corecnt) (i : Fin corecnt) (m : CacheMaster) : Core :=
  let x := s.core i
  let x₀ := defaults cfg s i
  match x.sReg with
  | .sIdle =>
    match m.cmd with
    | .idle => x₀
    | .wr => write cfg x₀ m
    | .rd =>
      if isCommit m then
        if x.bufnxt = 0 ∨ x.bufconflict ∨ x.overflowReg then finished x₀ minusOne
        else { x₀ with sReg := .sCommit }
      else read cfg x₀ m
  | .sRead =>
    { x₀ with slaveReg := ⟨.dva, x.bufmem x.bufmemrdaddrReg⟩, sReg := .sIdle }
  | .sPreSharedRead => if s.corecur = i then { x₀ with sReg := .sSharedRead } else x₀
  | .sSharedRead => sharedRead cfg x₀ (sharedmemrddata s)
  | .sCommit =>
    if s.corecur = i ∨ x.bufconflict then
      let x₁ := { x₀ with bufmemrdaddrReg := (x.bufmemrdaddrReg + 1) % 2 ^ bufaddrwidth cfg }
      if x.bufmemrdaddrReg = x.bufnxt ∨ x.bufconflict then
        { finished x₁ (if x.bufconflict then minusOne else zero) with sReg := .sIdle }
      else x₁
    else x₀

def coreNext (s : State corecnt) (i : Fin corecnt) (c : CacheMaster) : Core :=
  { fsmNext cfg s i (ioM cfg (s.core i) c) with ioMReg := c }

def next (s : State corecnt) (c : Cycle corecnt) : State corecnt where
  corecur := if sharedmemwr s && !sharedmemwrfin s then s.corecur else RoundRobin.succ s.corecur
  sharedmem := memNext s
  sharedmemrdaddrReg := (current s).memrdaddrReg
  core i := coreNext cfg s i (c i)

end Circuit

/-! ### Transactions -/

/-- What a transaction has read from the shared memory, what it has written last, and the
    addresses it has touched, oldest first. -/
structure Txn where
  reads : Nat → Option Word
  writes : Nat → Option Word
  touched : List Nat

namespace Txn

def empty : Txn := ⟨fun _ => none, fun _ => none, []⟩

def touch (t : Txn) (a : Nat) : List Nat := if a ∈ t.touched then t.touched else t.touched ++ [a]

/-- The word `w` is read from the shared memory. -/
def read (t : Txn) (a : Nat) (w : Word) : Txn :=
  ⟨Function.update t.reads a (some w), t.writes, t.touch a⟩

def write (t : Txn) (a : Nat) (w : Word) : Txn :=
  ⟨t.reads, Function.update t.writes a (some w), t.touch a⟩

/-- The transaction after an access that was answered with `data`.  A read of an address that
    was not touched is one of the shared memory. -/
def access (cfg : Config) (t : Txn) (m : CacheMaster) (data : Word) : Txn :=
  if isCommit m then empty
  else if m.cmd = .wr then t.write (bufaddr cfg m) m.data
  else if bufaddr cfg m ∈ t.touched then t
  else t.read (bufaddr cfg m) data

/-- The memory with the last written values. -/
def apply (t : Txn) (mem : Memory) : Memory := fun a => (t.writes a).getD (mem a)

/-- The values read are those of the memory. -/
def Reads (t : Txn) (mem : Memory) : Prop := ∀ a v, t.reads a = some v → mem a = v

/-- What a read of a touched address returns. -/
def own (t : Txn) (a : Nat) : Option Word := (t.writes a).or (t.reads a)

end Txn

/-- The circuit with its ledgers: the outstanding command and the transaction of each core, and
    the shared memory before the first write of its commit. -/
structure Sys (corecnt : Nat) where
  tm : State corecnt
  pend : Fin corecnt → Option CacheMaster
  txn : Fin corecnt → Txn
  start : Fin corecnt → Option Memory

namespace Sys

variable {corecnt : Nat}

section Next

variable (cfg : Config)

/-- The command of core `i` that is outstanding after a cycle. -/
def pendNext (y : Sys corecnt) (c : Cycle corecnt) : Fin corecnt → Option CacheMaster :=
  Ocp.pendNext y.pend (fun i => (y.tm.core i).slaveReg.resp) c

/-- The outstanding command and the answer that becomes ready in a cycle. -/
def answered (y : Sys corecnt) (c : Cycle corecnt) (i : Fin corecnt) :
    Option (CacheMaster × Word) :=
  if (coreNext cfg y.tm i (c i)).slaveReg.resp = .null then none
  else (y.pendNext c i).map fun m => (m, (coreNext cfg y.tm i (c i)).slaveReg.data)

/-- Core `i` writes into the shared memory. -/
def writes (y : Sys corecnt) (i : Fin corecnt) : Bool := (applied y.tm).any fun p => p.1 == i

def next (y : Sys corecnt) (c : Cycle corecnt) : Sys corecnt where
  tm := TransactionalMemory.next cfg y.tm c
  pend := y.pendNext c
  txn i :=
    match y.answered cfg c i with
    | some (m, data) => (y.txn i).access cfg m data
    | none => y.txn i
  start i :=
    if (y.answered cfg c i).any fun p => isCommit p.1 then none
    else if y.writes i then some ((y.start i).getD y.tm.sharedmem)
    else y.start i

/-- A core has one command outstanding, addresses are inside the memory, and a transaction
    touches at most `bufsize - 1` of them. -/
structure Legal (y : Sys corecnt) (c : Cycle corecnt) : Prop where
  single : OneAtATime y.pend (fun i => (y.tm.core i).slaveReg.resp) c
  inside : ∀ i, (c i).cmd ≠ .idle → isCommit (c i) = false → bufaddr cfg (c i) < cfg.memsize
  few : ∀ i, (c i).cmd ≠ .idle → isCommit (c i) = false →
    ((y.txn i).touch (bufaddr cfg (c i))).length ≤ cfg.bufsize - 1

end Next

/-- No commit writes a word in the cycle in which another core samples it. -/
def Apart (y : Sys corecnt) : Prop :=
  ∀ i, (y.tm.core i).sReg = .sSharedRead → ∀ k a w, applied y.tm = some (k, a, w) →
    a ≠ (y.tm.core i).memrdaddrReg

/-- The shared memory when the first write of core `i` is applied, or as it is if there was
    none yet. -/
def base (y : Sys corecnt) (i : Fin corecnt) : Memory := (y.start i).getD y.tm.sharedmem

/-- What a commit is, seen in a cycle. -/
structure Serializable (cfg : Config) (y : Sys corecnt) (c : Cycle corecnt) : Prop where
  /-- A commit that returns 0: the values read were those of the memory at the first write, and
      the memory is now that one with exactly the last written values.  A commit that returns -1
      has written nothing. -/
  commit : ∀ i m data, y.answered cfg c i = some (m, data) → isCommit m = true →
    (data = zero ∧ (y.txn i).Reads (y.base i) ∧
        (y.next cfg c).tm.sharedmem = (y.txn i).apply (y.base i)) ∨
      (data = minusOne ∧ y.start i = none ∧ y.writes i = false)
  /-- The values read are those of the memory when the first write is applied. -/
  first : ∀ i, y.writes i = true → y.start i = none → (y.txn i).Reads y.tm.sharedmem
  /-- From the first write of a commit to its end no other core writes. -/
  alone : ∀ i k, y.start i ≠ none → y.writes k = true → k = i
  /-- A core writes only while a commit of it is outstanding. -/
  during : ∀ i, y.writes i = true → ∃ m, y.pend i = some m ∧ isCommit m = true
  /-- The memory changes with these writes only. -/
  changes : applied y.tm = none → (y.next cfg c).tm.sharedmem = y.tm.sharedmem

structure IsReset (y : Sys corecnt) : Prop where
  corecur : y.tm.corecur.val = 0
  ioMReg : ∀ i, (y.tm.core i).ioMReg.cmd = .idle
  bufrds : ∀ i j, (y.tm.core i).bufrds j = false
  bufwrs : ∀ i j, (y.tm.core i).bufwrs j = false
  bufnxt : ∀ i, (y.tm.core i).bufnxt = 0
  bufmemrdaddrReg : ∀ i, (y.tm.core i).bufmemrdaddrReg = 0
  bufconflict : ∀ i, (y.tm.core i).bufconflict = false
  sReg : ∀ i, (y.tm.core i).sReg = .sIdle
  overflowReg : ∀ i, (y.tm.core i).overflowReg = false
  slaveReg : ∀ i, (y.tm.core i).slaveReg.resp = .null
  pend : ∀ i, y.pend i = none
  txn : ∀ i, y.txn i = Txn.empty
  start : ∀ i, y.start i = none

end Sys

end Patmos.TransactionalMemory
