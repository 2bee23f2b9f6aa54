import Patmos.MemBlock

/-!
# The scratchpad memory

`Spm` is a memory of byte lanes behind an OCP port.  It answers every command in the next cycle; the
data are those of the registered address.  The signals of its port are those on the wires, where a
command has three bits, since some circuits merge them bit by bit.
-/

namespace Patmos.Spm

open Ocp

/-- The code of a command on the wires. -/
def code : OcpCmd → BitVec 3
  | .idle => 0
  | .wr => 1
  | .rd => 2

theorem code_injective : Function.Injective code := by
  intro a b h
  cases a <;> cases b <;> first | rfl | exact absurd h (by decide)

/-- `OcpCoreMasterSignals` on the wires. -/
structure Master where
  cmd : BitVec 3
  addr : Nat
  data : Word
  byteEn : ByteEn
deriving DecidableEq

namespace Master

def zero : Master := ⟨0, 0, fun _ => 0, noBytes⟩

/-- The bitwise OR of each signal. -/
def or (a b : Master) : Master :=
  ⟨a.cmd ||| b.cmd, a.addr ||| b.addr, fun l => a.data l ||| b.data l,
    fun l => a.byteEn l || b.byteEn l⟩

@[simp] theorem zero_or (a : Master) : zero.or a = a := by
  simp [zero, or, noBytes]

@[simp] theorem or_zero (a : Master) : a.or zero = a := by
  simp [zero, or, noBytes]

end Master

/-- The signals of a core. -/
def wires (m : CacheMaster) : Master := ⟨code m.cmd, m.addr, m.data, m.byteEn⟩

/-- The registers; `mem` and `rdAddrReg` are those of the four byte memories, and `undefReg` is what
    an address outside of them reads, which may be anything in every cycle. -/
structure State where
  cmdReg : BitVec 3
  mem : Memory
  rdAddrReg : Nat
  undefReg : Word

section Circuit

variable (size : Nat)

/-- The word that an address selects; the port has `log2Up(size)` address bits. -/
def wordAddr (addr : Nat) : Nat :=
  addr % 2 ^ MemBlock.log2Up size / 4 % 2 ^ MemBlock.log2Up (size / 4)

def stmsk (m : Master) : ByteEn := if m.cmd = code .wr then m.byteEn else noBytes

def next (s : State) (m : Master) (undef : Word) : State where
  cmdReg := m.cmd
  mem := MemBlock.writeBytes (size / 4) s.mem (stmsk m) (wordAddr size m.addr) m.data
  rdAddrReg := wordAddr size m.addr
  undefReg := undef

/-- `io.S`. -/
def out (s : State) : CoreSlave :=
  ⟨if s.cmdReg = code .wr ∨ s.cmdReg = code .rd then .dva else .null,
    MemBlock.read (size / 4) s.mem s.rdAddrReg s.undefReg⟩

end Circuit

/-! ### What a command does -/

section Commands

variable (size : Nat)

/-- The memory after a command. -/
def store (mem : Memory) (m : CacheMaster) : Memory :=
  if m.cmd = .wr then
    MemBlock.writeBytes (size / 4) mem m.byteEn (wordAddr size m.addr) m.data
  else mem

/-- The word that a read gives; outside of the memory it is `undef`. -/
def load (mem : Memory) (m : CacheMaster) (undef : Word) : Word :=
  MemBlock.read (size / 4) mem (wordAddr size m.addr) undef

variable {size}

theorem mem_next_wires (s : State) (m : CacheMaster) (undef : Word) :
    (next size s (wires m) undef).mem = store size s.mem m := by
  unfold next store stmsk
  by_cases h : m.cmd = .wr
  · rw [if_pos h, if_pos (show (wires m).cmd = code .wr by rw [wires, h])]
    rfl
  · have hcode : (wires m).cmd ≠ code .wr := fun heq => h (code_injective heq)
    rw [if_neg h, if_neg hcode, MemBlock.writeBytes_noBytes]

theorem mem_next_of_ne {m : Master} (s : State) (h : m.cmd ≠ code .wr) (undef : Word) :
    (next size s m undef).mem = s.mem := by
  rw [next, stmsk, if_neg h, MemBlock.writeBytes_noBytes]

theorem data_next_wires (s : State) {m : CacheMaster} (h : m.cmd = .rd) (undef : Word) :
    (out size (next size s (wires m) undef)).data = load size s.mem m undef := by
  have hkeep : (next size s (wires m) undef).mem = s.mem := by
    rw [mem_next_wires, store, if_neg (by rw [h]; exact OcpCmd.noConfusion)]
  rw [out, hkeep]
  rfl

end Commands

end Patmos.Spm
