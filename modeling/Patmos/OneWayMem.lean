import Patmos.S4Network
import Patmos.SlotCounter

/-!
# The one-way shared memory

`Node` sends the words of its transmit memory in the start slots of the schedule, one word of each
block in a period, and stores the words that arrive in its receive memory.  Both sides have a block
counter that advances with every word.
-/

namespace Patmos.OneWay

open TdmRoutes S4Noc SlotCounter Clocked

/-! ### The circuit -/

/-- The inputs of `DualPort`. -/
structure DualPort where
  rdAddr : ℕ
  wrAddr : ℕ
  wrData : ℕ
  wrEna : Bool
deriving DecidableEq

/-- `DualPortMemory` with its registered read address. -/
structure DualPortMemory where
  mem : ℕ → ℕ
  regRdAddr : ℕ

def DualPortMemory.rdData (m : DualPortMemory) : ℕ := m.mem m.regRdAddr

def DualPortMemory.next (m : DualPortMemory) (port : DualPort) : DualPortMemory where
  mem := if port.wrEna then Function.update m.mem port.wrAddr port.wrData else m.mem
  regRdAddr := port.rdAddr

/-- The tables of an `n` by `n` network and the size of the memories. -/
structure Config (n : ℕ) where
  size : ℕ
  sched : Table
  validTab : List Bool
  sched_eq : getSchedule n = some sched
  validTab_eq : validTable n = some validTab

def nrChannels (n : ℕ) : ℕ := n * n - 1

/-- The registers and memories of `Node`. -/
structure NodeRegs where
  regTdmCounter : ℕ
  regTxAddr : BlockAddr
  memTx : DualPortMemory
  regValid : Bool
  regRxAddr : BlockAddr
  memRx : DualPortMemory

/-- The network and the nodes. -/
structure Sys (n : ℕ) where
  net : S4Noc.Node n → Router ℕ
  nodes : S4Noc.Node n → NodeRegs

namespace Config

variable {n : ℕ} (cfg : Config n)

def blockAddrWidth : ℕ := MemBlock.log2Down (cfg.size / nrChannels n)

/-- `Cat(upper, lower)` at the port of a memory. -/
def memAddr (a : BlockAddr) : ℕ :=
  (a.upper * 2 ^ cfg.blockAddrWidth + a.lower) % 2 ^ MemBlock.log2Up cfg.size

/-- The channel of a node has `size` bits, the network and the memories have 32. -/
def wire (data : ℕ) : ℕ := data % 2 ^ cfg.size % 2 ^ 32

def advance (a : BlockAddr) : BlockAddr :=
  a.advance (nrChannels n) (MemBlock.log2Up (len n)) cfg.blockAddrWidth

def valid (x : NodeRegs) : Bool := cfg.validTab.getD x.regTdmCounter false

/-- What a node sends. -/
def localOut (x : NodeRegs) : Chan ℕ := ⟨cfg.wire x.memTx.rdData, x.regValid⟩

/-- The write port of the receive memory. -/
def rxPort (x : NodeRegs) (rx : Chan ℕ) (port : DualPort) : DualPort :=
  ⟨port.rdAddr, cfg.memAddr x.regRxAddr, cfg.wire rx.data, rx.valid⟩

def nodeNext (x : NodeRegs) (rx : Chan ℕ) (port : DualPort) : NodeRegs where
  regTdmCounter :=
    if x.regTdmCounter = len n - 1 then 0 else (x.regTdmCounter + 1) % 2 ^ MemBlock.log2Up (len n)
  regTxAddr := if cfg.valid x then cfg.advance x.regTxAddr else x.regTxAddr
  memTx := x.memTx.next ⟨cfg.memAddr x.regTxAddr, port.wrAddr, port.wrData, port.wrEna⟩
  regValid := cfg.valid x
  regRxAddr := if rx.valid then cfg.advance x.regRxAddr else x.regRxAddr
  memRx := x.memRx.next (cfg.rxPort x rx port)

/-- What arrives at a node. -/
def localIn (s : Sys n) (v : S4Noc.Node n) : Chan ℕ := (s.net v).out LOCAL

def next (s : Sys n) (ports : S4Noc.Node n → DualPort) : Sys n where
  net := networkNext cfg.sched (len n) s.net fun v => cfg.localOut (s.nodes v)
  nodes v := cfg.nodeNext (s.nodes v) (localIn s v) (ports v)

end Config

/-- The tables are there for every network from 2 by 2 to 10 by 10. -/
def config {n : ℕ} (h2 : 2 ≤ n) (h10 : n ≤ 10) (size : ℕ) : Config n where
  size := size
  sched := _
  validTab := _
  sched_eq := getSchedule_eq h2 h10
  validTab_eq := validTable_eq h2 h10

structure NodeRegs.IsReset (x : NodeRegs) : Prop where
  regTdmCounter : x.regTdmCounter = 0
  regTxAddr : x.regTxAddr = ⟨0, 0⟩
  regValid : x.regValid = false
  regRxAddr : x.regRxAddr = ⟨0, 0⟩

structure Sys.IsReset {n : ℕ} (s : Sys n) : Prop where
  net : S4Noc.IsReset 0 s.net
  nodes : ∀ v, (s.nodes v).IsReset

/-! ### Blocks -/

/-- The block of a route in the transmit memories: the start slots before its own. -/
def txBlock (n : ℕ) (r : Route Dir) : ℕ := Nat.count (Starts n) r.start

/-- The block of a route in the receive memories: the arrival slots before its own. -/
def rxBlock (n : ℕ) (r : Route Dir) : ℕ := Nat.count (Arrives n) (arrival r)

section Blocks

variable {n : ℕ} {r r' : Route Dir}

theorem starts_of_mem (hr : r ∈ routes n) : Starts n r.start := List.mem_map_of_mem hr

theorem arrives_of_mem (hr : r ∈ routes n) : Arrives n (arrival r) := List.mem_map_of_mem hr

theorem txBlock_lt (h2 : 2 ≤ n) (h10 : n ≤ 10) (hr : r ∈ routes n) :
    txBlock n r < nrChannels n := by
  rw [nrChannels, ← count_starts h2 h10]
  exact Nat.count_strict_mono (starts_of_mem hr) (start_lt hr)

theorem rxBlock_lt (h2 : 2 ≤ n) (h10 : n ≤ 10) (hr : r ∈ routes n) :
    rxBlock n r < nrChannels n := by
  rw [nrChannels, ← count_arrives h2 h10]
  exact Nat.count_strict_mono (arrives_of_mem hr) (arrival_lt hr)

theorem eq_of_txBlock_eq (h10 : n ≤ 10) (hr : r ∈ routes n) (hr' : r' ∈ routes n)
    (h : txBlock n r = txBlock n r') : r = r' :=
  eq_of_start_eq h10 hr hr' (Nat.count_injective (starts_of_mem hr) (starts_of_mem hr') h)

theorem eq_of_rxBlock_eq (h10 : n ≤ 10) (hr : r ∈ routes n) (hr' : r' ∈ routes n)
    (h : rxBlock n r = rxBlock n r') : r = r' :=
  eq_of_arrival_eq h10 hr hr' (Nat.count_injective (arrives_of_mem hr) (arrives_of_mem hr') h)

end Blocks

namespace Config

variable {n : ℕ} (cfg : Config n)

include cfg in
theorem two_le : 2 ≤ n := (size_of_getSchedule cfg.sched_eq).1

include cfg in
theorem le_ten : n ≤ 10 := (size_of_getSchedule cfg.sched_eq).2

theorem implements : Implements (links n) (routes n) .n (len n) cfg.sched :=
  implements_of_getSchedule cfg.sched_eq

include cfg in
theorem len_pos : 0 < len n := S4Noc.len_pos cfg.two_le cfg.le_ten

include cfg in
theorem nrChannels_pos : 0 < nrChannels n := by
  have h2 := cfg.two_le
  have hsq : 2 * 2 ≤ n * n := Nat.mul_le_mul h2 h2
  rw [nrChannels]
  omega

include cfg in
/-- The registers are wide enough for the number of a block. -/
theorem nrChannels_le : nrChannels n ≤ 2 ^ MemBlock.log2Up (len n) := by
  refine le_trans ?_ (MemBlock.le_pow_log2Up _)
  rw [nrChannels, ← count_starts cfg.two_le cfg.le_ten]
  exact Nat.count_le _

/-- The blocks fit in a memory that has room for two words of each. -/
theorem memAddr_eq (hsize : 2 * nrChannels n ≤ cfg.size) {a : BlockAddr}
    (hupper : a.upper < nrChannels n) (hlower : a.lower < 2 ^ cfg.blockAddrWidth) :
    cfg.memAddr a = a.upper * 2 ^ cfg.blockAddrWidth + a.lower := by
  have hpos := cfg.nrChannels_pos
  have hblock : 2 ^ cfg.blockAddrWidth ≤ cfg.size / nrChannels n :=
    MemBlock.pow_log2Down_le ((Nat.le_div_iff_mul_le hpos).mpr hsize)
  have hfit : nrChannels n * 2 ^ cfg.blockAddrWidth ≤ cfg.size :=
    (Nat.mul_le_mul_left _ hblock).trans (Nat.mul_div_le _ _)
  refine Nat.mod_eq_of_lt (lt_of_lt_of_le ?_ (hfit.trans (MemBlock.le_pow_log2Up _)))
  calc a.upper * 2 ^ cfg.blockAddrWidth + a.lower
      < a.upper * 2 ^ cfg.blockAddrWidth + 2 ^ cfg.blockAddrWidth := Nat.add_lt_add_left hlower _
    _ = (a.upper + 1) * 2 ^ cfg.blockAddrWidth := (Nat.succ_mul _ _).symm
    _ ≤ nrChannels n * 2 ^ cfg.blockAddrWidth := Nat.mul_le_mul_right _ hupper

theorem memAddr_div (hsize : 2 * nrChannels n ≤ cfg.size) {a : BlockAddr}
    (hupper : a.upper < nrChannels n) (hlower : a.lower < 2 ^ cfg.blockAddrWidth) :
    cfg.memAddr a / 2 ^ cfg.blockAddrWidth = a.upper := by
  rw [cfg.memAddr_eq hsize hupper hlower, add_comm, Nat.add_mul_div_right _ _ (by positivity),
    Nat.div_eq_of_lt hlower, zero_add]

theorem memAddr_injective (hsize : 2 * nrChannels n ≤ cfg.size) {a b : BlockAddr}
    (haUpper : a.upper < nrChannels n) (haLower : a.lower < 2 ^ cfg.blockAddrWidth)
    (hbUpper : b.upper < nrChannels n) (hbLower : b.lower < 2 ^ cfg.blockAddrWidth)
    (h : cfg.memAddr a = cfg.memAddr b) : a = b := by
  have hupper : a.upper = b.upper := by
    rw [← cfg.memAddr_div hsize haUpper haLower, h, cfg.memAddr_div hsize hbUpper hbLower]
  have hlower : a.lower = b.lower := by
    rw [cfg.memAddr_eq hsize haUpper haLower, cfg.memAddr_eq hsize hbUpper hbLower, hupper] at h
    exact add_left_cancel h
  exact BlockAddr.ext hupper hlower

end Config

/-! ### Runs -/

section Runs

variable {n : ℕ} (cfg : Config n) (s₀ : Sys n) (ports : ℕ → S4Noc.Node n → DualPort)

/-- The state before cycle `t`. -/
def sysAt (t : ℕ) : Sys n := stateAt cfg.next s₀ ports t

/-- What the nodes send in cycle `t`. -/
def sent (t : ℕ) (v : S4Noc.Node n) : Chan ℕ := cfg.localOut ((sysAt cfg s₀ ports t).nodes v)

/-- What the nodes receive in cycle `t`. -/
def received (t : ℕ) (v : S4Noc.Node n) : Chan ℕ := Config.localIn (sysAt cfg s₀ ports t) v

/-- A word of a transmit memory. -/
def word (v : S4Noc.Node n) (block offset : ℕ) : ℕ :=
  (s₀.nodes v).memTx.mem (cfg.memAddr ⟨block, offset⟩)

end Runs

section Tx

variable {n : ℕ} {cfg : Config n} {s₀ : Sys n} {ports : ℕ → S4Noc.Node n → DualPort}

theorem net_sysAt (t : ℕ) :
    (sysAt cfg s₀ ports t).net = netAt cfg.sched (len n) s₀.net (sent cfg s₀ ports) t := by
  induction t with
  | zero => rfl
  | succ t ih =>
    change networkNext cfg.sched (len n) (sysAt cfg s₀ ports t).net _ = _
    rw [ih]
    rfl

variable (hreset : s₀.IsReset)

include hreset

theorem regTdmCounter_sysAt (t : ℕ) (v : S4Noc.Node n) :
    ((sysAt cfg s₀ ports t).nodes v).regTdmCounter = t % len n := by
  induction t with
  | zero => exact (hreset.nodes v).regTdmCounter.trans (Nat.zero_mod _).symm
  | succ t ih =>
    rw [← MemBlock.count_next cfg.len_pos, ← ih]
    rfl

theorem valid_sysAt (t : ℕ) (v : S4Noc.Node n) :
    cfg.valid ((sysAt cfg s₀ ports t).nodes v) = decide (Starts n (t % len n)) := by
  have hlt := Nat.mod_lt t cfg.len_pos
  have htab := cfg.validTab_eq
  rw [validTable_eq cfg.two_le cfg.le_ten] at htab
  rw [Config.valid, regTdmCounter_sysAt hreset, ← Option.some.inj htab, List.getD_eq_getElem?_getD,
    List.getElem?_map, List.getElem?_range hlt]
  rfl

theorem regTxAddr_sysAt (t : ℕ) (v : S4Noc.Node n) :
    ((sysAt cfg s₀ ports t).nodes v).regTxAddr =
      BlockAddr.after (nrChannels n) cfg.blockAddrWidth (marks (Starts n) (len n) t) := by
  refine eq_after_count (p := fun t => Starts n (t % len n))
    (a := fun t => ((sysAt cfg s₀ ports t).nodes v).regTxAddr)
    cfg.nrChannels_pos cfg.nrChannels_le (hreset.nodes v).regTxAddr (fun t => ?_) t
  change (if cfg.valid ((sysAt cfg s₀ ports t).nodes v) then _ else _) = _
  rw [valid_sysAt hreset]
  simp only [decide_eq_true_eq]
  rfl

end Tx

end Patmos.OneWay
