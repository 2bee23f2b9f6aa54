import Mathlib.Data.BitVec
import Patmos.S4Network
import Patmos.TwoWaySchedule

/-!
# The two-way memory

Every node has a memory.  A request of a node for another memory waits in the network interface for
the slot of that node and travels through the write network; a read is answered through the
read-back network, whose schedule is the inverted one and runs ahead of the other.  The reply waits
in a FIFO such that all replies are sent the same time after their request.
-/

namespace Patmos.TwoWay

open TdmRoutes S4Noc Clocked

/-! ### The circuit -/

/-- `SingleRwChannel` without its valid signal. -/
structure Rw where
  rw : Bool
  address : ℕ
  data : Ocp.Word
deriving DecidableEq

/-- The schedules of both networks and the size of all memories together. -/
structure Config (n : ℕ) where
  size : ℕ
  sched : Table
  schedBack : Table
  sched_eq : getSchedule n false = some sched
  schedBack_eq : getSchedule n true = some schedBack

/-- The registers and the memory of `NI`. -/
structure NI where
  regTdmCounter : ℕ
  regDelay : ℕ
  delayValid : Bool
  delayData : ℕ
  transmitted : Bool
  notProcessed : Bool
  /-- `inRwReg`, `inAddressReg` and `inDataReg`. -/
  inReg : Rw
  gotValue : Bool
  rbFIFO : ℕ → Chan Ocp.Word
  FIFOTdmCounter : ℕ
  shiftedTdmCounter : ℕ
  regShiftedTdmCounter : ℕ
  mem : ℕ → Ocp.Word
  regAddrA : ℕ
  regAddrB : ℕ

/-- The networks and the network interfaces. -/
structure Sys (n : ℕ) where
  writeNet : Node n → Router Rw
  readBackNet : Node n → Router Ocp.Word
  nis : Node n → NI

namespace Config

variable {n : ℕ} (cfg : Config n)

def blockAddrWidth : ℕ := MemBlock.log2Down (cfg.size / (n * n))

def writeNetWidth : ℕ := MemBlock.log2Down cfg.size - MemBlock.log2Down (n * n)

/-- The node of an address. -/
def upperAddr (address : ℕ) : ℕ :=
  address / 2 ^ cfg.blockAddrWidth % 2 ^ MemBlock.log2Up (n * n)

/-- The address in a block. -/
def lowerAddr (address : ℕ) : ℕ := address % 2 ^ cfg.blockAddrWidth

section Request

variable (v : Node n) (x : NI) (req : Chan Rw)

def isLocal : Bool := cfg.upperAddr req.data.address == index v

/-- The request for another node that is handled in this cycle, a new one or the sampled one. -/
def remote : Option Rw :=
  if req.valid then if cfg.isLocal v req then none else some req.data
  else if x.notProcessed then some x.inReg else none

/-- The slot of the node has come. -/
def valid : Bool :=
  timeSlotToNode n (index v)
    (cfg.upperAddr (if x.notProcessed then x.inReg.address else req.data.address)) == x.regDelay

/-- A read is sent only once. -/
def transmits (q : Rw) : Bool := cfg.valid v x req && (q.rw || !x.transmitted)

/-- `writeChannel.out`. -/
def writeOut : Chan Rw :=
  match cfg.remote v x req with
  | some q => ⟨⟨q.rw, cfg.lowerAddr q.address, q.data⟩, cfg.transmits v x req q⟩
  | none => ⟨⟨false, 0, 0⟩, false⟩

/-- What the write network carries of it, and the receiver takes of that. -/
def wire (c : Chan Rw) : Chan Rw :=
  ⟨⟨c.data.rw, c.data.address % 2 ^ cfg.writeNetWidth % 2 ^ cfg.blockAddrWidth, c.data.data⟩,
    c.valid⟩

/-- `memReq.out`. -/
def memReqOut (rbIn : Chan Ocp.Word) : Chan Ocp.Word :=
  if rbIn.valid then ⟨rbIn.data, true⟩
  else
    ⟨if x.delayData = 1 then x.mem x.regAddrA else if x.delayData = 2 then rbIn.data else 0,
      x.delayValid⟩

end Request

/-- `readBackChannel.out`. -/
def readBackOut (n : ℕ) (x : NI) : Chan Ocp.Word :=
  let lookupvalue := (bufferLookup n).getD x.regShiftedTdmCounter 0
  if lookupvalue = 0 then ⟨x.mem x.regAddrB, x.gotValue⟩
  else if lookupvalue = -1 then ⟨x.mem x.regAddrB, false⟩
  else x.rbFIFO (lookupvalue.toNat - 1)

def tick (n c : ℕ) : ℕ := if c = len n - 1 then 0 else (c + 1) % 2 ^ MemBlock.log2Up (len n)

/-- A request of the node itself. -/
def localReq (v : Node n) (req : Chan Rw) : Bool := req.valid && cfg.isLocal v req

/-- `TrueDualPortMemory`: port A is for the node, port B for the write network. -/
def memNext (v : Node n) (mem : ℕ → Ocp.Word) (req writeIn : Chan Rw) : ℕ → Ocp.Word :=
  let memA := if cfg.localReq v req && req.data.rw
    then Function.update mem (cfg.lowerAddr req.data.address) req.data.data else mem
  if writeIn.valid && writeIn.data.rw
  then Function.update memA writeIn.data.address writeIn.data.data else memA

def niNext (v : Node n) (x : NI) (req writeIn : Chan Rw) (rbIn : Chan Ocp.Word) : NI where
  regTdmCounter := tick n x.regTdmCounter
  regDelay := x.regTdmCounter
  delayValid := cfg.localReq v req ||
    (cfg.remote v x req).any fun q => q.rw && cfg.transmits v x req q
  delayData := if rbIn.valid then 2 else if cfg.localReq v req then 1 else 0
  transmitted := !rbIn.valid && (x.transmitted ||
    (cfg.remote v x req).any fun q => !q.rw && cfg.transmits v x req q)
  notProcessed := (cfg.remote v x req).any fun q => !cfg.transmits v x req q
  inReg := if req.valid && !cfg.isLocal v req then req.data else x.inReg
  gotValue := localValid n x.FIFOTdmCounter && (writeIn.valid && !writeIn.data.rw)
  rbFIFO
    | 0 => ⟨x.mem x.regAddrB, x.gotValue⟩
    | k + 1 => x.rbFIFO k
  FIFOTdmCounter := tick n x.FIFOTdmCounter
  shiftedTdmCounter := tick n x.shiftedTdmCounter
  regShiftedTdmCounter := x.shiftedTdmCounter
  mem := cfg.memNext v x.mem req writeIn
  regAddrA :=
    if cfg.localReq v req && req.data.rw then x.regAddrA
    else if cfg.localReq v req then cfg.lowerAddr req.data.address else 0
  regAddrB := if writeIn.valid && writeIn.data.rw then x.regAddrB else writeIn.data.address

/-- What arrives from the write network. -/
def writeIn (s : Sys n) (v : Node n) : Chan Rw := (s.writeNet v).out LOCAL

/-- What arrives from the read-back network. -/
def readBackIn (s : Sys n) (v : Node n) : Chan Ocp.Word := (s.readBackNet v).out LOCAL

def next (s : Sys n) (reqs : Node n → Chan Rw) : Sys n where
  writeNet := networkNext cfg.sched (len n) s.writeNet fun v =>
    cfg.wire (cfg.writeOut v (s.nis v) (reqs v))
  readBackNet := networkNext cfg.schedBack (len n) s.readBackNet fun v => readBackOut n (s.nis v)
  nis v := cfg.niNext v (s.nis v) (reqs v) (writeIn s v) (readBackIn s v)

end Config

/-- The tables are there for every network from 2 by 2 to 10 by 10. -/
def config {n : ℕ} (h2 : 2 ≤ n) (h10 : n ≤ 10) (size : ℕ) : Config n where
  size := size
  sched := _
  schedBack := _
  sched_eq := (getSchedule_false n).trans (S4Noc.getSchedule_eq h2 h10)
  schedBack_eq := getSchedule_true_eq h2 h10

structure NI.IsReset (n : ℕ) (x : NI) : Prop where
  regTdmCounter : x.regTdmCounter = 0
  regDelay : x.regDelay = 0
  delayValid : x.delayValid = false
  transmitted : x.transmitted = false
  notProcessed : x.notProcessed = false
  gotValue : x.gotValue = false
  rbFIFO : ∀ k, (x.rbFIFO k).valid = false
  FIFOTdmCounter : x.FIFOTdmCounter = len n - 2
  shiftedTdmCounter : x.shiftedTdmCounter = timeShift n
  regShiftedTdmCounter : x.regShiftedTdmCounter = 0

structure Sys.IsReset {n : ℕ} (s : Sys n) : Prop where
  writeNet : S4Noc.IsReset 0 s.writeNet
  readBackNet : S4Noc.IsReset (timeShift n) s.readBackNet
  nis : ∀ v, (s.nis v).IsReset n

namespace Config

variable {n : ℕ} (cfg : Config n)

theorem s4_sched_eq : S4Noc.getSchedule n = some cfg.sched :=
  (getSchedule_false n).symm.trans cfg.sched_eq

include cfg in
theorem two_le : 2 ≤ n := (size_of_getSchedule cfg.s4_sched_eq).1

include cfg in
theorem le_ten : n ≤ 10 := (size_of_getSchedule cfg.s4_sched_eq).2

include cfg in
theorem len_pos : 0 < len n := S4Noc.len_pos cfg.two_le cfg.le_ten

include cfg in
theorem timeShift_lt : timeShift n < len n := by
  have := clockOffSet_lt cfg.two_le cfg.le_ten
  rw [timeShift]
  omega

theorem implements : Implements (links n) (routes n) .n (len n) cfg.sched :=
  implements_of_getSchedule cfg.s4_sched_eq

theorem implementsBack :
    Implements (links n) ((routes n).map (Route.back (links n))) .s (len n) cfg.schedBack := by
  have heq := cfg.schedBack_eq
  rw [getSchedule_true_eq cfg.two_le cfg.le_ten] at heq
  rw [← Option.some.inj heq]
  exact implements_back cfg.le_ten

/-- The write network has room for the addresses of a block. -/
theorem blockAddrWidth_le (hsize : 2 * (n * n) ≤ cfg.size) :
    cfg.blockAddrWidth ≤ cfg.writeNetWidth := by
  have h2 := cfg.two_le
  have hsq : 2 * 2 ≤ n * n := Nat.mul_le_mul h2 h2
  have hblock : 2 ≤ cfg.size / (n * n) := (Nat.le_div_iff_mul_le (by omega)).mpr hsize
  have hprod : 2 ^ (MemBlock.log2Down (n * n) + cfg.blockAddrWidth) ≤ cfg.size := by
    rw [Nat.pow_add]
    calc 2 ^ MemBlock.log2Down (n * n) * 2 ^ cfg.blockAddrWidth
        ≤ n * n * (cfg.size / (n * n)) :=
          Nat.mul_le_mul (MemBlock.pow_log2Down_le (by omega)) (MemBlock.pow_log2Down_le hblock)
      _ ≤ cfg.size := Nat.mul_div_le _ _
  have hlog : MemBlock.log2Down (n * n) + cfg.blockAddrWidth ≤ Nat.log 2 cfg.size :=
    Nat.le_log_of_pow_le Nat.one_lt_two hprod
  have hmax : Nat.log 2 cfg.size ≤ MemBlock.log2Down cfg.size := Nat.le_max_right _ _
  rw [writeNetWidth]
  omega

theorem wire_lowerAddr (hsize : 2 * (n * n) ≤ cfg.size) (b : Bool) (address : ℕ) (data : Ocp.Word)
    (valid : Bool) :
    cfg.wire ⟨⟨b, cfg.lowerAddr address, data⟩, valid⟩ =
      ⟨⟨b, cfg.lowerAddr address, data⟩, valid⟩ := by
  have hlt : cfg.lowerAddr address < 2 ^ cfg.blockAddrWidth := Nat.mod_lt _ (Nat.two_pow_pos _)
  have hpow : 2 ^ cfg.blockAddrWidth ≤ 2 ^ cfg.writeNetWidth :=
    Nat.pow_le_pow_right two_pos (cfg.blockAddrWidth_le hsize)
  simp only [wire, Nat.mod_eq_of_lt (hlt.trans_le hpow), Nat.mod_eq_of_lt hlt]

end Config

/-! ### Runs -/

section Runs

variable {n : ℕ} (cfg : Config n) (s₀ : Sys n) (reqs : ℕ → Node n → Chan Rw)

/-- The state before cycle `t`. -/
def sysAt (t : ℕ) : Sys n := stateAt cfg.next s₀ reqs t

def niAt (t : ℕ) (v : Node n) : NI := (sysAt cfg s₀ reqs t).nis v

/-- What a node sends through the write network in cycle `t`. -/
def writeOutAt (t : ℕ) (v : Node n) : Chan Rw :=
  cfg.wire (cfg.writeOut v (niAt cfg s₀ reqs t v) (reqs t v))

def writeInAt (t : ℕ) (v : Node n) : Chan Rw := Config.writeIn (sysAt cfg s₀ reqs t) v

/-- What a node sends through the read-back network in cycle `t`. -/
def readBackOutAt (t : ℕ) (v : Node n) : Chan Ocp.Word :=
  Config.readBackOut n (niAt cfg s₀ reqs t v)

def readBackInAt (t : ℕ) (v : Node n) : Chan Ocp.Word := Config.readBackIn (sysAt cfg s₀ reqs t) v

/-- The answer that a node sees in cycle `t`. -/
def answerAt (t : ℕ) (v : Node n) : Chan Ocp.Word :=
  Config.memReqOut (niAt cfg s₀ reqs t v) (readBackInAt cfg s₀ reqs t v)

def memAt (t : ℕ) (v : Node n) : ℕ → Ocp.Word := (niAt cfg s₀ reqs t v).mem

end Runs

section Timing

variable {n : ℕ} {cfg : Config n} {s₀ : Sys n} {reqs : ℕ → Node n → Chan Rw}

theorem niAt_succ (t : ℕ) (v : Node n) :
    niAt cfg s₀ reqs (t + 1) v = cfg.niNext v (niAt cfg s₀ reqs t v) (reqs t v)
      (writeInAt cfg s₀ reqs t v) (readBackInAt cfg s₀ reqs t v) := rfl

theorem counter_eq {c : ℕ → ℕ} {first : ℕ} (hfirst : first < len n) (hzero : c 0 = first)
    (hstep : ∀ t, c (t + 1) = Config.tick n (c t)) (t : ℕ) : c t = (first + t) % len n := by
  induction t with
  | zero => rw [hzero, add_zero, Nat.mod_eq_of_lt hfirst]
  | succ t ih =>
    rw [hstep, ih, ← add_assoc, ← MemBlock.count_next (Nat.zero_lt_of_lt hfirst)]
    rfl

variable (hreset : s₀.IsReset)

include hreset

/-- The slot of the requests; the schedule begins in cycle 1. -/
theorem regDelay_niAt (t : ℕ) (v : Node n) :
    (niAt cfg s₀ reqs t v).regDelay = (t - 1) % len n := by
  cases t with
  | zero =>
    rw [Nat.zero_sub, Nat.zero_mod]
    exact (hreset.nis v).regDelay
  | succ t =>
    have hcount := counter_eq (c := fun t => (niAt cfg s₀ reqs t v).regTdmCounter) cfg.len_pos
      (hreset.nis v).regTdmCounter (fun _ => rfl) t
    rw [zero_add] at hcount
    exact hcount

theorem FIFOTdmCounter_niAt (t : ℕ) (v : Node n) :
    (niAt cfg s₀ reqs t v).FIFOTdmCounter = (len n - 2 + t) % len n := by
  have hlen := cfg.len_pos
  exact counter_eq (c := fun t => (niAt cfg s₀ reqs t v).FIFOTdmCounter) (by omega)
    (hreset.nis v).FIFOTdmCounter (fun _ => rfl) t

theorem regShiftedTdmCounter_niAt (t : ℕ) (v : Node n) :
    (niAt cfg s₀ reqs (t + 1) v).regShiftedTdmCounter = (timeShift n + t) % len n :=
  counter_eq (c := fun t => (niAt cfg s₀ reqs t v).shiftedTdmCounter) cfg.timeShift_lt
    (hreset.nis v).shiftedTdmCounter (fun _ => rfl) t

omit hreset in
theorem writeNet_sysAt (t : ℕ) : (sysAt cfg s₀ reqs t).writeNet =
    netAt cfg.sched (len n) s₀.writeNet (writeOutAt cfg s₀ reqs) t := by
  induction t with
  | zero => rfl
  | succ t ih =>
    change networkNext cfg.sched (len n) (sysAt cfg s₀ reqs t).writeNet _ = _
    rw [ih]
    rfl

omit hreset in
theorem readBackNet_sysAt (t : ℕ) : (sysAt cfg s₀ reqs t).readBackNet =
    netAt cfg.schedBack (len n) s₀.readBackNet (readBackOutAt cfg s₀ reqs) t := by
  induction t with
  | zero => rfl
  | succ t ih =>
    change networkNext cfg.schedBack (len n) (sysAt cfg s₀ reqs t).readBackNet _ = _
    rw [ih]
    rfl

/-- The write network is a run of the routes, if nothing is sent in cycle 0. -/
theorem runs_writeNet (hquiet : ∀ v, (writeOutAt cfg s₀ reqs 0 v).valid = false) :
    Runs (links n) cfg.sched (len n) (fun x : Chan Rw => x.valid = true)
      (fun t => (0 + (t - 1)) % len n) (writeOutAt cfg s₀ reqs)
      (fun t v p => ((sysAt cfg s₀ reqs t).writeNet v).out p) := by
  simp only [writeNet_sysAt]
  exact runs_netAt cfg.sched cfg.len_pos hreset.writeNet hquiet

theorem readBackOutAt_zero (v : Node n) : (readBackOutAt cfg s₀ reqs 0 v).valid = false := by
  have hni := hreset.nis v
  change (Config.readBackOut n (s₀.nis v)).valid = false
  unfold Config.readBackOut
  simp only
  split
  · exact hni.gotValue
  · split
    · rfl
    · exact hni.rbFIFO _

variable (cfg reqs) in
/-- The read-back network is a run of the inverted routes. -/
theorem runs_readBackNet :
    Runs (links n) cfg.schedBack (len n) (fun x : Chan Ocp.Word => x.valid = true)
      (fun t => (timeShift n + (t - 1)) % len n) (readBackOutAt cfg s₀ reqs)
      (fun t v p => ((sysAt cfg s₀ reqs t).readBackNet v).out p) := by
  simp only [readBackNet_sysAt]
  exact runs_netAt cfg.schedBack cfg.timeShift_lt hreset.readBackNet (readBackOutAt_zero hreset)

/-! ### The FIFO of the replies -/

/-- How long the reply for a route waits in the FIFO. -/
def waits (n : ℕ) (r : Route Dir) : ℕ := clockOffSet n - (r.path.length + 1)

omit hreset in
theorem rbFIFO_niAt (t k : ℕ) (v : Node n) :
    (niAt cfg s₀ reqs (t + k + 1) v).rbFIFO k =
      ⟨(niAt cfg s₀ reqs t v).mem (niAt cfg s₀ reqs t v).regAddrB,
        (niAt cfg s₀ reqs t v).gotValue⟩ := by
  induction k with
  | zero => rfl
  | succ k ih => exact ih

theorem rbFIFO_early {t k : ℕ} (h : t ≤ k) (v : Node n) :
    ((niAt cfg s₀ reqs t v).rbFIFO k).valid = false := by
  induction t generalizing k with
  | zero => exact (hreset.nis v).rbFIFO k
  | succ t ih =>
    obtain ⟨k, rfl⟩ := Nat.exists_eq_succ_of_ne_zero (ne_of_gt (Nat.zero_lt_of_lt h))
    exact ih (Nat.le_of_succ_le_succ h)

variable {r : Route Dir} {t : ℕ} {v : Node n}

omit hreset in
theorem lookup_start (hr : r ∈ routes n)
    (hslot : (niAt cfg s₀ reqs t v).regShiftedTdmCounter = r.start) :
    (bufferLookup n).getD (niAt cfg s₀ reqs t v).regShiftedTdmCounter 0 = (waits n r : ℤ) := by
  have hle := length_le_clockOffSet cfg.two_le cfg.le_ten r hr
  rw [List.getD_eq_getElem?_getD, hslot, bufferLookup_start cfg.le_ten hr, Option.getD_some, waits,
    Nat.cast_sub hle]

omit hreset in
/-- In the slot of a route the reply is sent that is ready since its time to wait. -/
theorem readBackOutAt_start (hr : r ∈ routes n)
    (hslot : (niAt cfg s₀ reqs (t + waits n r) v).regShiftedTdmCounter = r.start) :
    readBackOutAt cfg s₀ reqs (t + waits n r) v =
      ⟨(niAt cfg s₀ reqs t v).mem (niAt cfg s₀ reqs t v).regAddrB,
        (niAt cfg s₀ reqs t v).gotValue⟩ := by
  have hlookup := lookup_start hr hslot
  rw [readBackOutAt, Config.readBackOut]
  simp only [hlookup]
  rcases Nat.eq_zero_or_pos (waits n r) with hzero | hpos
  · rw [hzero, Nat.cast_zero, if_pos rfl]
    rfl
  · rw [if_neg (by omega), if_neg (by omega), Int.toNat_natCast]
    obtain ⟨k, hk⟩ := Nat.exists_eq_add_of_le' hpos
    rw [hk, Nat.add_sub_cancel]
    exact rbFIFO_niAt t k v

theorem readBackOutAt_early (hr : r ∈ routes n)
    (hslot : (niAt cfg s₀ reqs t v).regShiftedTdmCounter = r.start) (ht : t < waits n r) :
    (readBackOutAt cfg s₀ reqs t v).valid = false := by
  have hlookup := lookup_start hr hslot
  rw [readBackOutAt, Config.readBackOut]
  simp only [hlookup]
  rw [if_neg (by omega), if_neg (by omega), Int.toNat_natCast]
  exact rbFIFO_early hreset (by omega) v

omit hreset in
theorem readBackOutAt_other (hlt : (niAt cfg s₀ reqs t v).regShiftedTdmCounter < len n)
    (hslot : ¬ Starts n (niAt cfg s₀ reqs t v).regShiftedTdmCounter) :
    (readBackOutAt cfg s₀ reqs t v).valid = false := by
  have hlookup := bufferLookup_of_not_starts cfg.two_le cfg.le_ten hlt hslot
  rw [readBackOutAt, Config.readBackOut]
  simp only [List.getD_eq_getElem?_getD, hlookup, Option.getD_some]
  rfl

omit hreset in
/-- A read that arrives is ready in the next cycle. -/
theorem read_niAt (hread : (writeInAt cfg s₀ reqs t v).data.rw = false) :
    (niAt cfg s₀ reqs (t + 1) v).mem (niAt cfg s₀ reqs (t + 1) v).regAddrB =
      memAt cfg s₀ reqs (t + 1) v (writeInAt cfg s₀ reqs t v).data.address := by
  have haddr : (niAt cfg s₀ reqs (t + 1) v).regAddrB =
      if (writeInAt cfg s₀ reqs t v).valid && (writeInAt cfg s₀ reqs t v).data.rw
      then (niAt cfg s₀ reqs t v).regAddrB else (writeInAt cfg s₀ reqs t v).data.address := rfl
  rw [haddr, hread, Bool.and_false, if_neg Bool.false_ne_true]
  rfl

theorem gotValue_niAt (t : ℕ) (v : Node n) :
    (niAt cfg s₀ reqs (t + 1) v).gotValue = true ↔
      Arrives n ((len n - 2 + t) % len n) ∧ (writeInAt cfg s₀ reqs t v).valid = true ∧
        (writeInAt cfg s₀ reqs t v).data.rw = false := by
  have hgot : (niAt cfg s₀ reqs (t + 1) v).gotValue =
      (localValid n (niAt cfg s₀ reqs t v).FIFOTdmCounter &&
        ((writeInAt cfg s₀ reqs t v).valid && !(writeInAt cfg s₀ reqs t v).data.rw)) := rfl
  rw [hgot, FIFOTdmCounter_niAt hreset, Bool.and_eq_true, localValid_iff, Bool.and_eq_true,
    Bool.not_eq_true']

/-- A reply that is sent is for a read that has arrived. -/
theorem exists_read_of_readBackOutAt (hvalid : (readBackOutAt cfg s₀ reqs t v).valid = true) :
    ∃ r ∈ routes n, ∃ a, t = a + 1 + waits n r ∧ (timeShift n + (t - 1)) % len n = r.start ∧
      (writeInAt cfg s₀ reqs a v).valid = true ∧ (writeInAt cfg s₀ reqs a v).data.rw = false := by
  have hpos : 1 ≤ t := by
    refine Nat.pos_of_ne_zero fun hzero => ?_
    rw [hzero, readBackOutAt_zero hreset] at hvalid
    cases hvalid
  obtain ⟨s, rfl⟩ := Nat.exists_eq_add_of_le' hpos
  have hcount : (niAt cfg s₀ reqs (s + 1) v).regShiftedTdmCounter = _ :=
    regShiftedTdmCounter_niAt hreset s v
  have hlt := Nat.mod_lt (timeShift n + s) cfg.len_pos
  by_cases hstarts : Starts n ((timeShift n + s) % len n)
  · obtain ⟨r, hr, hslot⟩ := List.mem_map.mp hstarts
    rw [← hslot] at hcount
    rcases Nat.lt_or_ge (s + 1) (waits n r) with hearly | hlate
    · rw [readBackOutAt_early hreset hr hcount hearly] at hvalid
      cases hvalid
    · obtain ⟨k, hk⟩ := Nat.exists_eq_add_of_le' hlate
      rw [hk] at hcount hvalid
      rw [readBackOutAt_start hr hcount] at hvalid
      cases k with
      | zero =>
        have hnone : (niAt cfg s₀ reqs 0 v).gotValue = false := (hreset.nis v).gotValue
        rw [hnone] at hvalid
        cases hvalid
      | succ a =>
        obtain ⟨-, harrived, hread⟩ := (gotValue_niAt hreset a v).mp hvalid
        exact ⟨r, hr, a, hk, hslot.symm, harrived, hread⟩
  · rw [← hcount] at hlt hstarts
    rw [readBackOutAt_other hlt hstarts] at hvalid
    cases hvalid

/-- A read that arrives in the arrival slot of a route is answered in the slot of the route. -/
theorem readBackOutAt_of_read (hr : r ∈ routes n) (harrives : Arrives n ((len n - 2 + t) % len n))
    (hslot : (timeShift n + (t + waits n r)) % len n = r.start)
    (hvalid : (writeInAt cfg s₀ reqs t v).valid = true)
    (hread : (writeInAt cfg s₀ reqs t v).data.rw = false) :
    readBackOutAt cfg s₀ reqs (t + 1 + waits n r) v =
      ⟨memAt cfg s₀ reqs (t + 1) v (writeInAt cfg s₀ reqs t v).data.address, true⟩ := by
  have hcount : (niAt cfg s₀ reqs (t + 1 + waits n r) v).regShiftedTdmCounter = r.start := by
    rw [add_right_comm, regShiftedTdmCounter_niAt hreset, hslot]
  rw [readBackOutAt_start hr hcount, read_niAt hread,
    (gotValue_niAt hreset t v).mpr ⟨harrives, hvalid, hread⟩]

end Timing

end Patmos.TwoWay
