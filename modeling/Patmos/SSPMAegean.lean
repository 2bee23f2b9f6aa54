import Mathlib.Data.Nat.Size
import Mathlib.Tactic.SplitIfs
import Patmos.MemBlock
import Patmos.RoundRobin
import Patmos.Select
import Patmos.Served

/-!
# The shared scratchpad with extended slots

Every core has an `SSPMConnector`, which holds a command until it is enabled.  `SSPMAegean` goes
through the cores, one in a cycle; a core that asks for it, by a read of the last addresses, keeps
its slot for `extendedSlotSize` more cycles.  With `singleExtendedSlot` a core that has had an
extended slot gets a turn without one before the next.

The cores are promised a memory on which their accesses are performed one after the other, each in a
slot of its core, and that nobody else has access during an extended slot.
-/

namespace Patmos.SSPMAegean

open Ocp Clocked Patmos.Sequential Served

/-! ### The circuit -/

/-- `extendedSlotSize` and `singleExtendedSlot`. -/
structure Config where
  extendedSlotSize : Nat
  singleExtendedSlot : Bool

/-- The registers of `SSPMConnector`. -/
structure Connector where
  waiting : Bool
  respReg : OcpResp
  writeEnableReg : Bool
  MAddrReg : Nat
  MDataReg : Word
  MByteEnReg : ByteEn
  syncReqReg : Bool
  prevConnectorEnable1 : Bool
  prevConnectorEnable : Bool

inductive Fsm where
  | idle
  | sync
deriving DecidableEq, Repr

/-- The registers of `SSPMAegean`, with those of the memory. -/
structure State (nCores : Nat) where
  connectors : Fin nCores → Connector
  nextCore : Nat
  currentCore : Nat
  state : Fsm
  syncCounter : Nat
  syncUsed : Bool
  syncCore : Nat
  mem : Memory
  rdAddrReg : Nat

/-- What a connector shows. -/
structure Port where
  syncReq : Bool
  addr : Nat
  data : Word
  byteEn : ByteEn
  we : Bool

/-- The signals of the cores, and what an index outside of the connectors selects. -/
structure Cycle (nCores : Nat) where
  cores : Fin nCores → CacheMaster
  outside : Port

/-- An address that asks for an extended slot. -/
def isSync (addr : Nat) : Bool := addr / 4 % 2 ^ 14 == 2 ^ 14 - 1

/-- The word that an address selects in the memory of 16384 bytes. -/
def wordAddr (addr : Nat) : Nat := addr % 2 ^ 14 / 4

def Connector.port (x : Connector) : Port :=
  ⟨x.syncReqReg, x.MAddrReg, x.MDataReg, x.MByteEnReg, x.writeEnableReg⟩

/-- The command that the connector holds is served in this cycle. -/
def Connector.serves (x : Connector) (enable : Bool) : Bool :=
  x.waiting && enable && (!x.syncReqReg || !x.prevConnectorEnable)

def Connector.next (x : Connector) (m : CacheMaster) (enable : Bool) : Connector :=
  let hold := x.waiting && !x.serves enable
  { waiting := if x.waiting then !x.serves enable else m.cmd == .rd || m.cmd == .wr
    respReg := if x.serves enable then .dva else .null
    writeEnableReg := if hold then x.writeEnableReg else m.cmd == .wr
    MAddrReg := if hold then x.MAddrReg else m.addr
    MDataReg := if hold then x.MDataReg else m.data
    MByteEnReg := if hold then x.MByteEnReg else m.byteEn
    syncReqReg :=
      if x.serves enable && x.syncReqReg then false
      else (m.cmd != .idle && isSync m.addr) || x.syncReqReg
    prevConnectorEnable1 := enable
    prevConnectorEnable := x.prevConnectorEnable1 }

section Circuit

variable (cfg : Config) {nCores : Nat}

/-- `connectors(currentCore)`. -/
def selected (s : State nCores) (c : Cycle nCores) : Port :=
  if h : s.currentCore < nCores then (s.connectors ⟨s.currentCore, h⟩).port else c.outside

/-- The current core asks for an extended slot and has to do without. -/
def refused (s : State nCores) (c : Cycle nCores) : Bool :=
  s.state == .idle && (selected s c).syncReq && (cfg.singleExtendedSlot && s.syncUsed)

/-- The current core gets an extended slot. -/
def granted (s : State nCores) (c : Cycle nCores) : Bool :=
  s.state == .idle && (selected s c).syncReq && !(cfg.singleExtendedSlot && s.syncUsed)

/-- `enable` of connector `i`. -/
def enable (s : State nCores) (c : Cycle nCores) (i : Fin nCores) : Bool :=
  s.currentCore == i.val && !refused cfg s c

/-- The core after `k`, in the width of the registers. -/
def incr (nCores k : Nat) : Nat := (k + 1) % 2 ^ MemBlock.log2Up nCores

/-- `syncCounter` has as many bits as its start value. -/
def decr (k : Nat) : Nat :=
  let w := max 1 (cfg.extendedSlotSize - 1).size
  (k + 2 ^ w - 1) % 2 ^ w

def next (s : State nCores) (c : Cycle nCores) : State nCores :=
  let conns := fun i => (s.connectors i).next (c.cores i) (enable cfg s c i)
  let port := selected s c
  let mem := if port.we then s.mem.write (wordAddr port.addr) port.byteEn port.data else s.mem
  let rdAddrReg := wordAddr port.addr
  match s.state with
  | .idle =>
    { connectors := conns
      nextCore :=
        if s.nextCore > nCores - 1 then 0
        else if granted cfg s c then s.nextCore else incr nCores s.nextCore
      currentCore := if granted cfg s c then s.currentCore else s.nextCore
      state := if granted cfg s c then .sync else .idle
      syncCounter := if granted cfg s c then cfg.extendedSlotSize - 1 else s.syncCounter
      syncUsed := if cfg.singleExtendedSlot && s.currentCore == s.syncCore then false
        else s.syncUsed
      syncCore := s.syncCore
      mem := mem
      rdAddrReg := rdAddrReg }
  | .sync =>
    { connectors := conns
      nextCore := if s.syncCounter = 0 then incr nCores s.nextCore else s.nextCore
      currentCore := if s.syncCounter = 0 then s.nextCore else s.currentCore
      state := if s.syncCounter = 0 then .idle else .sync
      syncCounter := decr cfg s.syncCounter
      syncUsed := if cfg.singleExtendedSlot then true else s.syncUsed
      syncCore := if cfg.singleExtendedSlot then s.currentCore else s.syncCore
      mem := mem
      rdAddrReg := rdAddrReg }

end Circuit

/-! ### The memory of the cores -/

/-- An access of a core, and what the core gets back: the word, for a read of the memory. -/
abbrev Op (nCores : Nat) := Fin nCores × CacheMaster

abbrev Result (nCores : Nat) := Fin nCores × Option Word

/-- An access is performed; one that asks for an extended slot has no effect on the memory. -/
def exec {nCores : Nat} (mem : Memory) (o : Op nCores) : Memory × Result nCores :=
  if isSync o.2.addr then (mem, o.1, none)
  else
    match o.2.cmd with
    | .idle => (mem, o.1, none)
    | .wr => (mem.write (wordAddr o.2.addr) o.2.byteEn o.2.data, o.1, none)
    | .rd => (mem, o.1, some (mem (wordAddr o.2.addr)))

/-! ### Cores -/

/-- The memory with the outstanding command of each core. -/
structure Sys (nCores : Nat) where
  sspm : State nCores
  pend : Fin nCores → Option CacheMaster

namespace Sys

section Views

variable (cfg : Config) {nCores : Nat}

/-- The connector of core `i`. -/
def conn (y : Sys nCores) (i : Fin nCores) : Connector := y.sspm.connectors i

def next (y : Sys nCores) (c : Cycle nCores) : Sys nCores where
  sspm := SSPMAegean.next cfg y.sspm c
  pend := pendNext y.pend (fun i => (y.conn i).respReg) c.cores

/-- A core has one command outstanding, the next one comes at the earliest with the answer, and it
    asks for an extended slot by a read. -/
structure Legal (y : Sys nCores) (c : Cycle nCores) : Prop where
  single : OneAtATime y.pend (fun i => (y.conn i).respReg) c.cores
  sync : ∀ i, isSync (c.cores i).addr = true → (c.cores i).cmd ≠ .wr

/-- The access of core `i` that is performed in a cycle. -/
def act (y : Sys nCores) (c : Cycle nCores) (i : Fin nCores) : Option (Op nCores) :=
  if (y.conn i).serves (enable cfg y.sspm c i) then (y.pend i).map fun m => (i, m) else none

/-- The answer that core `i` sees. -/
def answer (y : Sys nCores) (i : Fin nCores) : Option (Result nCores) :=
  if (y.conn i).respReg = .null then none
  else (y.pend i).map fun m =>
    (i, if m.cmd = .rd ∧ isSync m.addr = false then some (y.sspm.mem y.sspm.rdAddrReg) else none)

/-- The accesses that are performed and sent, and the answers that are seen. -/
def view (nCores : Nat) : View Memory (Op nCores) (Result nCores) (Sys nCores) (Cycle nCores)
    (Fin nCores) CacheMaster where
  step := next cfg
  exec := exec
  performed y c := (List.finRange nCores).filterMap (y.act cfg c)
  answers y := (List.finRange nCores).filterMap y.answer
  sent i _ c := if (c.cores i).cmd = .idle then [] else [c.cores i]
  waiting i y := if (y.conn i).waiting then (y.pend i).toList else []
  own i o := if o.1 = i then some o.2 else none

end Views

variable {nCores : Nat}

/-- The registers with a reset value have it; the cores send nothing during reset. -/
structure IsReset (y : Sys nCores) : Prop where
  waiting : ∀ i, (y.conn i).waiting = false
  respReg : ∀ i, (y.conn i).respReg = .null
  writeEnableReg : ∀ i, (y.conn i).writeEnableReg = false
  syncReqReg : ∀ i, (y.conn i).syncReqReg = false
  nextCore : y.sspm.nextCore = 1
  currentCore : y.sspm.currentCore = 0
  state : y.sspm.state = .idle
  syncUsed : y.sspm.syncUsed = false
  pend : ∀ i, y.pend i = none

/-- A run is one of the memory: every cycle is the slot of a core, and every core gets its slot in
    time; the accesses that were performed in the cycles `cs` are, core by core, the commands that
    were sent, less one that may wait, each in a slot of its core; performed one after the other
    they have the answers that the cores see up to the cycle after `cs`, and lead to the memory; and
    from the start of an extended slot to its end all accesses are those of its core. -/
structure Correct (cfg : Config) (y : Sys nCores) (cs : List (Cycle nCores)) : Prop where
  current : (run (next cfg) y cs).sspm.currentCore < nCores
  slots : ∀ p q (i : Fin nCores), cs = p ++ q →
    Along (next cfg) (fun y _ => y.sspm.currentCore ≠ i) (run (next cfg) y p) q →
    q.length ≤ nCores * (cfg.extendedSlotSize + 1)
  own : Along (next cfg)
    (fun y c => ∀ o ∈ (view cfg nCores).performed y c, o.1.val = y.sspm.currentCore) y cs
  /-- An access of the memory that waits is performed in the next slot of its core. -/
  served : Along (next cfg) (fun y c => ∀ i m, (view cfg nCores).waiting i y = [m] →
    isSync m.addr = false → y.sspm.currentCore = i.val →
      (i, m) ∈ (view cfg nCores).performed y c) y cs
  commands : ∀ i, (view cfg nCores).commands i y cs =
    (((view cfg nCores).ops y cs).filter fun o => o.1 = i).map Prod.snd ++
      (view cfg nCores).waiting i (run (next cfg) y cs)
  responses : ∀ c, (view cfg nCores).given y (cs ++ [c]) =
    results exec y.sspm.mem ((view cfg nCores).ops y cs)
  memory : (run (next cfg) y cs).sspm.mem = after exec y.sspm.mem ((view cfg nCores).ops y cs)
  extended : ∀ p c q, cs = p ++ c :: q → granted cfg (run (next cfg) y p).sspm c = true →
    Along (next cfg) (fun y _ => y.sspm.state = .sync) (run (next cfg) y (p ++ [c])) q →
    ∀ o ∈ (view cfg nCores).ops (run (next cfg) y p) (c :: q),
      o.1.val = (run (next cfg) y p).sspm.currentCore

/-! ### The invariant -/

/-- What core `i` is doing. -/
inductive Core (y : Sys nCores) (i : Fin nCores) : Prop where
  | idle (hwaiting : (y.conn i).waiting = false) (hwe : (y.conn i).writeEnableReg = false)
      (hsync : (y.conn i).syncReqReg = false) (hresp : (y.conn i).respReg = .null)
      (hpend : y.pend i = none)
  | waiting (m : CacheMaster) (hwaiting : (y.conn i).waiting = true)
      (hport : (y.conn i).port = ⟨isSync m.addr, m.addr, m.data, m.byteEn, m.cmd == .wr⟩)
      (hresp : (y.conn i).respReg = .null) (hpend : y.pend i = some m) (hcmd : m.cmd ≠ .idle)
      (hsync : isSync m.addr = true → m.cmd = .rd)
  | answered (m : CacheMaster) (hwaiting : (y.conn i).waiting = false)
      (hwe : (y.conn i).writeEnableReg = false) (hsync : (y.conn i).syncReqReg = false)
      (hresp : (y.conn i).respReg = .dva) (hpend : y.pend i = some m)

/-- The slots are those of the cores, one after the other. -/
structure Slots (cfg : Config) (y : Sys nCores) : Prop where
  lt : y.sspm.currentCore < nCores
  next : y.sspm.nextCore = if y.sspm.currentCore = nCores - 1 then 0 else y.sspm.currentCore + 1
  counter : y.sspm.state = .sync → y.sspm.syncCounter < cfg.extendedSlotSize

/-- The core whose slot it is. -/
def Slots.core {cfg : Config} {y : Sys nCores} (h : Slots cfg y) : Fin nCores :=
  ⟨y.sspm.currentCore, h.lt⟩

/-- The circuit stands for the memory. -/
structure Rel (cfg : Config) (mem : Memory) (y : Sys nCores) : Prop where
  mem : mem = y.sspm.mem
  slots : Slots cfg y
  core : ∀ i, Core y i

section Cycle

variable {cfg : Config} {mem : Memory} {y : Sys nCores} {c : Cycle nCores} {i j : Fin nCores}
  {m : CacheMaster}

/-! #### Slots -/

theorem decr_of_pos {k : Nat} (hpos : 0 < k) (hlt : k < cfg.extendedSlotSize) :
    decr cfg k = k - 1 := by
  have hsize : k < 2 ^ max 1 (cfg.extendedSlotSize - 1).size := by
    have hle : k ≤ cfg.extendedSlotSize - 1 := by omega
    calc k ≤ cfg.extendedSlotSize - 1 := hle
      _ < 2 ^ (cfg.extendedSlotSize - 1).size := Nat.lt_size_self _
      _ ≤ 2 ^ max 1 (cfg.extendedSlotSize - 1).size :=
        Nat.pow_le_pow_right Nat.two_pos (le_max_right _ _)
  have hsum : k + 2 ^ max 1 (cfg.extendedSlotSize - 1).size - 1 =
      k - 1 + 2 ^ max 1 (cfg.extendedSlotSize - 1).size := by omega
  unfold decr
  simp only
  rw [hsum, Nat.add_mod_right]
  exact Nat.mod_eq_of_lt (by omega)

/-- With a power of two of cores the index comes round by itself. -/
theorem incr_eq (hpow : 2 ^ MemBlock.log2Up nCores = nCores) {k : Nat} (h : k < nCores) :
    incr nCores k = if k = nCores - 1 then 0 else k + 1 := by
  unfold incr
  rw [hpow]
  split
  · rename_i heq
    rw [heq, Nat.sub_add_cancel (by omega), Nat.mod_self]
  · exact Nat.mod_eq_of_lt (by omega)

theorem Slots.nextCore_lt (h : Slots cfg y) : y.sspm.nextCore < nCores := by
  have hlt := h.lt
  rw [h.next]
  split <;> omega

theorem state_idle (hstate : y.sspm.state = .idle) : (y.next cfg c).sspm.state =
    if granted cfg y.sspm c then .sync else .idle := by
  simp only [Sys.next, SSPMAegean.next, hstate]

theorem currentCore_idle (hstate : y.sspm.state = .idle) : (y.next cfg c).sspm.currentCore =
    if granted cfg y.sspm c then y.sspm.currentCore else y.sspm.nextCore := by
  simp only [Sys.next, SSPMAegean.next, hstate]

/-- A slot goes on as an extended one, or the next core has one that is not extended. -/
theorem Slots.cases (h : Slots cfg y) (hext : 1 ≤ cfg.extendedSlotSize) (c : Cycle nCores) :
    ((y.next cfg c).sspm.state = .sync ∧
      (y.next cfg c).sspm.currentCore = y.sspm.currentCore ∧
      (y.next cfg c).sspm.nextCore = y.sspm.nextCore ∧
      (y.next cfg c).sspm.syncCounter + 1 =
        if y.sspm.state = .idle then cfg.extendedSlotSize else y.sspm.syncCounter) ∨
    ((y.next cfg c).sspm.state = .idle ∧ (y.next cfg c).sspm.currentCore = y.sspm.nextCore ∧
      (y.next cfg c).sspm.nextCore = incr nCores y.sspm.nextCore) := by
  have hlast : ¬ y.sspm.nextCore > nCores - 1 := by
    have hlt := h.nextCore_lt
    omega
  cases hstate : y.sspm.state with
  | idle =>
    cases hgranted : granted cfg y.sspm c with
    | true =>
      left
      simp only [Sys.next, SSPMAegean.next, hstate, hgranted, hlast, if_true, if_false, true_and]
      exact Nat.sub_add_cancel hext
    | false =>
      right
      simp [Sys.next, SSPMAegean.next, hstate, hgranted, hlast]
  | sync =>
    by_cases hzero : y.sspm.syncCounter = 0
    · right
      simp [Sys.next, SSPMAegean.next, hstate, hzero]
    · left
      have hdecr := decr_of_pos (Nat.pos_of_ne_zero hzero) (h.counter hstate)
      simp only [Sys.next, SSPMAegean.next, hstate, hzero, hdecr, if_false, true_and, reduceCtorEq]
      exact Nat.sub_add_cancel (Nat.pos_of_ne_zero hzero)

theorem Slots.step (h : Slots cfg y) (hpow : 2 ^ MemBlock.log2Up nCores = nCores)
    (hext : 1 ≤ cfg.extendedSlotSize) : Slots cfg (y.next cfg c) := by
  rcases h.cases hext c with ⟨-, hcur, hnext, hcounter⟩ | ⟨hidle, hcur, hnext⟩
  · refine ⟨by rw [hcur]; exact h.lt, by rw [hnext, hcur]; exact h.next, fun _ => ?_⟩
    cases hstate : y.sspm.state with
    | idle =>
      rw [hstate, if_pos rfl] at hcounter
      omega
    | sync =>
      have hlt := h.counter hstate
      rw [hstate, if_neg Fsm.noConfusion] at hcounter
      omega
  · have hlt := h.nextCore_lt
    refine ⟨by rw [hcur]; exact hlt, by rw [hnext, hcur, incr_eq hpow hlt], fun hsync => ?_⟩
    rw [hidle] at hsync
    cases hsync

theorem Slots.selected (h : Slots cfg y) : selected y.sspm c = (y.conn h.core).port :=
  dif_pos h.lt

theorem Slots.eq_core_of_enable (h : Slots cfg y) (hi : enable cfg y.sspm c i = true) :
    i = h.core := by
  apply Fin.ext
  exact (beq_iff_eq.mp (Bool.and_eq_true_iff.mp hi).1).symm

/-- The current core is enabled, unless it has to do without an extended slot. -/
theorem Slots.enable_core (h : Slots cfg y) (hsync : (y.conn h.core).syncReqReg = false) :
    enable cfg y.sspm c h.core = true := by
  have hport : (SSPMAegean.selected y.sspm c).syncReq = false := by
    rw [h.selected]
    exact hsync
  simp [enable, refused, hport, Slots.core]

/-! #### Cores -/

theorem conn_next (cfg : Config) (y : Sys nCores) (c : Cycle nCores) (i : Fin nCores) :
    (y.next cfg c).conn i = (y.conn i).next (c.cores i) (enable cfg y.sspm c i) := by
  simp only [conn, Sys.next, SSPMAegean.next]
  split <;> rfl

theorem mem_next (y : Sys nCores) (c : Cycle nCores) : (y.next cfg c).sspm.mem =
    if (selected y.sspm c).we then y.sspm.mem.write (wordAddr (selected y.sspm c).addr)
      (selected y.sspm c).byteEn (selected y.sspm c).data else y.sspm.mem := by
  simp only [Sys.next, SSPMAegean.next]
  split <;> rfl

theorem rdAddrReg_next (y : Sys nCores) (c : Cycle nCores) :
    (y.next cfg c).sspm.rdAddrReg = wordAddr (selected y.sspm c).addr := by
  simp only [Sys.next, SSPMAegean.next]
  split <;> rfl

theorem Connector.next_of_free {x : Connector} (hwaiting : x.waiting = false) (e : Bool) :
    x.next m e = ⟨m.cmd == .rd || m.cmd == .wr, .null, m.cmd == .wr, m.addr, m.data, m.byteEn,
      (m.cmd != .idle && isSync m.addr) || x.syncReqReg, e, x.prevConnectorEnable1⟩ := by
  simp [Connector.next, Connector.serves, hwaiting]

theorem core_of_free (hlegal : Legal y c) (hwaiting : (y.conn i).waiting = false)
    (hsync : (y.conn i).syncReqReg = false)
    (hfree : y.pend i = none ∨ (y.conn i).respReg ≠ .null) : Core (y.next cfg c) i := by
  have hpend : pendNext y.pend (fun i => (y.conn i).respReg) c.cores i = _ := pendNext_of_free hfree
  have hconn := conn_next cfg y c i
  rw [Connector.next_of_free hwaiting] at hconn
  by_cases hcmd : (c.cores i).cmd = .idle
  · refine .idle ?_ ?_ ?_ ?_ (hpend.trans (by simp [hcmd]))
    · simp [hconn, hcmd]
    · simp [hconn, hcmd]
    · simp [hconn, hcmd, hsync]
    · rw [hconn]
  · refine .waiting (c.cores i) ?_ ?_ ?_ (hpend.trans (if_pos hcmd)) hcmd ?_
    · rw [hconn]
      cases hkind : (c.cores i).cmd with
      | idle => exact absurd hkind hcmd
      | wr => rfl
      | rd => rfl
    · simp [hconn, Connector.port, hcmd, hsync]
    · rw [hconn]
    · intro haddr
      cases hkind : (c.cores i).cmd with
      | idle => exact absurd hkind hcmd
      | wr => exact absurd hkind (hlegal.sync i haddr)
      | rd => rfl

theorem Core.step (h : Core y i) (hlegal : Legal y c) : Core (y.next cfg c) i := by
  cases h with
  | idle hwaiting _ hsync _ hpend => exact core_of_free hlegal hwaiting hsync (Or.inl hpend)
  | answered m hwaiting _ hsync hresp _ =>
    exact core_of_free hlegal hwaiting hsync (Or.inr (by simp [hresp]))
  | waiting m hwaiting hport hresp hpend hcmd hsync =>
    have hsilent := hlegal.single.silent hpend hresp
    have hpendNext : (y.next cfg c).pend i = _ := hlegal.single.pendNext hpend hresp
    have hconn := conn_next cfg y c i
    cases hserves : (y.conn i).serves (enable cfg y.sspm c i) with
    | false =>
      refine .waiting m ?_ ?_ ?_ hpendNext hcmd hsync
      · simp [hconn, Connector.next, hwaiting, hserves]
      · rw [← hport, hconn]
        simp [Connector.port, Connector.next, hwaiting, hserves, hsilent]
      · simp [hconn, Connector.next, hserves]
    | true =>
      refine .answered m ?_ ?_ ?_ ?_ hpendNext
      · simp [hconn, Connector.next, hwaiting, hserves]
      · simp [hconn, Connector.next, hwaiting, hserves, hsilent]
      · simp [hconn, Connector.next, hserves, hsilent]
      · simp [hconn, Connector.next, hserves]

/-! #### The access of a cycle -/

theorem Slots.act_of_ne (h : Slots cfg y) (hj : j ≠ h.core) : y.act cfg c j = none := by
  have hoff : enable cfg y.sspm c j = false :=
    Bool.eq_false_iff.mpr fun hon => hj (h.eq_core_of_enable hon)
  simp [act, Connector.serves, hoff]

theorem Slots.performed_eq (h : Slots cfg y) :
    (view cfg nCores).performed y c = (y.act cfg c h.core).toList :=
  Select.filterMap_of_one fun _ hj => h.act_of_ne hj

theorem fst_of_act {o : Op nCores} (h : y.act cfg c i = some o) : o.1 = i := by
  unfold act at h
  split at h
  · obtain ⟨m, -, rfl⟩ := Option.map_eq_some_iff.mp h
    rfl
  · cases h

theorem Slots.own_of_mem (h : Slots cfg y) {o : Op nCores}
    (ho : o ∈ (view cfg nCores).performed y c) : o.1.val = y.sspm.currentCore := by
  rw [h.performed_eq] at ho
  rw [fst_of_act (Option.mem_toList.mp ho)]
  rfl

theorem act_of_free (h : (y.conn i).waiting = false) : y.act cfg c i = none := by
  simp [act, Connector.serves, h]

theorem exec_of_sync (hsync : isSync m.addr = true) (mem : Memory) :
    exec mem (i, m) = (mem, i, none) := if_pos hsync

/-- A command that waits for the memory is served in the slot of its core. -/
theorem Slots.serves_of_not_sync (h : Slots cfg y) (hwaiting : (y.conn h.core).waiting = true)
    (hsync : (y.conn h.core).syncReqReg = false) :
    (y.conn h.core).serves (enable cfg y.sspm c h.core) = true := by
  rw [Connector.serves, hwaiting, hsync, h.enable_core hsync]
  rfl

/-- The memory performs the access of the core whose slot it is. -/
theorem Rel.mem_step (h : Rel cfg mem y) (c : Cycle nCores) :
    after exec mem ((view cfg nCores).performed y c) = (y.next cfg c).sspm.mem := by
  have hnoWrite : (y.conn h.slots.core).writeEnableReg = false →
      (y.next cfg c).sspm.mem = mem := by
    intro hwe
    have hport : (selected y.sspm c).we = false := by
      rw [h.slots.selected]
      exact hwe
    rw [mem_next, hport, h.mem]
    exact if_neg Bool.false_ne_true
  rw [h.slots.performed_eq]
  cases h.core h.slots.core with
  | idle hwaiting hwe _ _ _ | answered _ hwaiting hwe _ _ _ =>
    rw [act_of_free hwaiting, hnoWrite hwe]
    rfl
  | waiting m hwaiting hport hresp hpend hcmd hsync =>
    have hreq : (y.conn h.slots.core).syncReqReg = isSync m.addr := congrArg Port.syncReq hport
    have hwe : (y.conn h.slots.core).writeEnableReg = (m.cmd == .wr) := congrArg Port.we hport
    cases haddr : isSync m.addr with
    | true =>
      -- such a command reads, so the memory does nothing, whether it is served or not
      have hread : (y.conn h.slots.core).writeEnableReg = false := by
        rw [hwe, hsync haddr]
        rfl
      rw [hnoWrite hread, act]
      split
      · rw [hpend, Option.map_some, Option.toList_some, after_cons, after_nil,
          exec_of_sync haddr]
      · rfl
    | false =>
      have hserves := h.slots.serves_of_not_sync (c := c) hwaiting (hreq.trans haddr)
      rw [act, if_pos hserves, hpend, Option.map_some, Option.toList_some, after_cons,
        after_nil, mem_next, h.slots.selected, hport, exec, haddr, if_neg Bool.false_ne_true,
        ← h.mem]
      cases hkind : m.cmd with
      | idle => exact absurd hkind hcmd
      | wr => rfl
      | rd => rfl

theorem respReg_next (y : Sys nCores) (c : Cycle nCores) (i : Fin nCores) :
    ((y.next cfg c).conn i).respReg =
      if (y.conn i).serves (enable cfg y.sspm c i) then .dva else .null := by
  rw [conn_next]
  rfl

theorem Rel.answer_of_none (h : Rel cfg mem y) (hact : y.act cfg c i = none) :
    (y.next cfg c).answer i = none := by
  have hnot : (y.conn i).serves (enable cfg y.sspm c i) = false := by
    cases h.core i with
    | idle hwaiting _ _ _ _ | answered _ hwaiting _ _ _ _ => simp [Connector.serves, hwaiting]
    | waiting m _ _ _ hpend _ _ =>
      by_contra hserves
      rw [act, if_pos (Bool.not_eq_false _ ▸ hserves), hpend] at hact
      cases hact
  rw [answer, respReg_next, hnot]
  rfl

/-- The answer of the next cycle is the result of the access. -/
theorem Rel.answer_of_some (h : Rel cfg mem y) (hlegal : Legal y c) {o : Op nCores}
    (hact : y.act cfg c i = some o) : (y.next cfg c).answer i = some (exec mem o).2 := by
  have hserves : (y.conn i).serves (enable cfg y.sspm c i) = true := by
    by_contra hnot
    rw [act, if_neg hnot] at hact
    cases hact
  have henable : enable cfg y.sspm c i = true :=
    (Bool.and_eq_true_iff.mp (Bool.and_eq_true_iff.mp hserves).1).2
  obtain rfl := h.slots.eq_core_of_enable henable
  cases h.core h.slots.core with
  | idle hwaiting _ _ _ _ | answered _ hwaiting _ _ _ _ =>
    rw [act_of_free hwaiting] at hact
    cases hact
  | waiting m hwaiting hport hresp hpend hcmd hsync =>
    rw [act, if_pos hserves, hpend, Option.map_some, Option.some.injEq] at hact
    subst hact
    have hpendNext : (y.next cfg c).pend h.slots.core = some m :=
      hlegal.single.pendNext hpend hresp
    rw [answer, respReg_next, hserves, if_pos rfl, if_neg OcpResp.noConfusion, hpendNext,
      Option.map_some]
    cases haddr : isSync m.addr with
    | true =>
      rw [exec_of_sync haddr]
      simp
    | false =>
      rw [exec, haddr, if_neg Bool.false_ne_true, mem_next, rdAddrReg_next, h.slots.selected,
        hport, ← h.mem]
      cases hkind : m.cmd with
      | idle => exact absurd hkind hcmd
      | wr => simp
      | rd => simp

theorem Rel.results_performed (h : Rel cfg mem y) (hlegal : Legal y c) :
    results exec mem ((view cfg nCores).performed y c) =
      (view cfg nCores).answers (y.next cfg c) := by
  have hanswers : (view cfg nCores).answers (y.next cfg c) =
      ((y.next cfg c).answer h.slots.core).toList :=
    Select.filterMap_of_one fun j hj => h.answer_of_none (h.slots.act_of_ne hj)
  rw [hanswers, h.slots.performed_eq]
  cases hact : y.act cfg c h.slots.core with
  | none =>
    rw [h.answer_of_none hact]
    rfl
  | some o =>
    rw [h.answer_of_some hlegal hact]
    rfl

theorem Rel.mem_performed (h : Rel cfg mem y) (hwaiting : (view cfg nCores).waiting i y = [m])
    (hsync : isSync m.addr = false) (hcur : y.sspm.currentCore = i.val) :
    (i, m) ∈ (view cfg nCores).performed y c := by
  have hpend : (y.conn i).waiting = true ∧ y.pend i = some m := by
    change (if (y.conn i).waiting then (y.pend i).toList else []) = [m] at hwaiting
    split at hwaiting
    · rename_i hon
      exact ⟨hon, Option.toList_eq_singleton_iff.mp hwaiting⟩
    · cases hwaiting
  have hcore : i = h.slots.core := Fin.ext hcur.symm
  rw [h.slots.performed_eq, ← hcore, Option.mem_toList]
  cases h.core i with
  | idle hoff _ _ _ _ | answered _ hoff _ _ _ _ =>
    rw [hpend.1] at hoff
    cases hoff
  | waiting m' hon hport _ hpend' _ _ =>
    rw [hpend.2, Option.some.injEq] at hpend'
    subst hpend'
    have hreq : (y.conn i).syncReqReg = false := (congrArg Port.syncReq hport).trans hsync
    rw [hcore] at hon hreq
    have hserves := h.slots.serves_of_not_sync (c := c) hon hreq
    rw [← hcore] at hserves
    rw [act, if_pos hserves, hpend.2]
    rfl

/-! #### Commands -/

theorem Slots.own_performed (h : Slots cfg y) (i : Fin nCores) :
    ((view cfg nCores).performed y c).filterMap ((view cfg nCores).own i) =
      ((y.act cfg c i).map Prod.snd).toList := by
  rw [h.performed_eq]
  by_cases hi : i = h.core
  · subst hi
    cases hact : y.act cfg c h.core with
    | none => rfl
    | some o => simp [view, fst_of_act hact]
  · rw [h.act_of_ne hi]
    cases hact : y.act cfg c h.core with
    | none => rfl
    | some o => simp [view, fst_of_act hact, Ne.symm hi]

/-- A command waits, and then it is performed once. -/
theorem Rel.sent_next (h : Rel cfg mem y) (hlegal : Legal y c) (i : Fin nCores) :
    (view cfg nCores).waiting i y ++ (view cfg nCores).sent i y c =
      ((view cfg nCores).performed y c).filterMap ((view cfg nCores).own i) ++
        (view cfg nCores).waiting i (y.next cfg c) := by
  rw [h.slots.own_performed i]
  have hfree : (y.conn i).waiting = false →
      (view cfg nCores).waiting i y ++ (view cfg nCores).sent i y c =
        ((y.act cfg c i).map Prod.snd).toList ++ (view cfg nCores).waiting i (y.next cfg c) := by
    intro hwaiting
    have hconn := conn_next cfg y c i
    rw [Connector.next_of_free hwaiting] at hconn
    rw [act_of_free hwaiting]
    cases hcmd : (c.cores i).cmd with
    | idle => simp [view, hwaiting, hconn, hcmd]
    | wr | rd =>
      have hpend : (y.next cfg c).pend i = some (c.cores i) := by
        simp [Sys.next, pendNext, hcmd]
      simp [view, hwaiting, hconn, hcmd, hpend]
  cases h.core i with
  | idle hwaiting _ _ _ _ | answered _ hwaiting _ _ _ _ => exact hfree hwaiting
  | waiting m hwaiting _ hresp hpend _ _ =>
    have hsilent := hlegal.single.silent hpend hresp
    have hpendNext : (y.next cfg c).pend i = _ := hlegal.single.pendNext hpend hresp
    have hconn := conn_next cfg y c i
    cases hserves : (y.conn i).serves (enable cfg y.sspm c i) with
    | false => simp [view, act, hwaiting, hsilent, hpend, hserves, hconn, Connector.next, hpendNext]
    | true => simp [view, act, hwaiting, hsilent, hpend, hserves, hconn, Connector.next]

theorem serves (hpow : 2 ^ MemBlock.log2Up nCores = nCores) (hext : 1 ≤ cfg.extendedSlotSize) :
    (view cfg nCores).Serves (Rel cfg) Legal where
  rel h hlegal := ⟨h.mem_step _, h.slots.step hpow hext, fun i => (h.core i).step hlegal⟩
  answers h hlegal := h.results_performed hlegal
  sent h hlegal i := h.sent_next hlegal i

/-! #### Progress -/

/-- How many more cycles it is at most until the slot of core `i`. -/
def untilSlot (cfg : Config) (i : Fin nCores) (y : Sys nCores) : Nat :=
  if h : y.sspm.currentCore < nCores then
    match y.sspm.state with
    | .idle => RoundRobin.dist ⟨y.sspm.currentCore, h⟩ i * (cfg.extendedSlotSize + 1)
    | .sync => (RoundRobin.dist ⟨y.sspm.currentCore, h⟩ i - 1) * (cfg.extendedSlotSize + 1) +
        y.sspm.syncCounter + 1
  else 0

theorem Slots.untilSlot_idle (h : Slots cfg y) (hstate : y.sspm.state = .idle) :
    untilSlot cfg i y = RoundRobin.dist h.core i * (cfg.extendedSlotSize + 1) := by
  rw [untilSlot, dif_pos h.lt, hstate]
  rfl

theorem Slots.untilSlot_sync (h : Slots cfg y) (hstate : y.sspm.state = .sync) :
    untilSlot cfg i y = (RoundRobin.dist h.core i - 1) * (cfg.extendedSlotSize + 1) +
      y.sspm.syncCounter + 1 := by
  rw [untilSlot, dif_pos h.lt, hstate]
  rfl

theorem Slots.core_eq_succ (h : Slots cfg y) {z : Sys nCores} (hz : Slots cfg z)
    (heq : z.sspm.currentCore = y.sspm.nextCore) : hz.core = RoundRobin.succ h.core := by
  apply Fin.ext
  change z.sspm.currentCore = _
  rw [heq, h.next, RoundRobin.val_succ]
  rfl

theorem Slots.untilSlot_next (h : Slots cfg y) (hpow : 2 ^ MemBlock.log2Up nCores = nCores)
    (hext : 1 ≤ cfg.extendedSlotSize) (hne : y.sspm.currentCore ≠ i) :
    untilSlot cfg i (y.next cfg c) + 1 ≤ untilSlot cfg i y := by
  have hz : Slots cfg (y.next cfg c) := h.step hpow hext
  have hcore : h.core ≠ i := fun heq => hne (congrArg Fin.val heq)
  have hdist := RoundRobin.dist_succ hcore
  have hmul : RoundRobin.dist h.core i * (cfg.extendedSlotSize + 1) =
      (RoundRobin.dist h.core i - 1) * (cfg.extendedSlotSize + 1) + (cfg.extendedSlotSize + 1) := by
    rw [← Nat.succ_mul, Nat.succ_eq_add_one, Nat.sub_add_cancel (by omega)]
  have hwas : untilSlot cfg i y = (RoundRobin.dist h.core i - 1) * (cfg.extendedSlotSize + 1) +
      (if y.sspm.state = .idle then cfg.extendedSlotSize else y.sspm.syncCounter) + 1 := by
    cases hstate : y.sspm.state with
    | idle => rw [h.untilSlot_idle hstate, hmul, if_pos rfl, add_assoc]
    | sync => rw [h.untilSlot_sync hstate, if_neg Fsm.noConfusion]
  rcases h.cases hext c with ⟨hsync, hcur, -, hcounter⟩ | ⟨hidle, hcur, -⟩
  · have hsame : hz.core = h.core := Fin.ext hcur
    rw [hz.untilSlot_sync hsync, hwas, hsame, ← hcounter]
    omega
  · rw [hz.untilSlot_idle hidle, h.core_eq_succ hz hcur, hwas]
    have hone : RoundRobin.dist (RoundRobin.succ h.core) i =
        RoundRobin.dist h.core i - 1 := by omega
    rw [hone]
    omega

theorem Slots.untilSlot_le (h : Slots cfg y) :
    untilSlot cfg i y ≤ nCores * (cfg.extendedSlotSize + 1) := by
  have hlt := RoundRobin.dist_lt h.core i
  cases hstate : y.sspm.state with
  | idle =>
    rw [h.untilSlot_idle hstate]
    exact Nat.mul_le_mul_right _ hlt.le
  | sync =>
    have hcounter := h.counter hstate
    have hle : (RoundRobin.dist h.core i - 1) + 1 ≤ nCores := by omega
    have hmul := Nat.mul_le_mul_right (cfg.extendedSlotSize + 1) hle
    rw [h.untilSlot_sync hstate, Nat.succ_mul] at *
    omega

end Cycle

/-! ### Every run -/

section Runs

variable {cfg : Config} {y : Sys nCores}

theorem IsReset.slots (h : IsReset y) (h2 : 2 ≤ nCores) : Slots cfg y := by
  constructor
  · rw [h.currentCore]
    omega
  · rw [h.nextCore, h.currentCore, if_neg (by omega)]
  · intro hsync
    rw [h.state] at hsync
    cases hsync

theorem IsReset.rel (h : IsReset y) (h2 : 2 ≤ nCores) : Rel cfg y.sspm.mem y := by
  refine ⟨rfl, h.slots h2, fun i => ?_⟩
  exact .idle (h.waiting i) (h.writeEnableReg i) (h.syncReqReg i) (h.respReg i) (h.pend i)

section PowerOfTwo

variable (h2 : 2 ≤ nCores) (hpow : 2 ^ MemBlock.log2Up nCores = nCores)
  (hext : 1 ≤ cfg.extendedSlotSize)

include h2 hpow hext

theorem IsReset.history (h : IsReset y) {cs : List (Cycle nCores)}
    (hlegal : Along (next cfg) Legal y cs) :
    (view cfg nCores).History (Rel cfg) y.sspm.mem y cs (run (next cfg) y cs) := by
  apply (serves hpow hext).history (h.rel h2)
  · exact List.filterMap_eq_nil_iff.mpr fun i _ => if_pos (h.respReg i)
  · exact fun i => if_neg (by rw [h.waiting i]; exact Bool.false_ne_true)
  · exact hlegal

omit h2 in
/-- During an extended slot the current core stays, and only it has access. -/
theorem ops_of_sync {z : Sys nCores} (hz : Slots cfg z) {q : List (Cycle nCores)}
    (hsync : Along (next cfg) (fun y _ => y.sspm.state = .sync) z q)
    {o : Op nCores} (ho : o ∈ (view cfg nCores).ops z q) : o.1.val = z.sspm.currentCore := by
  induction q generalizing z with
  | nil => cases ho
  | cons c q ih =>
    obtain ⟨-, hrest⟩ := hsync
    rcases List.mem_append.mp ho with hnow | hlater
    · exact hz.own_of_mem hnow
    · cases q with
      | nil => cases hlater
      | cons d q =>
        -- the slot goes on, so it did not end in this cycle
        have hstay : (z.next cfg c).sspm.currentCore = z.sspm.currentCore := by
          rcases hz.cases hext c with ⟨-, hcur, -⟩ | ⟨hidle, -⟩
          · exact hcur
          · exact absurd (hidle.symm.trans hrest.1) Fsm.noConfusion
        rw [← hstay]
        exact ih (hz.step hpow hext) hrest hlater

theorem correct_of_legal (hreset : y.IsReset) {cs : List (Cycle nCores)}
    (hlegal : Along (next cfg) Legal y cs) : Correct cfg y cs := by
  have hcs := hreset.history h2 hpow hext hlegal
  have hslots : ∀ p q : List (Cycle nCores), cs = p ++ q → Slots cfg (run (next cfg) y p) := by
    rintro p q rfl
    exact inv_run (fun _ _ h _ => h.step hpow hext) (hreset.slots h2) hlegal.of_append_left
  refine ⟨hcs.rel.slots.lt, ?_, ?_, ?_, ?_, ?_, hcs.rel.mem.symm, ?_⟩
  · intro p q i hcut hne
    have hp := hslots p q hcut
    have hle := countP_add_rank_le (I := Slots cfg) (untilSlot cfg i) (fun _ => true)
      (fun _ _ h _ => h.step hpow hext) (fun _ _ h hne => h.untilSlot_next hpow hext hne)
      hp hne
    rw [List.countP_true] at hle
    exact (Nat.le_add_right _ _).trans (hle.trans hp.untilSlot_le)
  · have hinv := hlegal.with_inv (I := Slots cfg) (fun _ _ h _ => h.step hpow hext)
      (hreset.slots h2)
    exact hinv.mono fun z c h o ho => h.1.own_of_mem ho
  · have hstep : ∀ (z : Sys nCores) c, (∃ mem, Rel cfg mem z) → Legal z c →
        ∃ mem, Rel cfg mem (z.next cfg c) := by
      rintro z c ⟨mem, hrel⟩ hl
      exact ⟨_, (serves hpow hext).rel hrel hl⟩
    have hinv := hlegal.with_inv hstep ⟨_, hreset.rel h2⟩
    refine hinv.mono fun z c h i m hwaiting hsync hcur => ?_
    obtain ⟨mem, hrel⟩ := h.1
    exact hrel.mem_performed hwaiting hsync hcur
  · intro i
    rw [hcs.commands i, ← filterMap_own]
    rfl
  · intro c
    rw [View.given, emitted_concat]
    exact hcs.answers
  · intro p c q hcut hgranted hsync o ho
    have hz := hslots p (c :: q) hcut
    have hidle : (run (next cfg) y p).sspm.state = .idle := by
      have hboth := (Bool.and_eq_true_iff.mp (Bool.and_eq_true_iff.mp hgranted).1).1
      exact beq_iff_eq.mp hboth
    rcases List.mem_append.mp ho with hnow | hlater
    · exact hz.own_of_mem hnow
    · have hstay : ((run (next cfg) y p).next cfg c).sspm.currentCore =
          (run (next cfg) y p).sspm.currentCore := by
        rw [currentCore_idle hidle, hgranted, if_pos rfl]
      rw [← hstay]
      rw [run_concat] at hsync
      exact ops_of_sync hpow hext (hz.step hpow hext) hsync hlater

end PowerOfTwo

/-! #### Other numbers of cores -/

/-- A cycle without a command. -/
def quiet (nCores : Nat) : Cycle nCores :=
  ⟨fun _ => nothing, ⟨false, 0, fun _ => 0, noBytes, false⟩⟩

/-- The circuit after reset. -/
def powerUp (nCores : Nat) : Sys nCores where
  sspm :=
    { connectors := fun _ => ⟨false, .null, false, 0, fun _ => 0, noBytes, false, false, false⟩
      nextCore := 1, currentCore := 0, state := .idle, syncCounter := 0, syncUsed := false
      syncCore := 0, mem := fun _ _ => 0, rdAddrReg := 0 }
  pend _ := none

theorem isReset_powerUp : (powerUp nCores).IsReset :=
  ⟨fun _ => rfl, fun _ => rfl, fun _ => rfl, fun _ => rfl, rfl, rfl, rfl, rfl, fun _ => rfl⟩

/-- Nobody has sent a command, and it is the slot of core `t`. -/
structure AtSlot (t : Nat) (y : Sys nCores) : Prop where
  waiting : ∀ i, (y.conn i).waiting = false
  syncReqReg : ∀ i, (y.conn i).syncReqReg = false
  state : y.sspm.state = .idle
  currentCore : y.sspm.currentCore = t
  nextCore : t < nCores → y.sspm.nextCore = t + 1

/-- Where there is room for one more core, the slots go on to it. -/
theorem AtSlot.next {t : Nat} (h : AtSlot t y) (ht : t < nCores)
    (hroom : nCores < 2 ^ MemBlock.log2Up nCores) :
    AtSlot (t + 1) (y.next cfg (quiet nCores)) := by
  have hconn : ∀ i, (y.next cfg (quiet nCores)).conn i = _ := conn_next cfg y (quiet nCores)
  have hgranted : granted cfg y.sspm (quiet nCores) = false := by
    have hlt : y.sspm.currentCore < nCores := h.currentCore.trans_lt ht
    have hreq : (selected y.sspm (quiet nCores)).syncReq = false := by
      rw [selected, dif_pos hlt]
      exact h.syncReqReg _
    simp [granted, hreq]
  constructor
  · intro i
    rw [hconn, Connector.next_of_free (h.waiting i)]
    rfl
  · intro i
    rw [hconn, Connector.next_of_free (h.waiting i)]
    exact h.syncReqReg i
  · rw [state_idle h.state, hgranted]
    rfl
  · rw [currentCore_idle h.state, hgranted]
    exact h.nextCore ht
  · intro hlt
    have hnext : (y.next cfg (quiet nCores)).sspm.nextCore = if y.sspm.nextCore > nCores - 1 then 0
        else if granted cfg y.sspm (quiet nCores) then y.sspm.nextCore
        else incr nCores y.sspm.nextCore := by
      simp only [Sys.next, SSPMAegean.next, h.state]
    rw [hnext, hgranted, h.nextCore ht, if_neg (by omega), if_neg Bool.false_ne_true, incr]
    exact Nat.mod_eq_of_lt (by omega)

theorem atSlot_of_quiet (cfg : Config) (hroom : nCores < 2 ^ MemBlock.log2Up nCores) (t : Nat)
    (ht : t ≤ nCores) :
    AtSlot t (run (next cfg) (powerUp nCores) (List.replicate t (quiet nCores))) := by
  induction t with
  | zero => exact ⟨fun _ => rfl, fun _ => rfl, rfl, rfl, fun _ => rfl⟩
  | succ t ih =>
    rw [List.replicate_succ', run_concat]
    exact (ih (Nat.le_of_succ_le ht)).next ht hroom

theorem legal_of_quiet (y : Sys nCores) (t : Nat) :
    Along (next cfg) Legal y (List.replicate t (quiet nCores)) := by
  induction t generalizing y with
  | zero => trivial
  | succ t ih =>
    refine ⟨⟨fun i h => absurd rfl h, fun i _ h => ?_⟩, ih _⟩
    cases h

/-- **The shared scratchpad is correct if and only if the number of cores is a power of two.** -/
theorem correct_iff (h2 : 2 ≤ nCores) (hext : 1 ≤ cfg.extendedSlotSize) :
    (∀ y : Sys nCores, y.IsReset → ∀ cs, Along (next cfg) Legal y cs → Correct cfg y cs) ↔
      ∃ k, nCores = 2 ^ k := by
  constructor
  · intro h
    refine ⟨MemBlock.log2Up nCores, ?_⟩
    by_contra hne
    have hroom := lt_of_le_of_ne (MemBlock.le_pow_log2Up nCores) hne
    have hslot := (atSlot_of_quiet cfg hroom nCores le_rfl).currentCore
    have hlt := (h _ isReset_powerUp _ (legal_of_quiet _ nCores)).current
    rw [hslot] at hlt
    exact lt_irrefl _ hlt
  · rintro ⟨k, rfl⟩ y hreset cs hlegal
    have hk : 1 ≤ k := by
      by_contra hk
      rw [Nat.lt_one_iff.mp (Nat.not_le.mp hk)] at h2
      omega
    exact correct_of_legal h2 (MemBlock.pow_log2Up hk rfl) hext hreset hlegal

end Runs

/-! ### Runs of two and of three cores -/

instance (y : Sys nCores) (c : Cycle nCores) : Decidable (Legal y c) :=
  decidable_of_iff (_ ∧ _) ⟨fun ⟨a, b⟩ => ⟨a, b⟩, fun ⟨a, b⟩ => ⟨a, b⟩⟩

/-- The commands of two cores in a cycle. -/
def both (m₀ m₁ : CacheMaster) : Cycle 2 :=
  { quiet 2 with cores := ![m₀, m₁] }

/-- The second core asks for an extended slot and then writes, while the first core writes to the
    same word. -/
def contention : List (Cycle 2) :=
  let wr (b : Byte) : CacheMaster := ⟨.wr, 8, fun _ => b, allBytes⟩
  [both nothing ⟨.rd, 0xFFFC, fun _ => 0, allBytes⟩, both nothing nothing, both (wr 3) nothing,
    both nothing (wr 4)] ++ List.replicate 6 (both nothing nothing)

theorem contention_correct :
    ((view ⟨4, true⟩ 2).ops (powerUp 2) contention).map (fun o => (o.1, o.2.data 0)) =
        [(1, 0), (1, 4), (0, 3)] ∧
      Correct ⟨4, true⟩ (powerUp 2) contention := by
  refine ⟨by decide +kernel, ?_⟩
  exact (correct_iff (by decide) (by decide)).mpr ⟨1, rfl⟩ _ isReset_powerUp _ (by decide +kernel)

/-- Three cores: after three cycles it is the slot of a fourth one. -/
theorem three_cores_not_correct :
    Along (next ⟨4, true⟩) Legal (powerUp 3) (List.replicate 3 (quiet 3)) ∧
      (run (next ⟨4, true⟩) (powerUp 3) (List.replicate 3 (quiet 3))).sspm.currentCore = 3 ∧
      ¬ Correct ⟨4, true⟩ (powerUp 3) (List.replicate 3 (quiet 3)) := by
  have hslot : (run (next ⟨4, true⟩) (powerUp 3) (List.replicate 3 (quiet 3))).sspm.currentCore =
      3 := by
    decide +kernel
  refine ⟨by decide +kernel, hslot, fun h => ?_⟩
  have hlt := h.current
  rw [hslot] at hlt
  exact absurd hlt (by decide)

end Sys

end Patmos.SSPMAegean
