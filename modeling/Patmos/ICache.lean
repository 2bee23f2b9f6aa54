import Patmos.Clocked
import Patmos.MemBlock

/-!
# The instruction cache

`ICache` is direct mapped and fetches two adjacent words at a time, one from the even and one
from the odd addresses.  Tags are in two blocks as well, for the even and the odd lines; when
the two words are in different lines, the lines have different parity.  On a miss the line of
the odd word, or else of the even word, is marked valid with its new tag and then read from
memory as one burst; when both words miss this happens twice.  An error answer takes the
controller to a state in which it waits for the rest of the burst.

The parameters are `LINE_WORD_SIZE_WIDTH` and `LINE_COUNT_WIDTH`; a line is one burst.  The
registers for the read addresses of the memory blocks are clocked with the same addresses as
`addrEvenReg` and `addrOddReg`, which stand for them.
-/

namespace Patmos.ICache

open Ocp MemBlock

inductive Fsm where
  | init
  | idle
  | transfer
  | wait
  | error
deriving DecidableEq, Repr

/-- `ICacheCtrl`. -/
structure Ctrl where
  stateReg : Fsm
  fetchCntReg : Nat
  burstCntReg : Nat
  addrReg : Nat
  ocpSlaveReg : CoreSlave

/-- `ICacheReplDm`. -/
structure Repl where
  tagMem : Banks Nat
  validVec : Nat → Bool
  selCacheReg : Bool
  addrEvenReg : Nat
  addrOddReg : Nat

structure State where
  ctrl : Ctrl
  repl : Repl
  mem : Banks Word

/-- The fetch addresses, a call or return, the enable and the invalidate signal. -/
structure Inputs where
  addrEven : Nat
  addrOdd : Nat
  doCallRet : Bool
  callRetBase : Nat
  enaIn : Bool
  invalidate : Bool

/-- `ICacheCtrlRepl`. -/
structure CtrlRepl where
  wEna : Bool
  wData : Word
  wAddr : Nat
  wTag : Bool

def noWrite : CtrlRepl := ⟨false, fun _ => 0, 0, false⟩

section Circuit

variable (lineWidth countWidth : Nat)

/-! ### Replacement -/

/-- Bits `TAG_HIGH` to `TAG_LOW`. -/
def tagOf (a : Nat) : Nat := a / 2 ^ (countWidth + lineWidth)

/-- Bits `INDEX_HIGH` to `INDEX_LOW`. -/
def indexOf (a : Nat) : Nat := a / 2 ^ lineWidth % 2 ^ countWidth

namespace Repl

def toutEven (r : Repl) : Nat :=
  r.tagMem.even (if indexOf lineWidth countWidth r.addrEvenReg % 2 = 1 then
    indexOf lineWidth countWidth r.addrOddReg / 2
  else indexOf lineWidth countWidth r.addrEvenReg / 2)

def toutOdd (r : Repl) : Nat :=
  r.tagMem.odd (if indexOf lineWidth countWidth r.addrEvenReg % 2 = 1 then
    indexOf lineWidth countWidth r.addrEvenReg / 2
  else indexOf lineWidth countWidth r.addrOddReg / 2)

def tagEven (r : Repl) : Nat :=
  if indexOf lineWidth countWidth r.addrEvenReg % 2 = 1 then r.toutOdd lineWidth countWidth
  else r.toutEven lineWidth countWidth

def tagOdd (r : Repl) : Nat :=
  if indexOf lineWidth countWidth r.addrOddReg % 2 = 1 then r.toutOdd lineWidth countWidth
  else r.toutEven lineWidth countWidth

def hitEven (r : Repl) : Bool :=
  decide (r.tagEven lineWidth countWidth = tagOf lineWidth countWidth r.addrEvenReg) &&
    r.validVec (indexOf lineWidth countWidth r.addrEvenReg)

def hitOdd (r : Repl) : Bool :=
  decide (r.tagOdd lineWidth countWidth = tagOf lineWidth countWidth r.addrOddReg) &&
    r.validVec (indexOf lineWidth countWidth r.addrOddReg)

def hit (r : Repl) : Bool := r.hitEven lineWidth countWidth && r.hitOdd lineWidth countWidth

def fetchAddr (r : Repl) : Nat :=
  if r.hitOdd lineWidth countWidth then r.addrEvenReg else r.addrOddReg

/-- `enaIn` is the enable signal of the unit. -/
def next (r : Repl) (w : CtrlRepl) (enaIn : Bool) (i : Inputs) : Repl :=
  { tagMem := r.tagMem.write w.wTag (indexOf lineWidth countWidth w.wAddr)
      (tagOf lineWidth countWidth w.wAddr)
    validVec := fun l => if i.invalidate then false
      else if w.wTag && decide (indexOf lineWidth countWidth w.wAddr = l) then true
      else r.validVec l
    selCacheReg := if i.doCallRet && enaIn then decide (1 ≤ i.callRetBase / 2 ^ 15)
      else r.selCacheReg
    addrEvenReg := i.addrEven
    addrOddReg := i.addrOdd }

end Repl

/-! ### Control -/

/-- The selected cache misses. -/
def miss (s : State) : Bool :=
  s.ctrl.stateReg == .idle && s.repl.selCacheReg && !s.repl.hit lineWidth countWidth

def fetchEna (s : State) : Bool :=
  match s.ctrl.stateReg with
  | .init => true
  | .idle => !miss lineWidth countWidth s
  | .transfer => false
  | .wait => false
  | .error => false

/-- The line that is fetched on a miss. -/
def fetchLine (s : State) : Nat := s.repl.fetchAddr lineWidth countWidth / 2 ^ lineWidth

def ctrlrepl (s : State) : CtrlRepl :=
  match s.ctrl.stateReg with
  | .idle =>
    if miss lineWidth countWidth s then
      ⟨false, fun _ => 0, fetchLine lineWidth countWidth s * 2 ^ lineWidth, true⟩
    else noWrite
  | .transfer =>
    if s.ctrl.fetchCntReg < 2 ^ lineWidth then
      ⟨s.ctrl.ocpSlaveReg.resp == .dva,
        if s.ctrl.ocpSlaveReg.resp = .dva then s.ctrl.ocpSlaveReg.data else fun _ => 0,
        (s.ctrl.addrReg * 2 ^ lineWidth + s.ctrl.fetchCntReg) % 2 ^ 32, false⟩
    else noWrite
  | _ => noWrite

/-- A second burst for a line that is longer than a burst. -/
def nextBurst (c : Ctrl) : Bool :=
  decide (c.fetchCntReg < 2 ^ lineWidth) && c.ocpSlaveReg.resp == .dva &&
    decide (c.fetchCntReg < 2 ^ lineWidth - 1) && decide (2 ^ lineWidth - 1 ≤ c.burstCntReg)

/-- `ocpCmd` and `ocpAddr`. -/
def ocp (s : State) : OcpCmd × Nat :=
  match s.ctrl.stateReg with
  | .idle =>
    if miss lineWidth countWidth s then (.rd, fetchLine lineWidth countWidth s * 2 ^ lineWidth)
    else (.idle, 0)
  | .wait => (.rd, s.ctrl.addrReg * 2 ^ lineWidth)
  | .transfer =>
    if nextBurst lineWidth s.ctrl then
      (.rd, (s.ctrl.addrReg * 2 ^ lineWidth + s.ctrl.fetchCntReg + 1) % 2 ^ 32)
    else (.idle, 0)
  | _ => (.idle, 0)

/-- `io.ocp_port.M`. -/
def toOcp (s : State) : BurstMaster :=
  ⟨(ocp lineWidth countWidth s).1, (ocp lineWidth countWidth s).2 * 4 % 2 ^ 32, fun _ => 0, false,
    allBytes⟩

/-- The state machine without errors. -/
def fsmNext (s : State) (slave : BurstSlave) : Ctrl :=
  let c := s.ctrl
  match c.stateReg with
  | .init => { c with stateReg := if s.repl.selCacheReg then .idle else .init }
  | .idle =>
    if miss lineWidth countWidth s then
      { c with
        stateReg := if slave.cmdAccept then .transfer else .wait
        fetchCntReg := 0
        burstCntReg := 0
        addrReg := fetchLine lineWidth countWidth s }
    else { c with stateReg := if s.repl.selCacheReg then .idle else .init }
  | .wait => { c with stateReg := if slave.cmdAccept then .transfer else .wait }
  | .transfer =>
    if c.fetchCntReg < 2 ^ lineWidth then
      if c.ocpSlaveReg.resp = .dva then
        { c with
          fetchCntReg := (c.fetchCntReg + 1) % 2 ^ (countWidth + lineWidth)
          burstCntReg := if nextBurst lineWidth c then 0
            else (c.burstCntReg + 1) % 2 ^ lineWidth }
      else c
    else { c with stateReg := .idle }
  | .error => c

/-- The last answer of a burst with an error is expected. -/
def illMem (c : Ctrl) : Bool :=
  c.stateReg == .error && decide (c.burstCntReg = 2 ^ lineWidth - 1)

/-- An error answer, and then the wait for the end of the burst. -/
def errNext (c n : Ctrl) : Ctrl :=
  { n with
    stateReg := if illMem lineWidth c then .idle
      else if c.ocpSlaveReg.resp = .err then .error else n.stateReg
    burstCntReg := if c.ocpSlaveReg.resp = .err ∨ c.stateReg = .error ∧ c.ocpSlaveReg.resp ≠ .null
      then (c.burstCntReg + 1) % 2 ^ lineWidth else n.burstCntReg }

def next (s : State) (i : Inputs) (slave : BurstSlave) : State :=
  let w := ctrlrepl lineWidth countWidth s
  { ctrl := { errNext lineWidth s.ctrl (fsmNext lineWidth countWidth s slave) with
      ocpSlaveReg := ⟨slave.resp, slave.data⟩ }
    repl := s.repl.next lineWidth countWidth w (i.enaIn && fetchEna lineWidth countWidth s) i
    mem := s.mem.write w.wEna (w.wAddr % 2 ^ (countWidth + lineWidth)) w.wData }

/-- `instrEven`. -/
def instrEven (s : State) : Word :=
  s.mem.even (s.repl.addrEvenReg % 2 ^ (countWidth + lineWidth) / 2)

/-- `instrOdd`. -/
def instrOdd (s : State) : Word :=
  s.mem.odd (s.repl.addrOddReg % 2 ^ (countWidth + lineWidth) / 2)

end Circuit

/-- The registers with a reset value have it. -/
structure IsReset (s : State) : Prop where
  stateReg : s.ctrl.stateReg = .init
  fetchCntReg : s.ctrl.fetchCntReg = 0
  burstCntReg : s.ctrl.burstCntReg = 0
  addrReg : s.ctrl.addrReg = 0
  validVec : ∀ l, s.repl.validVec l = false
  selCacheReg : s.repl.selCacheReg = false

end Patmos.ICache
