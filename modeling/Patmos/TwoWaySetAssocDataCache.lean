import Patmos.StackStoreLeak

/-!
# The two-way set associative data cache

`TwoWaySetAssociativeCache` takes the place of the direct-mapped cache when `DCACHE_ASSOC` is 2.
Each way is half of the cache, and is looked up and written as a direct-mapped cache is.  `lruMem`
names the way that the next miss replaces: `false` the first, with `tagMem1`, `tagVMem1` and
`mem1`, and `true` the second.  It is read at the index of the line, but written at the index of
the word.

The filter in front of the cache is the same, so that it too sees the stores to the stack cache.
-/

namespace Patmos.TwoWaySetAssociativeCache

open Clocked Ocp
open DataCache (Config Hits StackStore)
open DirectMappedCache (Fsm lineBits tagCount lineIndex tagOf wordIndex missIndex missIndexBits
  vecRead vecWrite)

structure State where
  masterReg : CacheMaster
  tagMem : Bool → Nat → Nat
  tagRdAddrReg : Nat
  tagVMem : Bool → Nat → Bool
  tagV : Bool → Bool
  lruMem : Nat → Bool
  lru : Bool
  mem : Bool → Nat → Word
  rdAddrReg : Nat
  fillReg : Bool
  wrAddrReg : Nat
  wrDataReg : Word
  lruReg : Bool
  stateReg : Fsm
  burstCntReg : Nat
  missIndexReg : Nat
  slaveReg : CoreSlave

/-- The two ports, the invalidate signal, and what the memories of a way return outside their
    range. -/
structure Inputs where
  master : CacheMaster
  slave : BurstSlave
  invalidate : Bool
  undefTag : Bool → Nat
  undefWord : Bool → Word

/-- A way as a direct-mapped cache.  A beat is written to the way that `lruReg` names. -/
def State.way (s : State) (k : Bool) : DirectMappedCache.State where
  masterReg := s.masterReg
  tagMem := s.tagMem k
  tagRdAddrReg := s.tagRdAddrReg
  tagVMem := s.tagVMem k
  tagV := s.tagV k
  mem := s.mem k
  rdAddrReg := s.rdAddrReg
  fillReg := s.fillReg && s.lruReg == k
  wrAddrReg := s.wrAddrReg
  wrDataReg := s.wrDataReg
  stateReg := s.stateReg
  burstCntReg := s.burstCntReg
  missIndexReg := s.missIndexReg
  slaveReg := s.slaveReg

def Inputs.way (i : Inputs) (k : Bool) : DirectMappedCache.Inputs :=
  ⟨i.master, i.invalidate, i.undefTag k, i.undefWord k⟩

section Circuit

variable (c : Config) (s : State) (i : Inputs)

def waySize : Nat := c.dcacheSize / 2

/-- `tagValid1` and `tagValid2`. -/
def tagValid (k : Bool) : Bool :=
  DirectMappedCache.tagValid (waySize c) c.burstLength (s.way k) (i.way k)

def found : Bool := tagValid c s i false || tagValid c s i true

/-- The condition that starts handling a miss. -/
def miss : Bool := !found c s i && s.masterReg.cmd == .rd

/-- `io.master.S`. -/
def toMaster : CoreSlave :=
  let k := !tagValid c s i false
  if s.stateReg = .respond then s.slaveReg
  else ⟨if found c s i && s.masterReg.cmd == .rd then .dva else .null,
    DirectMappedCache.rdData (waySize c) (s.way k) (i.way k)⟩

/-- `io.slave.M`. -/
def toSlave : BurstMaster where
  cmd := if miss c s i ∨ s.stateReg = .hold then .rd else .idle
  addr := s.masterReg.addr / 2 ^ lineBits c.burstLength * 2 ^ lineBits c.burstLength
  data := fun _ => 0
  dataValid := false
  dataByteEn := noBytes

/-- A beat of a fill. -/
def beat : Bool := s.stateReg == .fill && i.slave.resp != .null

def nextState : Fsm :=
  let requested : Fsm := if i.slave.cmdAccept then .fill else .hold
  match s.stateReg with
  | .idle => if miss c s i then requested else .idle
  | .hold => requested
  | .fill =>
    if beat s i && s.burstCntReg == c.burstLength - 1 then .respond
    else if miss c s i then requested else .fill
  | .respond => .idle

/-- The valid bits of a way.  An erroneous beat clears the bit in the way that `lru` names in that
    cycle, which need not be the one that is being filled. -/
def nextTagVMem (k : Bool) : Nat → Bool :=
  let n := tagCount (waySize c) c.burstLength
  let j := lineIndex (waySize c) c.burstLength s.masterReg.addr
  let v1 := if miss c s i ∧ s.lru = k then vecWrite n (s.tagVMem k) j true else s.tagVMem k
  let v2 := if s.stateReg = .fill ∧ i.slave.resp = .err ∧ s.lru = k then vecWrite n v1 j false
    else v1
  if i.invalidate then fun _ => false else v2

/-- A command that hits, a store as well as a load, makes the other way the next to go. -/
def nextLruMem : Nat → Bool :=
  let j := wordIndex (waySize c) s.masterReg.addr
  let v := if s.masterReg.cmd ≠ .idle ∧ found c s i ∧ s.fillReg = false then
      vecWrite (waySize c / 4) s.lruMem j (tagValid c s i false)
    else s.lruMem
  if miss c s i && i.slave.cmdAccept then vecWrite (waySize c / 4) v j (!s.lru) else v

def next : State where
  masterReg := { i.master with
    addr := if miss c s i ∨ s.stateReg = .hold ∨ s.stateReg = .fill then s.masterReg.addr
      else i.master.addr }
  tagMem k := MemBlock.write (tagCount (waySize c) c.burstLength) (s.tagMem k)
    (miss c s i && s.lru == k) (lineIndex (waySize c) c.burstLength s.masterReg.addr)
    (tagOf (waySize c) s.masterReg.addr)
  tagRdAddrReg := lineIndex (waySize c) c.burstLength i.master.addr
  tagVMem k := nextTagVMem c s i k
  tagV k := vecRead (tagCount (waySize c) c.burstLength) (s.tagVMem k)
    (lineIndex (waySize c) c.burstLength i.master.addr)
  lruMem := nextLruMem c s i
  lru := vecRead (waySize c / 4) s.lruMem (lineIndex (waySize c) c.burstLength i.master.addr)
  mem k := DirectMappedCache.written (waySize c) c.burstLength (s.way k) (i.way k)
  rdAddrReg := wordIndex (waySize c) i.master.addr
  fillReg := beat s i
  wrAddrReg := if s.stateReg = .fill then
      lineIndex (waySize c) c.burstLength s.masterReg.addr * 2 ^ (lineBits c.burstLength - 2) +
        s.burstCntReg
    else wordIndex (waySize c) i.master.addr
  wrDataReg := if beat s i then i.slave.data else i.master.data
  lruReg := if miss c s i then s.lru else s.lruReg
  stateReg := nextState c s i
  burstCntReg := if beat s i then (s.burstCntReg + 1) % 2 ^ (lineBits c.burstLength - 2)
    else s.burstCntReg
  missIndexReg := if miss c s i then
      missIndex c.burstLength s.masterReg.addr % 2 ^ missIndexBits c.burstLength
    else s.missIndexReg
  slaveReg := if beat s i && s.burstCntReg == s.missIndexReg then ⟨i.slave.resp, i.slave.data⟩
    else s.slaveReg

/-- A cycle in which the cache has nothing to do but register the next command. -/
structure FreeCycle : Prop where
  state : s.stateReg = .idle ∨ s.stateReg = .respond
  noMiss : miss c s i = false

end Circuit

section Store

variable {c : Config} {s : State} {i : Inputs}

theorem way_next (h : FreeCycle c s i) (k : Bool) : (next c s i).way k =
    DirectMappedCache.registered (waySize c) c.burstLength (s.way k) (i.way k) := by
  have hfill : s.stateReg ≠ .fill := by
    rcases h.state with hst | hst <;> simp [hst]
  have hhold : s.stateReg ≠ .hold := by
    rcases h.state with hst | hst <;> simp [hst]
  have hidle : nextState c s i = .idle := by
    rcases h.state with hst | hst <;> simp [nextState, hst, h.noMiss]
  simp [State.way, Inputs.way, next, nextTagVMem, beat, MemBlock.write, h.noMiss, hfill,
    hhold, hidle]

theorem tagValid_of_not_hits (h : FreeCycle c s i) {k : Bool}
    (hno : ¬ Hits (waySize c) c.burstLength (s.way k) i.master.addr) (j : Inputs) :
    tagValid c (next c s i) j k = false := by
  rw [tagValid, DataCache.tagValid_next (way_next h k), Bool.eq_false_iff, Ne, Bool.and_eq_true,
    beq_iff_eq]
  exact fun hv => hno ⟨hv.1, MemBlock.read_of_read hv.2⟩

/-- The state without the command that is registered in `s`. -/
def State.skip (s : State) : State := { s with masterReg := { s.masterReg with cmd := .idle } }

/-- What the cache shows at its ports. -/
def ports (c : Config) (s : State) (i : Inputs) : List (CoreSlave × BurstMaster) :=
  [(toMaster c s i, toSlave c s i)]

/-- A store that hits in no way does nothing. -/
theorem skip_of_not_valid (hcmd : s.masterReg.cmd = .wr) (hno : ∀ k, tagValid c s i k = false) :
    ports c s.skip i = ports c s i ∧ next c s.skip i = next c s i := by
  have hskip : ∀ k, tagValid c s.skip i k = false := hno
  have hmiss : miss c s i = false := by simp [miss, hcmd]
  have hmiss' : miss c s.skip i = false := by simp [miss, State.skip]
  have hwritten : ∀ k,
      DirectMappedCache.written (waySize c) c.burstLength (s.skip.way k) (i.way k) =
        DirectMappedCache.written (waySize c) c.burstLength (s.way k) (i.way k) := by
    intro k
    have hv : DirectMappedCache.tagValid (waySize c) c.burstLength (s.way k) (i.way k) = false :=
      hno k
    have hv' : DirectMappedCache.tagValid (waySize c) c.burstLength (s.skip.way k) (i.way k) =
        false := hno k
    rw [DirectMappedCache.written, DirectMappedCache.written, hv, hv']
    rfl
  constructor
  · simp only [ports, toMaster, toSlave, found, hno, hskip, hmiss, hmiss', Bool.or_false,
      Bool.false_and]
    rfl
  · simp only [next, nextState, nextTagVMem, nextLruMem, found, hno, hskip, hmiss, hmiss', hwritten,
      Bool.or_false, Bool.false_and, Bool.false_eq_true, false_and, and_false, if_false]
    rfl

/-- What the filter lets through when the pipeline drives `cmd` with the signals of the store. -/
def drive (st : StackStore) (e : Inputs) (cmd : OcpCmd) : Inputs :=
  { e with master := DataCache.dmMaster (st.drive DataCache.Sys.idleCycle cmd).cpu }

/-- A store to the stack cache whose address is in neither way leaves no trace: whatever the
    pipeline and the memory do after it, both ports show the same as without it. -/
theorem ports_of_not_hits {st : StackStore} {e : Inputs} (hfree : FreeCycle c s (drive st e .wr))
    (hno : ∀ k, ¬ Hits (waySize c) c.burstLength (s.way k) st.addr) (is : List Inputs) :
    emitted (next c) (ports c) (next c s (drive st e .wr)) is =
      emitted (next c) (ports c) (next c s (drive st e .idle)) is := by
  have hcmd : (next c s (drive st e .wr)).masterReg.cmd = .wr :=
    congrArg (fun t => t.masterReg.cmd) (way_next hfree false)
  change _ = emitted _ _ (next c s (drive st e .wr)).skip is
  cases is with
  | nil => rfl
  | cons i is =>
    obtain ⟨hports, hnext⟩ := skip_of_not_valid (i := i) hcmd fun k =>
      tagValid_of_not_hits hfree (hno k) i
    rw [emitted_cons, emitted_cons, hports, hnext]

end Store

/-- After reset, with zeros where nothing is reset. -/
def powerUp : State :=
  ⟨⟨.idle, 0, fun _ => 0, noBytes⟩, fun _ _ => 0, 0, fun _ _ => false, fun _ => false,
    fun _ => false, false, fun _ _ _ => 0, 0, false, 0, fun _ => 0, false, .idle, 0, 0,
    ⟨.null, fun _ => 0⟩⟩

/-- A cycle in which the memory does nothing. -/
def cycle (cmd : OcpCmd) (addr : Nat) : Inputs :=
  ⟨⟨cmd, addr, fun _ => 0, noBytes⟩, ⟨.null, fun _ => 0, false, false⟩, false, fun _ => 0,
    fun _ _ => 0⟩

/-- A store of 7 at offset 4 of the stack frame, or the same cycle without it. -/
def store (cmd : OcpCmd) : Inputs := drive ⟨4, fun _ => 7, allBytes⟩ (cycle .idle 0) cmd

/-- The store leaves no trace in an empty cache.  With the first line in the second way, a load of
    address 4 returns 7 after it and 0 without it. -/
theorem store_noTrace :
    emitted (next ⟨32, 4, 2⟩) (ports ⟨32, 4, 2⟩) (next ⟨32, 4, 2⟩ powerUp (store .wr))
        [cycle .rd 4, cycle .idle 0] =
      emitted (next ⟨32, 4, 2⟩) (ports ⟨32, 4, 2⟩) (next ⟨32, 4, 2⟩ powerUp (store .idle))
        [cycle .rd 4, cycle .idle 0] ∧
    ∀ cmd ∈ [OcpCmd.wr, .idle], toMaster ⟨32, 4, 2⟩ (run (next ⟨32, 4, 2⟩)
        { powerUp with tagVMem := fun k j => k && j == 0 } [store cmd, cycle .rd 4])
        (cycle .idle 0) = ⟨.dva, fun _ => if cmd = .wr then 7 else 0⟩ := by
  refine ⟨ports_of_not_hits ⟨Or.inl rfl, by decide +kernel⟩ ?_ _, by decide +kernel⟩
  rintro k ⟨hvalid, -⟩
  exact absurd hvalid (by cases k <;> decide +kernel)

end Patmos.TwoWaySetAssociativeCache
