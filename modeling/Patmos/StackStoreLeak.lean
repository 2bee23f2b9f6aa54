import Patmos.DataCacheTransparent

/-!
# Stores to the stack cache and the data cache

The direct-mapped cache sees every store, also one in the stack cache's address space, and
there with the address relative to the stack top, which only the stack cache translates.
When the word at that address is in the data cache, the store changes it.

Two runs are compared that differ in one cycle: in one of them the pipeline issues the
store, in the other it issues nothing.  Later loads outside the stack cache return the
same values in both, whatever follows, if and only if the store does not change a cached
word.
-/

namespace Patmos.DataCache

open Clocked Ocp
open DirectMappedCache (lineIndex tagCount tagOf wordIndex vecRead written tagValid)

/-- The unit with its memory.  `loading` says that a load outside the stack cache has not
    been answered yet. -/
structure Bench where
  core : State
  slave : Slave
  loading : Bool

namespace Bench

section Step

variable (c : Config) (y : Bench) (i : SysInputs)

def fromSlave : BurstSlave := y.slave.out (toSlave c y.core i.cpu) i.choice

def respOut : OcpResp := resp c y.core i.cpu (fromSlave c y i)

def next : Bench where
  core := DataCache.next c y.core i.cpu (fromSlave c y i)
  slave := y.slave.next c.burstLength (toSlave c y.core i.cpu) i.choice
  loading :=
    if i.cpu.master.cmd ≠ .idle then i.cpu.master.cmd == .rd && !selSC i.cpu
    else y.loading && respOut c y i == .null

/-- The value that a load outside the stack cache returns in this cycle. -/
def loads : List Word :=
  if y.loading && respOut c y i == .dva then [data c y.core i.cpu] else []

/-- All units can take a command: what was outstanding is answered in this cycle at the
    latest. -/
structure Ready : Prop where
  dm : DirectMappedCache.FreeCycle c.dcacheSize c.burstLength y.core.dm (dmInputs i.cpu)
  sc : y.core.sc.stateReg = .idleState
  bp : y.core.bp.stateReg ≠ .read
  bpCmd : y.core.bp.masterReg.cmd ≠ .rd
  wc : y.core.wc.state = .idle ∨
    y.core.wc.state = .writeResp ∧ (fromSlave c y i).resp ≠ .null
  answered : y.loading = true → respOut c y i ≠ .null

/-- The stack cache is not spilling. -/
def NoSpill (s : StackCache.State) : Prop :=
  s.stateReg ≠ .holdSpillState ∧ s.stateReg ≠ .spillState ∧ s.stateReg ≠ .waitSpillState

structure Legal : Prop where
  issue : i.cpu.master.cmd ≠ .idle → Ready c y i
  noSpill : NoSpill y.core.sc

end Step

end Bench

/-! ### A store with and without -/

/-- A store in the address space of the stack cache. -/
structure StackStore where
  addr : Nat
  data : Word
  byteEn : ByteEn

namespace StackStore

variable (st : StackStore) (e : SysInputs)

/-- A cycle in which the pipeline drives `cmd` with the signals of the store; `e` has the
    other signals of the cycle. -/
def drive (cmd : OcpCmd) : SysInputs :=
  { e with cpu :=
    { e.cpu with master := ⟨cmd, st.addr, st.data, st.byteEn⟩, addrSpace := .stackCache } }

def issued : SysInputs := st.drive e .wr

def skipped : SysInputs := st.drive e .idle

end StackStore

/-- Later loads outside the stack cache return the same with and without the store, in
    whatever cycle it can be issued and whatever follows, as long as nothing is spilled. -/
def SameLoads (c : Config) (y : Bench) (st : StackStore) : Prop :=
  ∀ e, y.Ready c (st.issued e) → ∀ is,
    Along (Bench.next c) (Bench.Legal c) (Bench.next c y (st.issued e)) is →
    emitted (Bench.next c) (Bench.loads c) (Bench.next c y (st.issued e)) is =
      emitted (Bench.next c) (Bench.loads c) (Bench.next c y (st.skipped e)) is

/-- The entry of the data memories that an address selects. -/
def wordEntry (size addr : Nat) : Nat := MemBlock.truncateIndex (size / 4) (wordIndex size addr)

/-- The store in `i` hits a valid line and changes a byte of it.  An index outside the
    memories reads the first valid bit and any tag, so also the one that is looked for. -/
structure Leaks (size burstLength : Nat) (s : DirectMappedCache.State)
    (i : DirectMappedCache.Inputs) : Prop where
  valid : vecRead (tagCount size burstLength) s.tagVMem (lineIndex size burstLength i.master.addr) =
    true
  tag : MemBlock.read (tagCount size burstLength) s.tagMem
    (lineIndex size burstLength i.master.addr) (tagOf size i.master.addr) = tagOf size i.master.addr
  room : wordEntry size i.master.addr < size / 4
  differs : ∃ l, i.master.byteEn l = true ∧
    i.master.data l ≠ written size burstLength s i (wordEntry size i.master.addr) l

/-! ### Runs that differ in the stack cache -/

namespace Bench

variable {c : Config} {s t : State} {y z : Bench} {i : SysInputs}

/-- The switch of the stack cache looks neither at its data nor at its last response. -/
theorem control_of_data {words burstLength : Nat} (s : StackCache.State) (M : Nat → Word)
    (r : OcpResp) (j : StackCache.Inputs) (m : BurstSlave) :
    StackCache.control words burstLength { s with memoryBlock := M, responseToCPUReg := r } j m =
      { StackCache.control words burstLength s j m with
        memoryBlock := M
        responseToCPUReg := r } := by
  obtain ⟨stateReg, _, _, _, _, _, _, _, _⟩ := s
  cases stateReg with
  | idleState =>
    obtain ⟨_, op, _, _, _, _, _, _, _⟩ := j
    cases op <;> rfl
  | fillState | holdSpillState | spillState | waitSpillState | errorState => rfl
  | waitFillState =>
    simp only [StackCache.control]
    by_cases hdva : m.resp = .dva
    · rw [if_pos hdva, if_pos hdva]
      rfl
    · rw [if_neg hdva, if_neg hdva]
      by_cases herr : m.resp = .err
      · rw [if_pos herr, if_pos herr]
        rfl
      · rw [if_neg herr, if_neg herr]

theorem scNext_of_data {words burstLength : Nat} (s : StackCache.State) (M : Nat → Word)
    (r : OcpResp) (j : StackCache.Inputs) (m : BurstSlave) :
    ∃ M', StackCache.next words burstLength { s with memoryBlock := M, responseToCPUReg := r } j m =
      { StackCache.next words burstLength s j m with memoryBlock := M' } := by
  refine ⟨StackCache.mbWrite words { s with memoryBlock := M, responseToCPUReg := r } j m, ?_⟩
  cases hena : j.enaIn with
  | true =>
    simp only [StackCache.next, hena, control_of_data, if_true]
    rfl
  | false =>
    simp only [StackCache.next, hena, control_of_data]
    rfl

theorem toMemory_agree {words : Nat} {s : StackCache.State} (hno : NoSpill s) (M : Nat → Word)
    (r : OcpResp) (j : StackCache.Inputs) :
    (StackCache.toMemory words s j).Agree
      (StackCache.toMemory words { s with memoryBlock := M, responseToCPUReg := r } j) := by
  refine ⟨rfl, rfl, rfl, rfl, ?_⟩
  intro hv
  simp [StackCache.toMemory, hno.1, hno.2.1] at hv

theorem toJoined_agree {reg : Bool} {left left' right : BurstMaster} (h : left.Agree left') :
    (BurstJoin.toJoined reg left right).Agree (BurstJoin.toJoined reg left' right) := by
  have hcmd : BurstJoin.joinCmd left' right = BurstJoin.joinCmd left right := by
    simp only [BurstJoin.joinCmd, h.cmd]
  have hsel : BurstJoin.selRight reg left' right = BurstJoin.selRight reg left right := by
    simp only [BurstJoin.selRight, h.cmd]
  unfold BurstJoin.toJoined
  rw [hcmd, hsel]
  cases BurstJoin.selRight reg left right with
  | true => exact ⟨rfl, rfl, rfl, rfl, fun _ => rfl⟩
  | false => exact ⟨rfl, h.addr, h.dataValid, h.dataByteEn, h.data⟩

theorem wcToSlave_agree {burstLength : Nat} {w : WriteNoBuffer.State} {m n : BurstMaster}
    (h : m.Agree n) :
    (WriteNoBuffer.toSlave burstLength w m).Agree (WriteNoBuffer.toSlave burstLength w n) := by
  unfold WriteNoBuffer.toSlave
  by_cases hst : w.state = .write
  · rw [if_pos hst, if_pos hst, h.cmd, h.addr]
    exact ⟨rfl, rfl, rfl, rfl, fun _ => rfl⟩
  · rw [if_neg hst, if_neg hst]
    exact h

/-- What the ports to the memory depend on is the same, but for the data of the stack
    cache. -/
structure Bus (c : Config) (s t : State) : Prop where
  request : ∀ j, DirectMappedCache.toSlave c.dcacheSize c.burstLength t.dm j =
    DirectMappedCache.toSlave c.dcacheSize c.burstLength s.dm j
  bp : t.bp = s.bp
  join1 : t.join1 = s.join1
  join2 : t.join2 = s.join2
  wc : t.wc = s.wc
  sc : ∃ M r, t.sc = { s.sc with memoryBlock := M, responseToCPUReg := r }

theorem Bus.bus1_eq (h : Bus c s t) (j : Inputs) : bus1 c t j = bus1 c s j := by
  simp only [bus1, h.request, h.bp, h.join1]

theorem Bus.toSlave_agree (h : Bus c s t) (hno : NoSpill s.sc) (j : Inputs) :
    (toSlave c s j).Agree (toSlave c t j) := by
  obtain ⟨M, r, hsc⟩ := h.sc
  unfold toSlave bus2
  rw [h.bus1_eq, h.wc, h.join2, hsc]
  exact wcToSlave_agree (toJoined_agree (toMemory_agree hno M r _))

/-- The runs cannot be told apart outside the stack cache.  The data cache may still differ
    in a command that has no effect, and the selects of `data` while no load is
    outstanding. -/
structure Rel (c : Config) (y z : Bench) : Prop extends Bus c y.core z.core where
  dm : ∀ j m, DirectMappedCache.next c.dcacheSize c.burstLength z.core.dm j m =
    DirectMappedCache.next c.dcacheSize c.burstLength y.core.dm j m
  slave : z.slave = y.slave
  loading : z.loading = y.loading
  load : y.loading = true → z.core.dm = y.core.dm ∧
    z.core.sc.responseToCPUReg = y.core.sc.responseToCPUReg ∧
    z.core.selDCReg = y.core.selDCReg ∧ y.core.selSCReg = false ∧ z.core.selSCReg = false

theorem Rel.fromSlave_eq (h : Rel c y z) (hno : NoSpill y.core.sc) :
    fromSlave c z i = fromSlave c y i := by
  unfold fromSlave
  rw [h.slave, Slave.out_of_agree (h.toSlave_agree hno i.cpu)]

theorem Rel.respOut_eq (h : Rel c y z) (hno : NoSpill y.core.sc) (hload : y.loading = true) :
    respOut c z i = respOut c y i := by
  obtain ⟨hdm, hresp, -⟩ := h.load hload
  unfold respOut resp
  rw [h.fromSlave_eq hno, hdm, hresp, h.bp, h.wc]

theorem Rel.loads_eq (h : Rel c y z) (hno : NoSpill y.core.sc) : loads c y i = loads c z i := by
  cases hload : y.loading with
  | false => simp [loads, h.loading, hload]
  | true =>
    obtain ⟨hdm, -, hselDC, hy, hz⟩ := h.load hload
    have hdata : data c z.core i.cpu = data c y.core i.cpu := by
      simp [data, hy, hz, hselDC, hdm, h.bp]
    unfold loads
    rw [h.loading, h.respOut_eq hno hload, hdata]

theorem Rel.step (h : Rel c y z) (hno : NoSpill y.core.sc) : Rel c (next c y i) (next c z i) := by
  have hfrom : fromSlave c z i = fromSlave c y i := h.fromSlave_eq hno
  obtain ⟨M, r, hsc⟩ := h.sc
  have hdmS : dmS z.core (fromSlave c y i) = dmS y.core (fromSlave c y i) := by
    simp only [dmS, bus1S, bus2S, h.join1, h.join2, h.wc]
  have hbpS : bpS z.core (fromSlave c y i) = bpS y.core (fromSlave c y i) := by
    simp only [bpS, bus1S, bus2S, h.join1, h.join2, h.wc]
  have hscS : scS z.core (fromSlave c y i) = scS y.core (fromSlave c y i) := by
    simp only [scS, bus2S, h.join2, h.wc]
  have hdm : (next c z i).core.dm = (next c y i).core.dm := by
    change DirectMappedCache.next _ _ _ _ (dmS z.core (fromSlave c z i)) = _
    rw [hfrom, hdmS, h.dm]
    rfl
  obtain ⟨M', hM'⟩ : ∃ M', (next c z i).core.sc =
      { (next c y i).core.sc with memoryBlock := M' } := by
    change ∃ M', StackCache.next _ _ z.core.sc _ (scS z.core (fromSlave c z i)) = _
    rw [hfrom, hscS, hsc]
    exact scNext_of_data _ _ _ _ _
  have hloading : (next c z i).loading = (next c y i).loading := by
    cases hload : y.loading with
    | false => simp [next, h.loading, hload]
    | true =>
      unfold next
      rw [h.loading, h.respOut_eq hno hload]
  refine ⟨⟨?_, ?_, ?_, ?_, ?_, ?_⟩, ?_, ?_, hloading, ?_⟩
  · intro j
    rw [hdm]
  · change NullCache.next _ z.core.bp _ (bpS z.core (fromSlave c z i)) = _
    rw [hfrom, hbpS, h.bp]
    rfl
  · change BurstJoin.selRight z.core.join1 _ _ = _
    rw [h.join1, h.request, h.bp]
    rfl
  · change BurstJoin.selRight z.core.join2 _ (bus1 c z.core i.cpu) = _
    rw [h.join2, h.bus1_eq, hsc]
    rfl
  · change WriteNoBuffer.next _ z.core.wc _ (fromSlave c z i) = _
    rw [hfrom, h.wc]
    rfl
  · exact ⟨M', (next c y i).core.sc.responseToCPUReg, hM'⟩
  · intro j m
    rw [hdm]
  · change z.slave.next _ _ _ = _
    rw [h.slave, Slave.next_of_agree (h.toSlave_agree hno i.cpu)]
    rfl
  · intro hload
    refine ⟨hdm, by rw [hM'], ?_⟩
    by_cases hcmd : i.cpu.master.cmd = .idle
    · -- the load was issued before
      have hbefore : y.loading = true := by
        by_contra hno'
        simp [next, hcmd, hno'] at hload
      obtain ⟨-, -, hsel⟩ := h.load hbefore
      simpa [next, DataCache.next, hcmd] using hsel
    · have hselSC : selSC i.cpu = false := by
        by_contra hno'
        simp [next, hcmd, hno'] at hload
      simp [next, DataCache.next, hcmd, hselSC]

end Bench

/-! ### The cycle after the store -/

section Dm

open DirectMappedCache (registered stmsk)

variable {size burstLength : Nat} {s s' : DirectMappedCache.State}
  {i j : DirectMappedCache.Inputs}

/-- The word at `addr` is in the data cache. -/
structure Hits (size burstLength : Nat) (s : DirectMappedCache.State) (addr : Nat) : Prop where
  valid : vecRead (tagCount size burstLength) s.tagVMem (lineIndex size burstLength addr) = true
  tag : MemBlock.read (tagCount size burstLength) s.tagMem (lineIndex size burstLength addr)
    (tagOf size addr) = tagOf size addr

theorem Leaks.hits (h : Leaks size burstLength s i) : Hits size burstLength s i.master.addr :=
  ⟨h.valid, h.tag⟩

variable (hs' : s' = registered size burstLength s i)
include hs'

/-- A store is written in the cycle after it was registered. -/
theorem written_next_of_store (hcmd : i.master.cmd = .wr) : written size burstLength s' j =
    MemBlock.writeBytes (size / 4) (written size burstLength s i)
      (fun l => tagValid size burstLength s' j && i.master.byteEn l)
      (wordIndex size i.master.addr) i.master.data := by
  rw [written, hs']
  simp [stmsk, hcmd]

theorem tagValid_next : tagValid size burstLength s' j =
    (vecRead (tagCount size burstLength) s.tagVMem (lineIndex size burstLength i.master.addr) &&
      MemBlock.read (tagCount size burstLength) s.tagMem
        (lineIndex size burstLength i.master.addr) j.undefTag == tagOf size i.master.addr) := by
  rw [tagValid, DirectMappedCache.tag, hs']

theorem tagValid_of_hits (hhits : Hits size burstLength s i.master.addr)
    (hundef : j.undefTag = tagOf size i.master.addr) : tagValid size burstLength s' j = true := by
  rw [tagValid_next hs', Bool.and_eq_true, beq_iff_eq, hundef]
  exact ⟨hhits.valid, hhits.tag⟩

variable {w : Word} (hcmd : i.master.cmd = .wr)
  (hw : written size burstLength s i (wordEntry size i.master.addr) = w)
include hcmd

/-- A store that does not leak leaves the data memories as they are. -/
theorem written_next_of_not_leaks (hno : ¬ Leaks size burstLength s i) :
    written size burstLength s' j = written size burstLength s i := by
  rw [written_next_of_store hs' hcmd]
  cases htag : tagValid size burstLength s' j with
  | false => exact MemBlock.writeBytes_noBytes _ _ _ _
  | true =>
    rw [tagValid_next hs', Bool.and_eq_true, beq_iff_eq] at htag
    by_cases hroom : wordEntry size i.master.addr < size / 4
    · -- the bytes that are written are there already
      have hmerge : merge (fun l => true && i.master.byteEn l) i.master.data
          (written size burstLength s i (wordEntry size i.master.addr)) =
          written size burstLength s i (wordEntry size i.master.addr) := by
        funext l
        rw [merge_apply, Bool.true_and]
        split
        · rename_i hl
          by_contra hne
          exact hno ⟨htag.1, MemBlock.read_of_read htag.2, hroom, l, hl, hne⟩
        · rfl
      rw [MemBlock.writeBytes_of_index rfl hroom]
      exact (congrArg _ hmerge).trans (Function.update_eq_self _ _)
    · exact if_neg hroom

include hw in
/-- A store that leaks is in the data memories after the next cycle. -/
theorem written_next_of_leaks (hleaks : Leaks size burstLength s i)
    (hundef : j.undefTag = tagOf size i.master.addr) :
    written size burstLength s' j (wordEntry size i.master.addr) =
      merge i.master.byteEn i.master.data w := by
  rw [written_next_of_store hs' hcmd, MemBlock.writeBytes_of_index rfl hleaks.room]
  change Function.update _ (wordEntry size i.master.addr) _ _ = _
  rw [Function.update_self, tagValid_of_hits hs' hleaks.hits hundef]
  change merge _ _ (written size burstLength s i (wordEntry size i.master.addr)) = _
  rw [hw]
  simp only [Bool.true_and]

end Dm

namespace Bench

variable {c : Config} {y z : Bench} {st : StackStore} {e : SysInputs}

section Store

variable (hready : Ready c y (st.issued e))
include hready

/-- What the pipeline does not command has no influence on whether the units are ready. -/
theorem Ready.drive (cmd : OcpCmd) : Ready c y (st.drive e cmd) :=
  { hready with dm := { hready.dm with } }

/-- No load is outstanding after the cycle, with the store or without. -/
theorem Ready.loading_drive {cmd : OcpCmd} (hcmd : cmd ≠ .rd) :
    (Bench.next c y (st.drive e cmd)).loading = false := by
  cases cmd with
  | wr => rfl
  | rd => exact absurd rfl hcmd
  | idle =>
    change (y.loading && respOut c y (st.issued e) == .null) = false
    cases hload : y.loading with
    | false => rfl
    | true => simp [hready.answered hload]

theorem Ready.dm_drive (cmd : OcpCmd) (hz : z = next c y (st.drive e cmd)) : z.core.dm =
    DirectMappedCache.registered c.dcacheSize c.burstLength y.core.dm
      (dmInputs (st.drive e cmd).cpu) := by
  rw [hz]
  exact DirectMappedCache.next_of_free (hready.drive cmd).dm

theorem Ready.written_skipped (hz : z = next c y (st.skipped e)) (j : DirectMappedCache.Inputs) :
    written c.dcacheSize c.burstLength z.core.dm j =
      written c.dcacheSize c.burstLength y.core.dm (dmInputs (st.issued e).cpu) := by
  have heq := hready.dm_drive .idle hz
  rw [DirectMappedCache.written_of_noWrite (by rw [heq])
    (by rw [heq]; exact OcpCmd.noConfusion), heq]
  rfl

variable {cmd : OcpCmd} (hcmd : cmd ≠ .rd) (hz : z = next c y (st.drive e cmd))
include hcmd hz

/-- After the store, or without it, the data cache is free. -/
theorem Ready.free (j : DirectMappedCache.Inputs) :
    DirectMappedCache.FreeCycle c.dcacheSize c.burstLength z.core.dm j := by
  rw [hready.dm_drive cmd hz]
  refine ⟨Or.inl rfl, DirectMappedCache.miss_of_cmd ?_⟩
  cases cmd <;> simp_all [dmInputs, dmMaster, gate, StackStore.drive]

omit hcmd hz

variable {y₁ y₂ : Bench} (h₁ : y₁ = next c y (st.issued e)) (h₂ : y₂ = next c y (st.skipped e))
  (hno : ¬ Leaks c.dcacheSize c.burstLength y.core.dm (dmInputs (st.issued e).cpu))
include h₁ h₂ hno

theorem Ready.dm_next_eq (j : DirectMappedCache.Inputs) (m : BurstSlave) :
    DirectMappedCache.next c.dcacheSize c.burstLength y₂.core.dm j m =
      DirectMappedCache.next c.dcacheSize c.burstLength y₁.core.dm j m := by
  have hwritten : written c.dcacheSize c.burstLength y₁.core.dm j =
      written c.dcacheSize c.burstLength y.core.dm (dmInputs (st.issued e).cpu) :=
    written_next_of_not_leaks (hready.dm_drive .wr h₁) rfl hno
  rw [DirectMappedCache.next_of_free (hready.free (by simp) h₁ j),
    DirectMappedCache.next_of_free (hready.free (by simp) h₂ j), DirectMappedCache.registered,
    DirectMappedCache.registered, hwritten, hready.written_skipped h₂, hready.dm_drive .wr h₁,
    hready.dm_drive .idle h₂]
  rfl

theorem Ready.rel_of_not_leaks : Rel c y₁ y₂ := by
  have hissued : y₁.loading = false := h₁ ▸ hready.loading_drive (by simp)
  have hskipped : y₂.loading = false := h₂ ▸ hready.loading_drive (by simp)
  have hrequest : ∀ j, DirectMappedCache.toSlave c.dcacheSize c.burstLength y₂.core.dm j =
      DirectMappedCache.toSlave c.dcacheSize c.burstLength y₁.core.dm j := by
    intro j
    simp only [DirectMappedCache.toSlave, (hready.free (by simp) h₁ j).noMiss,
      (hready.free (by simp) h₂ j).noMiss]
    rw [hready.dm_drive .wr h₁, hready.dm_drive .idle h₂]
    rfl
  have hdm := hready.dm_next_eq h₁ h₂ hno
  subst h₁ h₂
  refine ⟨⟨hrequest, rfl, rfl, rfl, rfl, ?_⟩, hdm, rfl, hskipped.trans hissued.symm, ?_⟩
  · -- the stack cache sees the store in its memory and in its response
    obtain ⟨⟨_, _, _, enaIn, _, _, _, _, _⟩, _⟩ := e
    cases enaIn <;> exact ⟨_, _, rfl⟩
  · intro hload
    rw [hissued] at hload
    exact absurd hload (by simp)

end Store

/-! ### A store that leaks is seen by the next load -/

section Ready

variable {i : SysInputs}

theorem sc_idle (hst : y.core.sc.stateReg = .idleState) (hop : i.cpu.op = .none) :
    (next c y i).core.sc.stateReg = .idleState :=
  StackCache.stateReg_of_none hst hop

variable (h : Ready c y i) (hz : z = next c y i)
include h hz

theorem Ready.bp_next :
    z.core.bp = { y.core.bp with stateReg := .idle, masterReg := bpMaster i.cpu } := by
  rw [hz]
  exact NullCache.next_of_free h.bp h.bpCmd

theorem Ready.wc_next (hcmd : (wcMaster i.cpu).cmd ≠ .wr) : z.core.wc.state = .idle := by
  have heq : z.core.wc = _ :=
    (congrArg (fun z => z.core.wc) hz).trans (WriteNoBuffer.next_of_free h.wc)
  rw [heq]
  exact if_neg hcmd

end Ready

/-- After the store, or without it, a command can be issued at once. -/
theorem Ready.again (h : Ready c y (st.issued e)) (hop : e.cpu.op = .none) {cmd : OcpCmd}
    (hcmd : cmd ≠ .rd) (hz : z = next c y (st.drive e cmd)) (i : SysInputs) : Ready c z i := by
  have hready := h.drive cmd
  refine ⟨h.free hcmd hz _, ?_, ?_, ?_, Or.inl (hready.wc_next hz ?_), ?_⟩
  · rw [hz]
    exact sc_idle h.sc hop
  · rw [hready.bp_next hz]
    simp
  · rw [hready.bp_next hz]
    exact (by decide : OcpCmd.idle ≠ .rd)
  · exact (by decide : OcpCmd.idle ≠ .wr)
  · intro hload
    rw [hz, h.loading_drive hcmd] at hload
    exact absurd hload (by simp)

end Bench

namespace StackStore

/-- The cycle `e` without an invalidation and without a stack operation. -/
def calm (e : SysInputs) : SysInputs :=
  { e with cpu := { e.cpu with invalDCache := false, op := .none } }

/-- A cycle that may load the word at the address of the store through the data cache. -/
def reload (c : Config) (st : StackStore) (e : SysInputs) (cmd : OcpCmd) : SysInputs :=
  { calm e with cpu :=
    { (calm e).cpu with
      master := ⟨cmd, st.addr, st.data, st.byteEn⟩
      addrSpace := .dataCache
      undefTag := tagOf c.dcacheSize st.addr } }

end StackStore

namespace Bench

open StackStore (calm reload)

variable {c : Config} {y z : Bench} {st : StackStore} {e : SysInputs}

/-- A load that hits returns the word in the data memories. -/
theorem loads_of_hit {z' : Bench} {i j : SysInputs} {w : Word} (hi : i = reload c st e .rd)
    (hj : j = reload c st e .idle) (h : Ready c z i) (hz : z' = next c z i)
    (hhits : Hits c.dcacheSize c.burstLength z.core.dm st.addr)
    (hroom : wordEntry c.dcacheSize st.addr < c.dcacheSize / 4)
    (hw : written c.dcacheSize c.burstLength z.core.dm (dmInputs i.cpu)
      (wordEntry c.dcacheSize st.addr) = w) : loads c z' j = [w] := by
  have hdm : z'.core.dm = _ :=
    (congrArg (fun z => z.core.dm) hz).trans (DirectMappedCache.next_of_free h.dm)
  have hsc : z'.core.sc.responseToCPUReg = .null := by
    subst hz hi
    exact StackCache.responseToCPUReg_of_idle rfl
  have hbp : (NullCache.toMaster z'.core.bp).resp = .null := by
    rw [h.bp_next hz, hi]
    rfl
  have hwc : z'.core.wc.state = .idle :=
    h.wc_next hz (by rw [hi]; exact (by decide : OcpCmd.rd ≠ .wr))
  have hsel : z'.core.selSCReg = false ∧ z'.core.selDCReg = true ∧ z'.loading = true := by
    subst hz hi
    exact ⟨rfl, rfl, rfl⟩
  have hanswer : DirectMappedCache.toMaster c.dcacheSize c.burstLength z'.core.dm
      (dmInputs j.cpu) = ⟨.dva, w⟩ := by
    have hhit : tagValid c.dcacheSize c.burstLength z'.core.dm (dmInputs j.cpu) = true :=
      tagValid_of_hits hdm (by rw [hi]; exact hhits) (by rw [hi, hj]; rfl)
    have hcmd : z'.core.dm.masterReg.cmd = .rd := by
      rw [hdm, hi]
      rfl
    have hdata : DirectMappedCache.rdData c.dcacheSize z'.core.dm (dmInputs j.cpu) = w := by
      rw [DirectMappedCache.rdData, hdm, ← hw, hi]
      exact MemBlock.read_of_index rfl hroom _
    have hst : z'.core.dm.stateReg = .idle := by rw [hdm]
    simp [DirectMappedCache.toMaster, hst, DirectMappedCache.hit, hhit, hcmd, hdata]
  have hresp : respOut c z' j = .dva := by
    simp [respOut, resp, hanswer, hsc, hbp, WriteNoBuffer.toWriteMaster, hwc]
  have hdata : data c z'.core j.cpu = w := by simp [data, hsel.1, hsel.2.1, hanswer]
  simp [loads, hsel.2.2, hresp, hdata]

theorem Ready.calm (h : Ready c y (st.issued e)) : Ready c y (st.issued (calm e)) :=
  { h with dm := { h.dm with } }

/-- The load right after the cycle that may hold the store. -/
theorem emitted_reload (h : Ready c y (st.issued e))
    (hleaks : Leaks c.dcacheSize c.burstLength y.core.dm (dmInputs (st.issued e).cpu))
    {cmd : OcpCmd} (hcmd : cmd ≠ .rd) (hz : z = next c y (st.drive (StackStore.calm e) cmd)) :
    emitted (next c) (loads c) z [reload c st e .rd, reload c st e .idle] =
      [written c.dcacheSize c.burstLength z.core.dm (dmInputs (reload c st e .rd).cpu)
        (wordEntry c.dcacheSize st.addr)] := by
  have heq := h.calm.dm_drive cmd hz
  have hnone : loads c z (reload c st e .rd) = [] := by
    simp [loads, hz, h.calm.loading_drive hcmd]
  have hhit := loads_of_hit rfl rfl (h.calm.again rfl hcmd hz (reload c st e .rd)) rfl
    ⟨by rw [heq]; exact hleaks.valid, by rw [heq]; exact hleaks.tag⟩ hleaks.room rfl
  simp [hnone, hhit]

theorem legal_reload (h : Ready c y (st.issued e)) :
    Along (next c) (Legal c) (next c y (st.issued (StackStore.calm e)))
      [reload c st e .rd, reload c st e .idle] := by
  have hready : Ready c (next c y (st.issued (StackStore.calm e))) (reload c st e .rd) :=
    h.calm.again rfl (by simp : OcpCmd.wr ≠ .rd) rfl _
  have hsc := sc_idle (c := c) (i := reload c st e .rd) hready.sc rfl
  refine ⟨⟨fun _ => hready, ?_⟩, ⟨fun hcmd => absurd rfl hcmd, ?_⟩, trivial⟩
  · simp [NoSpill, hready.sc]
  · simp [NoSpill, hsc]

end Bench

/-- **Isolation of the data cache from stack stores.**  Later loads return the same values
    with and without the store if and only if the store changes no word in the data cache. -/
theorem sameLoads_iff_not_leaks (c : Config) (y : Bench) (st : StackStore) :
    SameLoads c y st ↔ ∀ e, y.Ready c (st.issued e) →
      ¬ Leaks c.dcacheSize c.burstLength y.core.dm (dmInputs (st.issued e).cpu) := by
  constructor
  · intro hsame e hready hleaks
    have heq := hsame (StackStore.calm e) hready.calm _ (Bench.legal_reload hready)
    have hissued := Bench.emitted_reload hready hleaks (by simp : OcpCmd.wr ≠ .rd) rfl
    have hskipped := Bench.emitted_reload hready hleaks (by simp : OcpCmd.idle ≠ .rd) rfl
    have hword := List.cons.inj (hissued.symm.trans (heq.trans hskipped))
    have hwith := written_next_of_leaks (j := dmInputs (StackStore.reload c st e .rd).cpu)
      (hready.calm.dm_drive .wr rfl) rfl rfl { hleaks with } rfl
    have hwithout := hready.calm.written_skipped rfl (dmInputs (StackStore.reload c st e .rd).cpu)
    obtain ⟨l, hl, hne⟩ := hleaks.differs
    apply hne
    have hlane := congrFun (hwith.symm.trans (hword.1.trans (congrFun hwithout _))) l
    rw [merge_apply] at hlane
    exact (if_pos hl).symm.trans hlane
  · intro hno e hready is hleg
    refine emitted_of_rel (R := Bench.Rel c) ?_
      (hready.rel_of_not_leaks rfl rfl (hno e hready)) hleg
    intro y z i hrel hlegal
    exact ⟨hrel.step hlegal.noSpill, hrel.loads_eq hlegal.noSpill⟩

/-! ### A warm and a cold cache -/

namespace Bench

instance (c : Config) (y : Bench) (i : SysInputs) : Decidable (Ready c y i) :=
  decidable_of_iff ((_ ∧ _) ∧ _ ∧ _ ∧ _ ∧ _ ∧ _)
    ⟨fun ⟨⟨a, b⟩, d, e, f, g, h⟩ => ⟨⟨a, b⟩, d, e, f, g, h⟩,
      fun ⟨⟨a, b⟩, d, e, f, g, h⟩ => ⟨⟨a, b⟩, d, e, f, g, h⟩⟩

instance (s : StackCache.State) : Decidable (NoSpill s) := inferInstanceAs (Decidable (_ ∧ _ ∧ _))

instance (c : Config) (y : Bench) (i : SysInputs) : Decidable (Legal c y i) :=
  decidable_of_iff (_ ∧ _) ⟨fun ⟨a, b⟩ => ⟨a, b⟩, fun ⟨a, b⟩ => ⟨a, b⟩⟩

/-- After reset, over a memory in which word `a` holds the bytes `a`. -/
def cold : Bench := ⟨Sys.powerUp, ⟨.idle, numbered⟩, false⟩

/-- The line with word 1 has been loaded. -/
def warm : Bench :=
  run (next ⟨16, 4, 2⟩) cold ([Sys.loadCycle 4] ++ List.replicate 4 Sys.idleCycle)

end Bench

theorem cold_sameLoads :
    Bench.Ready ⟨16, 4, 2⟩ Bench.cold (StackStore.issued ⟨4, fun _ => 7, allBytes⟩ Sys.idleCycle) ∧
      SameLoads ⟨16, 4, 2⟩ Bench.cold ⟨4, fun _ => 7, allBytes⟩ := by
  refine ⟨by decide +kernel, (sameLoads_iff_not_leaks _ _ _).mpr ?_⟩
  intro e _ hleaks
  exact absurd hleaks.valid (by simp [vecRead, Bench.cold, Sys.powerUp])

/-- With word 1 in the data cache, a store to offset 4 of the stack frame changes it: the
    next load of address 4 returns 7 although the memory still holds 1. -/
theorem warm_store_leaks :
    Along (Bench.next ⟨16, 4, 2⟩) (Bench.Legal ⟨16, 4, 2⟩) Bench.cold
        ([Sys.loadCycle 4] ++ List.replicate 4 Sys.idleCycle) ∧
      ¬ SameLoads ⟨16, 4, 2⟩ Bench.warm ⟨4, fun _ => 7, allBytes⟩ := by
  refine ⟨by decide +kernel, ?_⟩
  intro hsame
  have hload := hsame Sys.idleCycle (by decide +kernel) [Sys.loadCycle 4, Sys.idleCycle]
    (by decide +kernel)
  exact absurd hload (by decide +kernel)

end Patmos.DataCache
