import Patmos.BurstRead
import Patmos.ICache

/-!
# Lines of the instruction cache

The instruction cache with a burst memory behind it.  A ledger keeps for every word whether the
memory has delivered it since its line was last marked valid.  A line is complete when all its
words are there and were delivered; the invariant says which lines are complete in each state
of the controller, and what the memory and the register behind it hold of the line that is
being filled.
-/

namespace Patmos.ICache

open Ocp MemBlock Clocked BurstRead

structure Sys where
  cache : State
  slave : Slave
  got : Nat → Bool

structure Cycle where
  core : Inputs
  mem : Choice

/-- What the fetch stage produces: two adjacent words, with a program counter of 30 bits. -/
structure Adjacent (e o : Nat) : Prop where
  even : e % 2 = 0
  odd : o % 2 = 1
  evenLt : e < 2 ^ 30
  oddLt : o < 2 ^ 30
  next : o = e + 1 ∨ e = (o + 1) % 2 ^ 30

/-- The widths with which the circuit can be built, for at least four lines. -/
structure Sized (lineWidth countWidth : Nat) : Prop where
  line : 1 ≤ lineWidth
  count : 2 ≤ countWidth
  tag : countWidth + lineWidth ≤ 31

namespace Sys

section

variable (lineWidth countWidth : Nat)

/-- `io.ocp_port.S`. -/
def fromOcp (y : Sys) (c : Cycle) : BurstSlave :=
  y.slave.out (toOcp lineWidth countWidth y.cache) c.mem

def next (y : Sys) (c : Cycle) : Sys :=
  let w := ctrlrepl lineWidth countWidth y.cache
  { cache := ICache.next lineWidth countWidth y.cache c.core (y.fromOcp lineWidth countWidth c)
    slave := y.slave.next (2 ^ lineWidth) (toOcp lineWidth countWidth y.cache) c.mem
    got := fun a => if delivered y.slave c.mem = some a then true
      else if w.wTag && decide (a / 2 ^ lineWidth = w.wAddr / 2 ^ lineWidth) then false
      else y.got a }

/-- The number of the memory line with the tag of line `l`. -/
def lineAt (y : Sys) (l : Nat) : Nat := y.cache.repl.tagMem.get l * 2 ^ countWidth + l

/-- Word `k` of line `l` is word `a` of the memory, and it was delivered. -/
def Holds (mem : Memory) (y : Sys) (l k a : Nat) : Prop :=
  y.cache.mem.get (l * 2 ^ lineWidth + k) = mem a ∧ y.got a = true

def Complete (mem : Memory) (y : Sys) (l : Nat) : Prop :=
  ∀ k, k < 2 ^ lineWidth →
    y.Holds lineWidth mem l k (y.lineAt countWidth l * 2 ^ lineWidth + k)

/-- The memory line `line` has its tag and its first `n` words; all other valid lines are
    complete. -/
structure Filling (mem : Memory) (y : Sys) (line n : Nat) : Prop where
  start : line * 2 ^ lineWidth < 2 ^ 30
  tag : y.cache.repl.tagMem.get (line % 2 ^ countWidth) = line / 2 ^ countWidth
  others : ∀ l, l < 2 ^ countWidth → y.cache.repl.validVec l = true → l ≠ line % 2 ^ countWidth →
    y.Complete lineWidth countWidth mem l
  words : ∀ k, k < n →
    y.Holds lineWidth mem (line % 2 ^ countWidth) k (line * 2 ^ lineWidth + k)

/-- The lines in each state of the controller. -/
inductive Stage (mem : Memory) (y : Sys) : Prop where
  | ready (hstate : y.cache.ctrl.stateReg = .init ∨ y.cache.ctrl.stateReg = .idle)
      (hall : ∀ l, l < 2 ^ countWidth → y.cache.repl.validVec l = true →
        y.Complete lineWidth countWidth mem l)
  | waiting (hstate : y.cache.ctrl.stateReg = .wait)
      (hfill : y.Filling lineWidth countWidth mem y.cache.ctrl.addrReg 0)
      (hcnt : y.cache.ctrl.fetchCntReg = 0) (hburst : y.cache.ctrl.burstCntReg = 0)
  | filling (hstate : y.cache.ctrl.stateReg = .transfer)
      (hfill : y.Filling lineWidth countWidth mem y.cache.ctrl.addrReg y.cache.ctrl.fetchCntReg)
      (hburst : y.cache.ctrl.burstCntReg = y.cache.ctrl.fetchCntReg % 2 ^ lineWidth)
      (hbeats : Beats (2 ^ lineWidth) mem (fun a => y.got a = true) y.slave
        y.cache.ctrl.ocpSlaveReg (y.cache.ctrl.addrReg * 2 ^ lineWidth) y.cache.ctrl.fetchCntReg)
  | failed (hstate : y.cache.ctrl.stateReg = .error)

structure Inv (mem : Memory) (y : Sys) : Prop where
  slave : ReadOnly mem y.slave
  addr : y.cache.ctrl.stateReg = .init ∨
    Adjacent y.cache.repl.addrEvenReg y.cache.repl.addrOddReg
  stage : y.Stage lineWidth countWidth mem

/-- The registers with a reset value have it, and the memory is quiet. -/
structure IsReset (mem : Memory) (y : Sys) : Prop where
  cache : ICache.IsReset y.cache
  ocpSlaveReg : y.cache.ctrl.ocpSlaveReg.resp = .null
  phase : y.slave.phase = .idle
  memory : y.slave.mem = mem

end

/-! ### Places in the cache -/

section Arith

variable {lineWidth countWidth : Nat}

theorem indexOf_line (line : Nat) {k : Nat} (hk : k < 2 ^ lineWidth) :
    indexOf lineWidth countWidth (line * 2 ^ lineWidth + k) = line % 2 ^ countWidth := by
  rw [indexOf, ((eq_line_add hk).mp rfl).1]

theorem tagOf_line (line : Nat) {k : Nat} (hk : k < 2 ^ lineWidth) :
    tagOf lineWidth countWidth (line * 2 ^ lineWidth + k) = line / 2 ^ countWidth := by
  rw [tagOf, add_comm countWidth, pow_add, ← Nat.div_div_eq_div_mul,
    ((eq_line_add hk).mp rfl).1]

theorem place_line (line : Nat) {k : Nat} (hk : k < 2 ^ lineWidth) :
    (line * 2 ^ lineWidth + k) % 2 ^ (countWidth + lineWidth) =
      line % 2 ^ countWidth * 2 ^ lineWidth + k := by
  obtain ⟨hdiv, hmod⟩ := (eq_line_add hk).mp (rfl : line * 2 ^ lineWidth + k = _)
  rw [add_comm countWidth, pow_add, Nat.mod_mul, hdiv, hmod, add_comm, mul_comm]

theorem place_div (a : Nat) :
    a % 2 ^ (countWidth + lineWidth) / 2 ^ lineWidth = indexOf lineWidth countWidth a := by
  rw [add_comm, pow_add, Nat.mod_mul_right_div_self, indexOf]

end Arith

/-! ### What a cycle changes -/

section Cycle

variable {lineWidth countWidth : Nat} {mem : Memory} {y : Sys} {c : Cycle}

variable {y' : Sys} (hy : y' = Sys.next lineWidth countWidth y c)

section After

include hy

section Written

variable {w : CtrlRepl} (hw : ctrlrepl lineWidth countWidth y.cache = w)

include hw

theorem Holds.next {l k a : Nat} (h : y.Holds lineWidth mem l k a)
    (hword : w.wEna = true → l * 2 ^ lineWidth + k ≠ w.wAddr % 2 ^ (countWidth + lineWidth))
    (hmark : w.wTag = true → a / 2 ^ lineWidth ≠ w.wAddr / 2 ^ lineWidth) :
    y'.Holds lineWidth mem l k a := by
  subst hy hw
  constructor
  · rw [← h.1]
    change (y.cache.mem.write _ _ _).get _ = _
    cases hena : (ctrlrepl lineWidth countWidth y.cache).wEna with
    | false => rfl
    | true => exact Banks.get_write_of_ne _ _ (hword hena) _
  · change (if _ then true else _) = true
    split
    · rfl
    · rw [if_neg]
      · exact h.2
      · simp only [Bool.and_eq_true, decide_eq_true_eq, not_and]
        exact hmark

theorem tagMem_next :
    y'.cache.repl.tagMem = y.cache.repl.tagMem.write w.wTag
      (indexOf lineWidth countWidth w.wAddr) (tagOf lineWidth countWidth w.wAddr) := by
  subst hy hw
  rfl

/-- A line that is not marked and in which no word is written stays as it is. -/
theorem Complete.next {l : Nat} (hl : l < 2 ^ countWidth)
    (h : y.Complete lineWidth countWidth mem l)
    (hwrite : w.wEna = true ∨ w.wTag = true → indexOf lineWidth countWidth w.wAddr ≠ l) :
    y'.Complete lineWidth countWidth mem l := by
  have htag : y'.lineAt countWidth l = y.lineAt countWidth l := by
    rw [lineAt, lineAt, tagMem_next hy hw]
    cases hmark : w.wTag with
    | false => rw [Banks.write_false]
    | true => rw [Banks.get_write_of_ne _ _ (hwrite (.inr hmark)).symm]
  intro k hk
  rw [htag]
  refine (h k hk).next hy hw ?_ ?_
  · intro hena heq
    apply hwrite (.inl hena)
    rw [← place_div, ← heq, ((eq_line_add hk).mp rfl).1]
  · intro hmark heq
    apply hwrite (.inr hmark)
    rw [((eq_line_add hk).mp rfl).1] at heq
    rw [indexOf, ← heq, lineAt, mul_comm, Nat.mul_add_mod, Nat.mod_eq_of_lt hl]

theorem valid_next {l : Nat} (h : y'.cache.repl.validVec l = true) :
    c.core.invalidate = false ∧ (y.cache.repl.validVec l = true ∨
      w.wTag = true ∧ indexOf lineWidth countWidth w.wAddr = l) := by
  subst hy hw
  change (if c.core.invalidate then false else if _ then true else _) = true at h
  split at h
  · cases h
  · refine ⟨Bool.eq_false_iff.mpr ‹_›, ?_⟩
    split at h
    · right
      rename_i hmark
      simpa using hmark
    · exact .inl h

/-- All valid lines but one stay complete when nothing is written outside this one. -/
theorem others_next {l₀ : Nat}
    (h : ∀ l, l < 2 ^ countWidth → y.cache.repl.validVec l = true → l ≠ l₀ →
      y.Complete lineWidth countWidth mem l)
    (hwrite : w.wEna = true ∨ w.wTag = true → indexOf lineWidth countWidth w.wAddr = l₀)
    (l : Nat) (hl : l < 2 ^ countWidth)
    (hvalid : y'.cache.repl.validVec l = true) (hne : l ≠ l₀) :
    y'.Complete lineWidth countWidth mem l := by
  rcases (valid_next hy hw hvalid).2 with hold | ⟨hmark, hindex⟩
  · refine (h l hl hold hne).next hy hw hl ?_
    intro hsome heq
    exact hne (heq.symm.trans (hwrite hsome))
  · exact absurd (hindex.symm.trans (hwrite (.inr hmark))) hne

section Quiet

variable (hquiet : ¬ (w.wEna = true ∨ w.wTag = true))
include hquiet

theorem complete_of_quiet
    (h : ∀ l, l < 2 ^ countWidth → y.cache.repl.validVec l = true →
      y.Complete lineWidth countWidth mem l)
    (l : Nat) (hl : l < 2 ^ countWidth) (hvalid : y'.cache.repl.validVec l = true) :
    y'.Complete lineWidth countWidth mem l :=
  others_next hy hw (fun l hl hold _ => h l hl hold) (fun hsome => absurd hsome hquiet) l hl hvalid
    (ne_of_lt hl)

theorem Filling.of_quiet {line n : Nat} (h : y.Filling lineWidth countWidth mem line n) :
    y'.Filling lineWidth countWidth mem line n where
  start := h.start
  tag := by
    rw [← h.tag, tagMem_next hy hw, Bool.eq_false_iff.mpr (mt Or.inr hquiet), Banks.write_false]
  others := others_next hy hw h.others fun hsome => absurd hsome hquiet
  words k hk := (h.words k hk).next hy hw (fun hena => absurd (.inl hena) hquiet)
    (fun hmark => absurd (.inr hmark) hquiet)

end Quiet

end Written

theorem Filling.of_mark {line : Nat} (hstart : line * 2 ^ lineWidth < 2 ^ 30)
    (hwrite : ctrlrepl lineWidth countWidth y.cache =
      ⟨false, fun _ => 0, line * 2 ^ lineWidth, true⟩)
    (h : ∀ l, l < 2 ^ countWidth → y.cache.repl.validVec l = true →
      y.Complete lineWidth countWidth mem l) :
    y'.Filling lineWidth countWidth mem line 0 := by
  have hpos : 0 < 2 ^ lineWidth := Nat.two_pow_pos lineWidth
  have hindex : indexOf lineWidth countWidth (line * 2 ^ lineWidth) = line % 2 ^ countWidth :=
    indexOf_line line hpos
  refine ⟨hstart, ?_, others_next hy hwrite (fun l hl hv _ => h l hl hv) fun _ => hindex, ?_⟩
  · rw [tagMem_next hy hwrite, ← hindex, Banks.get_write_self]
    exact tagOf_line line hpos
  · intro k hk
    exact absurd hk (Nat.not_lt_zero k)

theorem Filling.of_word {line n : Nat} (hn : n < 2 ^ lineWidth)
    (hwrite : ctrlrepl lineWidth countWidth y.cache =
      ⟨true, mem (line * 2 ^ lineWidth + n), line * 2 ^ lineWidth + n, false⟩)
    (hgot : y.got (line * 2 ^ lineWidth + n) = true)
    (h : y.Filling lineWidth countWidth mem line n) :
    y'.Filling lineWidth countWidth mem line (n + 1) := by
  have hplace : (line * 2 ^ lineWidth + n) % 2 ^ (countWidth + lineWidth) =
      line % 2 ^ countWidth * 2 ^ lineWidth + n := place_line line hn
  refine ⟨h.start, ?_, others_next hy hwrite h.others fun _ => indexOf_line line hn, ?_⟩
  · rw [← h.tag, tagMem_next hy hwrite, Banks.write_false]
  · intro k hk
    rcases Nat.lt_succ_iff_lt_or_eq.mp hk with hlt | rfl
    · refine (h.words k hlt).next hy hwrite ?_ Bool.noConfusion
      intro _ heq
      exact absurd (add_left_cancel (heq.trans hplace)) (ne_of_lt hlt)
    · subst hy
      constructor
      · change (y.cache.mem.write _ _ _).get _ = _
        rw [hwrite, hplace]
        exact Banks.get_write_self _ _ _
      · change (if _ then true else _) = true
        rw [hwrite]
        simp [hgot]

omit hy in
theorem Filling.complete {line : Nat} (h : y.Filling lineWidth countWidth mem line (2 ^ lineWidth))
    (l : Nat) (hl : l < 2 ^ countWidth) (hvalid : y.cache.repl.validVec l = true) :
    y.Complete lineWidth countWidth mem l := by
  by_cases heq : l = line % 2 ^ countWidth
  · intro k hk
    have hline : y.lineAt countWidth l = line := by
      rw [lineAt, heq, h.tag]
      exact Nat.div_add_mod' line _
    rw [hline, heq]
    exact h.words k hk
  · exact h.others l hl hvalid heq

/-! ### The memory -/

omit hy in
theorem cmd_toOcp (lineWidth countWidth : Nat) (s : State) :
    (toOcp lineWidth countWidth s).cmd = .idle ∨ (toOcp lineWidth countWidth s).cmd = .rd := by
  change (ocp lineWidth countWidth s).1 = _ ∨ (ocp lineWidth countWidth s).1 = _
  unfold ocp
  split
  · split <;> simp
  · simp
  · split <;> simp
  · simp

/-- The command for a line is accepted, and the memory has the burst before it. -/
theorem Inv.accept (h : Inv lineWidth countWidth mem y) {line : Nat}
    (hocp : ocp lineWidth countWidth y.cache = (.rd, line * 2 ^ lineWidth))
    (hstart : line * 2 ^ lineWidth < 2 ^ 30)
    (haccept : (y.fromOcp lineWidth countWidth c).cmdAccept = true) :
    (y.fromOcp lineWidth countWidth c).resp = .null ∧
      At (2 ^ lineWidth) y'.slave (line * 2 ^ lineWidth) 0 := by
  have haddr : (toOcp lineWidth countWidth y.cache).addr = line * 2 ^ lineWidth * 4 := by
    change (ocp lineWidth countWidth y.cache).2 * 4 % 2 ^ 32 = _
    rw [hocp]
    exact Nat.mod_eq_of_lt (by omega)
  have hread :=
    BurstRead.accept h.slave (Nat.two_pow_pos lineWidth) (congrArg Prod.fst hocp) haccept
  rw [haddr, Nat.mul_div_cancel _ (by decide)] at hread
  subst hy
  exact hread

/-! ### The controller -/

/-- An error answer is not overlooked. -/
theorem state_of_err (hstate : y.cache.ctrl.stateReg ≠ .error)
    (hresp : y.cache.ctrl.ocpSlaveReg.resp = .err) :
    y'.cache.ctrl.stateReg = .error := by
  subst hy
  change (if illMem lineWidth y.cache.ctrl then Fsm.idle else _) = _
  simp [illMem, hstate, hresp]

/-- Without an error the controller does what the state machine says. -/
theorem ctrl_next (hstate : y.cache.ctrl.stateReg ≠ .error)
    (hresp : y.cache.ctrl.ocpSlaveReg.resp ≠ .err) :
    y'.cache.ctrl =
      { fsmNext lineWidth countWidth y.cache (y.fromOcp lineWidth countWidth c) with
        ocpSlaveReg := ⟨(y.fromOcp lineWidth countWidth c).resp,
          (y.fromOcp lineWidth countWidth c).data⟩ } := by
  simp [hy, Sys.next, ICache.next, errNext, illMem, hstate, hresp]

theorem Stage.go_on {n : Nat} (hinv : Inv lineWidth countWidth mem y)
    (hat : At (2 ^ lineWidth) y.slave (y.cache.ctrl.addrReg * 2 ^ lineWidth) n)
    (hcmd : (ocp lineWidth countWidth y.cache).1 = .idle)
    (hctrl : y'.cache.ctrl =
      ⟨.transfer, n, n % 2 ^ lineWidth, y.cache.ctrl.addrReg,
        ⟨(y.fromOcp lineWidth countWidth c).resp, (y.fromOcp lineWidth countWidth c).data⟩⟩)
    (hfill : y'.Filling lineWidth countWidth mem
      y.cache.ctrl.addrReg n) :
    y'.Stage lineWidth countWidth mem := by
  refine .filling ?_ ?_ ?_ ?_ <;> rw [hctrl]
  · exact hfill
  · subst hy
    exact hat.next hinv.slave.memory hcmd fun h => if_pos h

theorem Stage.ask (hinv : Inv lineWidth countWidth mem y) (line : Nat)
    (hocp : ocp lineWidth countWidth y.cache = (.rd, line * 2 ^ lineWidth))
    (hctrl : y'.cache.ctrl =
      ⟨if (y.fromOcp lineWidth countWidth c).cmdAccept then .transfer else .wait, 0, 0, line,
        ⟨(y.fromOcp lineWidth countWidth c).resp, (y.fromOcp lineWidth countWidth c).data⟩⟩)
    (hfill : y'.Filling lineWidth countWidth mem line 0) :
    y'.Stage lineWidth countWidth mem := by
  cases haccept : (y.fromOcp lineWidth countWidth c).cmdAccept with
  | false =>
    rw [haccept] at hctrl
    refine .waiting ?_ ?_ ?_ ?_ <;> rw [hctrl]
    · rfl
    · exact hfill
  | true =>
    obtain ⟨hnull, hphase⟩ := hinv.accept hy hocp hfill.start haccept
    rw [haccept] at hctrl
    refine .filling ?_ ?_ ?_ (.silent ?_ ?_) <;> rw [hctrl]
    · rfl
    · exact hfill
    · exact (Nat.zero_mod _).symm
    · exact hnull
    · exact hphase

omit hy in
/-- A miss marks the line of one of the two words. -/
theorem fetchLine_lt (hadj : Adjacent y.cache.repl.addrEvenReg y.cache.repl.addrOddReg) :
    fetchLine lineWidth countWidth y.cache * 2 ^ lineWidth < 2 ^ 30 := by
  refine lt_of_le_of_lt (Nat.div_mul_le_self _ _) ?_
  unfold Repl.fetchAddr
  split
  · exact hadj.evenLt
  · exact hadj.oddLt

/-- The two stages in which no line is being filled. -/
theorem Stage.of_ready (hinv : Inv lineWidth countWidth mem y)
    (hstate : y.cache.ctrl.stateReg = .init ∨ y.cache.ctrl.stateReg = .idle)
    (hresp : y.cache.ctrl.ocpSlaveReg.resp ≠ .err)
    (hall : ∀ l, l < 2 ^ countWidth → y.cache.repl.validVec l = true →
      y.Complete lineWidth countWidth mem l) :
    y'.Stage lineWidth countWidth mem := by
  have hctrl := ctrl_next hy
    (by rcases hstate with h | h <;> rw [h] <;> exact Fsm.noConfusion) hresp
  cases hmiss : miss lineWidth countWidth y.cache with
  | false =>
    have hquiet : ctrlrepl lineWidth countWidth y.cache = noWrite := by
      rcases hstate with h | h <;> simp [ctrlrepl, h, hmiss]
    refine .ready ?_ (complete_of_quiet hy hquiet (by simp [noWrite]) hall)
    have hnext : (fsmNext lineWidth countWidth y.cache
        (y.fromOcp lineWidth countWidth c)).stateReg =
          if y.cache.repl.selCacheReg then .idle else .init := by
      rcases hstate with h | h <;> simp [fsmNext, h, hmiss]
    rw [hctrl, hnext]
    cases y.cache.repl.selCacheReg with
    | true => exact .inr rfl
    | false => exact .inl rfl
  | true =>
    have hidle : y.cache.ctrl.stateReg = .idle := by
      simp [miss] at hmiss
      exact hmiss.1.1
    have hadj := hinv.addr.resolve_left (by rw [hidle]; exact Fsm.noConfusion)
    refine Stage.ask hy hinv (fetchLine lineWidth countWidth y.cache) ?_ ?_ ?_
    · simp [ocp, hidle, hmiss]
    · rw [hctrl]
      simp [fsmNext, hidle, hmiss]
    · refine Filling.of_mark hy (fetchLine_lt hadj) ?_ hall
      simp [ctrlrepl, hidle, hmiss]

omit hy in
/-- The controller never asks for a second burst. -/
theorem nextBurst_eq_false {n : Nat} (hn : n < 2 ^ lineWidth) (k : Ctrl) (hcnt : k.fetchCntReg = n)
    (hburst : k.burstCntReg = n % 2 ^ lineWidth) : nextBurst lineWidth k = false := by
  rw [Nat.mod_eq_of_lt hn] at hburst
  simp only [nextBurst, hcnt, hburst, Bool.and_eq_false_iff, decide_eq_false_iff_not]
  omega

theorem Stage.of_silent (hinv : Inv lineWidth countWidth mem y)
    (hstate : y.cache.ctrl.stateReg = .transfer) (hresp : y.cache.ctrl.ocpSlaveReg.resp = .null)
    (hfill : y.Filling lineWidth countWidth mem y.cache.ctrl.addrReg y.cache.ctrl.fetchCntReg)
    (hburst : y.cache.ctrl.burstCntReg = y.cache.ctrl.fetchCntReg % 2 ^ lineWidth)
    (hat : At (2 ^ lineWidth) y.slave (y.cache.ctrl.addrReg * 2 ^ lineWidth)
      y.cache.ctrl.fetchCntReg) :
    y'.Stage lineWidth countWidth mem := by
  have hctrl := ctrl_next hy (by rw [hstate]; exact Fsm.noConfusion)
    (by rw [hresp]; exact OcpResp.noConfusion)
  have hquiet : ¬ ((ctrlrepl lineWidth countWidth y.cache).wEna = true ∨
      (ctrlrepl lineWidth countWidth y.cache).wTag = true) := by
    simp only [ctrlrepl, hstate, hresp]
    split <;> simp [noWrite]
  rcases lt_or_eq_of_le hat.le with hmore | hend
  · refine Stage.go_on hy hinv hat ?_ ?_ (hfill.of_quiet hy rfl hquiet)
    · simp [ocp, hstate, nextBurst, hresp]
    · rw [hctrl]
      simp [fsmNext, hstate, hmore, hresp, hburst]
  · rw [hend] at hfill
    refine .ready (.inr ?_) (complete_of_quiet hy rfl hquiet hfill.complete)
    rw [hctrl]
    simp [fsmNext, hstate, hend]

theorem Stage.of_word (hsize : Sized lineWidth countWidth) (hinv : Inv lineWidth countWidth mem y)
    (hstate : y.cache.ctrl.stateReg = .transfer) (hresp : y.cache.ctrl.ocpSlaveReg.resp = .dva)
    (hfill : y.Filling lineWidth countWidth mem y.cache.ctrl.addrReg y.cache.ctrl.fetchCntReg)
    (hburst : y.cache.ctrl.burstCntReg = y.cache.ctrl.fetchCntReg % 2 ^ lineWidth)
    (hdata : y.cache.ctrl.ocpSlaveReg.data =
      mem (y.cache.ctrl.addrReg * 2 ^ lineWidth + y.cache.ctrl.fetchCntReg))
    (hgot : y.got (y.cache.ctrl.addrReg * 2 ^ lineWidth + y.cache.ctrl.fetchCntReg) = true)
    (hat : At (2 ^ lineWidth) y.slave (y.cache.ctrl.addrReg * 2 ^ lineWidth)
      (y.cache.ctrl.fetchCntReg + 1)) :
    y'.Stage lineWidth countWidth mem := by
  have hctrl := ctrl_next hy (by rw [hstate]; exact Fsm.noConfusion)
    (by rw [hresp]; exact OcpResp.noConfusion)
  have hmore : y.cache.ctrl.fetchCntReg < 2 ^ lineWidth := hat.le
  have hone := nextBurst_eq_false hmore y.cache.ctrl rfl hburst
  refine Stage.go_on hy hinv hat ?_ ?_ (hfill.of_word hy hmore ?_ hgot)
  · simp [ocp, hstate, hone]
  · -- the counter for words is wide enough for a whole line
    have hwide : y.cache.ctrl.fetchCntReg + 1 < 2 ^ (countWidth + lineWidth) := by
      have hlarger : 2 ^ lineWidth < 2 ^ (countWidth + lineWidth) :=
        Nat.pow_lt_pow_right (by decide) (by have := hsize.count; omega)
      omega
    rw [hctrl]
    simp [fsmNext, hstate, hmore, hresp, hone, Nat.mod_eq_of_lt hwide, hburst]
  · have hline : y.cache.ctrl.addrReg * 2 ^ lineWidth + y.cache.ctrl.fetchCntReg < 2 ^ 32 := by
      have hstart := hfill.start
      have hlong : 2 ^ lineWidth ≤ 2 ^ 30 :=
        Nat.pow_le_pow_right (by decide) (by have := hsize.count; have := hsize.tag; omega)
      omega
    simpa [ctrlrepl, hstate, hmore, hresp, hdata] using hline

/-- One cycle, in which an error that is signalled comes with an invalidation. -/
theorem Stage.next (hsize : Sized lineWidth countWidth) (hinv : Inv lineWidth countWidth mem y)
    (hguard : illMem lineWidth y.cache.ctrl = true → c.core.invalidate = true) :
    y'.Stage lineWidth countWidth mem := by
  by_cases herror : y.cache.ctrl.stateReg = .error
  · cases hill : illMem lineWidth y.cache.ctrl with
    | true =>
      refine .ready (.inr ?_) ?_
      · subst hy
        exact if_pos hill
      · intro l _ hvalid
        exact absurd (hguard hill) (Bool.eq_false_iff.mp (valid_next hy rfl hvalid).1)
    | false =>
      refine .failed ?_
      subst hy
      change (if illMem lineWidth y.cache.ctrl then Fsm.idle else _) = _
      simp [hill, fsmNext, herror]
  · by_cases herr : y.cache.ctrl.ocpSlaveReg.resp = .err
    · exact .failed (state_of_err hy herror herr)
    · cases hinv.stage with
      | ready hstate hall => exact Stage.of_ready hy hinv hstate herr hall
      | waiting hstate hfill hcnt hburst =>
        have hctrl := ctrl_next hy herror herr
        have hquiet : ctrlrepl lineWidth countWidth y.cache = noWrite := by
          simp [ctrlrepl, hstate]
        refine Stage.ask hy hinv y.cache.ctrl.addrReg ?_ ?_
          (hfill.of_quiet hy hquiet (by simp [noWrite]))
        · simp [ocp, hstate]
        · rw [hctrl]
          simp [fsmNext, hstate, hcnt, hburst]
      | filling hstate hfill hburst hbeats =>
        cases hbeats with
        | silent hresp hat => exact Stage.of_silent hy hinv hstate hresp hfill hburst hat
        | word hresp hdata hgot hat =>
          exact Stage.of_word hy hsize hinv hstate hresp hfill hburst hdata hgot hat
        | fault hresp _ => exact absurd hresp herr
      | failed hstate => exact absurd hstate herror

end After

theorem Inv.next (hsize : Sized lineWidth countWidth) (hinv : Inv lineWidth countWidth mem y)
    (hadj : Adjacent c.core.addrEven c.core.addrOdd)
    (hguard : illMem lineWidth y.cache.ctrl = true → c.core.invalidate = true) :
    Inv lineWidth countWidth mem (Sys.next lineWidth countWidth y c) where
  slave := hinv.slave.next (cmd_toOcp lineWidth countWidth y.cache)
  addr := .inr hadj
  stage := Stage.next rfl hsize hinv hguard

theorem IsReset.inv (h : IsReset mem y) : Inv lineWidth countWidth mem y where
  slave := ⟨h.memory, .inl h.phase⟩
  addr := .inl h.cache.stateReg
  stage := .ready (.inl h.cache.stateReg) fun l _ hvalid =>
    absurd hvalid (Bool.eq_false_iff.mp (h.cache.validVec l))

/-! ### Hits -/

/-- Adjacent words are in the same line or in lines of different parity. -/
theorem lines_of_adjacent (hsize : Sized lineWidth countWidth) {e o : Nat} (h : Adjacent e o) :
    e / 2 ^ lineWidth = o / 2 ^ lineWidth ∨
      e / 2 ^ lineWidth % 2 ≠ o / 2 ^ lineWidth % 2 := by
  have htwo : 2 ∣ 2 ^ lineWidth := dvd_pow_self 2 (Nat.ne_of_gt hsize.line)
  rcases h.next with ho | he
  · -- a line does not start at an odd address
    left
    have hnot : ¬ 2 ^ lineWidth ∣ e + 1 := by
      intro hdvd
      have heven := h.even
      have := Nat.mod_eq_zero_of_dvd (htwo.trans hdvd)
      omega
    rw [ho, Nat.succ_div, if_neg hnot, Nat.add_zero]
  · have hstep : (o + 1) / 2 ^ lineWidth = _ := Nat.succ_div
    rcases Nat.lt_or_eq_of_le (Nat.succ_le_of_lt h.oddLt) with hlt | hlast
    · rw [Nat.mod_eq_of_lt hlt] at he
      rw [he, hstep]
      split
      · right
        omega
      · exact .inl rfl
    · -- the last line of the memory is odd, the first is even
      right
      have hmod : e = 0 := by
        rw [he]
        exact Nat.mod_eq_zero_of_dvd (dvd_of_eq hlast.symm)
      have hwidth : lineWidth ≤ 29 := by
        have := hsize.count
        have := hsize.tag
        omega
      have hpow : 2 ^ lineWidth * (2 * 2 ^ (29 - lineWidth)) = o + 1 := by
        have hlast' : o + 1 = 2 ^ 30 := hlast
        rw [hlast', ← Nat.pow_succ', ← Nat.pow_add]
        congr 1
        omega
      rw [← hpow, Nat.mul_div_cancel_left _ (Nat.two_pow_pos lineWidth), hpow, if_pos] at hstep
      · rw [hmod, Nat.zero_div]
        omega
      · exact ⟨_, hpow.symm⟩

/-- The tag memories are read at the lines of the two words. -/
theorem tag_of_adjacent (hsize : Sized lineWidth countWidth) {r : Repl}
    (h : Adjacent r.addrEvenReg r.addrOddReg) :
    r.tagEven lineWidth countWidth = r.tagMem.get (indexOf lineWidth countWidth r.addrEvenReg) ∧
      r.tagOdd lineWidth countWidth = r.tagMem.get (indexOf lineWidth countWidth r.addrOddReg) := by
  have hindex : indexOf lineWidth countWidth r.addrEvenReg =
        indexOf lineWidth countWidth r.addrOddReg ∨
      indexOf lineWidth countWidth r.addrEvenReg % 2 ≠
        indexOf lineWidth countWidth r.addrOddReg % 2 := by
    have hdvd : 2 ∣ 2 ^ countWidth := dvd_pow_self 2 (by have := hsize.count; omega)
    rcases lines_of_adjacent hsize h with hsame | hparity
    · exact .inl (by rw [indexOf, indexOf, hsame])
    · right
      rw [indexOf, indexOf, Nat.mod_mod_of_dvd _ hdvd, Nat.mod_mod_of_dvd _ hdvd]
      exact hparity
  simp only [Repl.tagEven, Repl.tagOdd, Repl.toutEven, Repl.toutOdd, Banks.get]
  constructor
  · split <;> rfl
  · rcases hindex with hsame | hparity
    · rw [hsame, ite_self]
    · rcases Nat.mod_two_eq_zero_or_one (indexOf lineWidth countWidth r.addrOddReg) with ho | ho
      · have he : indexOf lineWidth countWidth r.addrEvenReg % 2 = 1 := by omega
        simp [ho, he]
      · have he : indexOf lineWidth countWidth r.addrEvenReg % 2 = 0 := by omega
        simp [ho, he]

/-- A word of a valid line with its tag is the word of the memory. -/
theorem Complete.genuine {a : Nat}
    (h : y.Complete lineWidth countWidth mem (indexOf lineWidth countWidth a))
    (htag : y.cache.repl.tagMem.get (indexOf lineWidth countWidth a) =
      tagOf lineWidth countWidth a) :
    y.cache.mem.get (a % 2 ^ (countWidth + lineWidth)) = mem a := by
  have hk : a % 2 ^ lineWidth < 2 ^ lineWidth := Nat.mod_lt _ (Nat.two_pow_pos lineWidth)
  have ha : a / 2 ^ lineWidth * 2 ^ lineWidth + a % 2 ^ lineWidth = a := Nat.div_add_mod' a _
  have hline : y.lineAt countWidth (indexOf lineWidth countWidth a) = a / 2 ^ lineWidth := by
    rw [lineAt, htag, ← ha, tagOf_line _ hk, indexOf_line _ hk, Nat.div_add_mod', ha]
  have hword := (h _ hk).1
  rw [hline, ha] at hword
  have hplace : (a / 2 ^ lineWidth * 2 ^ lineWidth + a % 2 ^ lineWidth) %
      2 ^ (countWidth + lineWidth) = indexOf lineWidth countWidth a * 2 ^ lineWidth +
        a % 2 ^ lineWidth := place_line _ hk
  rw [ha] at hplace
  rw [hplace, hword]

/-- What a hit gives to the fetch stage. -/
theorem Inv.genuine (hsize : Sized lineWidth countWidth) (hinv : Inv lineWidth countWidth mem y)
    (hidle : y.cache.ctrl.stateReg = .idle) (hhit : y.cache.repl.hit lineWidth countWidth = true) :
    instrEven lineWidth countWidth y.cache = mem y.cache.repl.addrEvenReg ∧
      instrOdd lineWidth countWidth y.cache = mem y.cache.repl.addrOddReg := by
  have hadj := hinv.addr.resolve_left (by rw [hidle]; exact Fsm.noConfusion)
  obtain ⟨heven, hodd⟩ := tag_of_adjacent hsize hadj
  have hall : ∀ a, y.cache.repl.validVec (indexOf lineWidth countWidth a) = true →
      y.Complete lineWidth countWidth mem (indexOf lineWidth countWidth a) := by
    intro a hvalid
    cases hinv.stage with
    | ready _ hall => exact hall _ (Nat.mod_lt _ (Nat.two_pow_pos countWidth)) hvalid
    | waiting hstate _ _ _ | filling hstate _ _ _ | failed hstate =>
      exact absurd (hidle.symm.trans hstate) Fsm.noConfusion
  simp only [Repl.hit, Repl.hitEven, Repl.hitOdd, Bool.and_eq_true, decide_eq_true_eq] at hhit
  obtain ⟨⟨htagE, hvalidE⟩, htagO, hvalidO⟩ := hhit
  have hwordE := (hall _ hvalidE).genuine (heven.symm.trans htagE)
  have hwordO := (hall _ hvalidO).genuine (hodd.symm.trans htagO)
  have hdvd : 2 ∣ 2 ^ (countWidth + lineWidth) :=
    dvd_pow_self 2 (by have := hsize.line; omega)
  constructor
  · rw [← hwordE, Banks.get, if_neg]
    · rfl
    · rw [Nat.mod_mod_of_dvd _ hdvd, hadj.even]
      exact zero_ne_one
  · rw [← hwordO, Banks.get, if_pos]
    · rfl
    · rw [Nat.mod_mod_of_dvd _ hdvd, hadj.odd]

end Cycle

/-! ### A memory without errors -/

/-- The error state is entered by an error answer only. -/
theorem fsmNext_ne_error {lineWidth countWidth : Nat} {s : State} {slave : BurstSlave}
    (h : s.ctrl.stateReg ≠ .error) : (fsmNext lineWidth countWidth s slave).stateReg ≠ .error := by
  have hite : ∀ {b : Bool} {f g : Fsm}, f ≠ .error → g ≠ .error →
      (if b then f else g) ≠ .error := by
    intro b f g hf hg
    cases b <;> assumption
  cases hstate : s.ctrl.stateReg with
  | init | wait =>
    simp only [fsmNext, hstate]
    exact hite Fsm.noConfusion Fsm.noConfusion
  | idle =>
    simp only [fsmNext, hstate]
    split
    · exact hite Fsm.noConfusion Fsm.noConfusion
    · exact hite Fsm.noConfusion Fsm.noConfusion
  | transfer =>
    simp only [fsmNext, hstate]
    split
    · split <;> simp [hstate]
    · exact Fsm.noConfusion
  | error => exact absurd hstate h

/-- No error answer is on its way. -/
structure Clean (y : Sys) : Prop where
  resp : y.cache.ctrl.ocpSlaveReg.resp ≠ .err
  state : y.cache.ctrl.stateReg ≠ .error

theorem Clean.next {lineWidth countWidth : Nat} {y : Sys} {c : Cycle} (h : Clean y)
    (herr : c.mem.err = false) : Clean (Sys.next lineWidth countWidth y c) where
  resp := Slave.resp_ne_err herr
  state := by
    rw [ctrl_next rfl h.state h.resp]
    exact fsmNext_ne_error h.state

/-- When the cache is selected and the fetch stage goes on, it has the words of the memory. -/
def Genuine (lineWidth countWidth : Nat) (mem : Memory) (y : Sys) : Prop :=
  y.cache.ctrl.stateReg = .idle → y.cache.repl.selCacheReg = true →
    fetchEna lineWidth countWidth y.cache = true →
    instrEven lineWidth countWidth y.cache = mem y.cache.repl.addrEvenReg ∧
      instrOdd lineWidth countWidth y.cache = mem y.cache.repl.addrOddReg

/-- In every run with a memory that answers without errors all fetches are genuine. -/
theorem genuine_of_dva {lineWidth countWidth : Nat} {mem : Memory} {y : Sys} {cs : List Cycle}
    (hsize : Sized lineWidth countWidth) (hreset : IsReset mem y)
    (hrun : Along (Sys.next lineWidth countWidth)
      (fun _ c => Adjacent c.core.addrEven c.core.addrOdd ∧ c.mem.err = false) y cs) :
    Genuine lineWidth countWidth mem (run (Sys.next lineWidth countWidth) y cs) := by
  have hstep : ∀ y c, Inv lineWidth countWidth mem y ∧ Clean y →
      Adjacent c.core.addrEven c.core.addrOdd ∧ c.mem.err = false →
        Inv lineWidth countWidth mem (Sys.next lineWidth countWidth y c) ∧
          Clean (Sys.next lineWidth countWidth y c) := by
    rintro y c ⟨hinv, hclean⟩ ⟨hadj, herr⟩
    refine ⟨hinv.next hsize hadj ?_, hclean.next herr⟩
    intro hill
    simp only [illMem, Bool.and_eq_true, beq_iff_eq] at hill
    exact absurd hill.1 hclean.state
  have hclean : Clean y := by
    constructor
    · rw [hreset.ocpSlaveReg]
      exact OcpResp.noConfusion
    · rw [hreset.cache.stateReg]
      exact Fsm.noConfusion
  obtain ⟨hinv, -⟩ := inv_run hstep ⟨hreset.inv, hclean⟩ hrun
  intro hidle hsel hena
  refine hinv.genuine hsize hidle ?_
  simpa [fetchEna, hidle, miss, hsel] using hena

/-! ### A run -/

instance (e o : Nat) : Decidable (Adjacent e o) :=
  decidable_of_iff (_ ∧ _ ∧ _ ∧ _ ∧ _)
    ⟨fun ⟨a, b, c, d, e⟩ => ⟨a, b, c, d, e⟩, fun ⟨a, b, c, d, e⟩ => ⟨a, b, c, d, e⟩⟩

/-- The low byte of its address in every word. -/
def powerUp : Sys :=
  { cache := ⟨⟨.init, 0, 0, 0, ⟨.null, fun _ => 0⟩⟩,
      ⟨⟨fun _ => 0, fun _ => 0⟩, fun _ => false, false, 0, 0⟩,
      ⟨fun _ => fun _ => 0, fun _ => fun _ => 0⟩⟩
    slave := ⟨.idle, numbered⟩
    got := fun _ => false }

theorem powerUp_isReset : IsReset numbered powerUp :=
  ⟨⟨rfl, rfl, rfl, rfl, fun _ => rfl, rfl⟩, rfl, rfl, rfl⟩

/-- The last word of a line and the first of the next are fetched. -/
def crossing (doCallRet : Bool) : Cycle :=
  ⟨⟨0x8002, 0x8001, doCallRet, 0x8000, true, false⟩, ⟨true, true, false, fun _ => 0⟩⟩

/-- A call, after which both words miss in a cache of four lines with two words each. -/
def doubleMiss : List Cycle := crossing true :: List.replicate 11 (crossing false)

theorem doubleMiss_genuine :
    instrEven 1 2 (run (Sys.next 1 2) powerUp doubleMiss).cache 0 = 2 ∧
      instrEven 1 2 (run (Sys.next 1 2) powerUp doubleMiss).cache =
        numbered (run (Sys.next 1 2) powerUp doubleMiss).cache.repl.addrEvenReg ∧
      instrOdd 1 2 (run (Sys.next 1 2) powerUp doubleMiss).cache =
        numbered (run (Sys.next 1 2) powerUp doubleMiss).cache.repl.addrOddReg :=
  ⟨by decide +kernel, genuine_of_dva ⟨by decide, by decide, by decide⟩ powerUp_isReset
    (by decide +kernel) (by decide +kernel) (by decide +kernel) (by decide +kernel)⟩

end Sys

end Patmos.ICache
