import Patmos.Clocked
import Patmos.Ocp

/-!
# The AXI4-Lite bridge

`AXI4LiteMMBridge` turns the commands of an OCP port into AXI4-Lite transfers: a read into a
transfer on the channel `ar`, a write into one on `aw` and one on `w`.  A transfer happens in a
cycle in which the bridge shows `valid` and the slave `ready`.

`holdBusyReg` is meant to stay until the slave has taken the whole command.  It is computed from
`ready` already in the cycle of the command, where `valid` is still low, and for a write it falls
with the first of the two channels.
-/

namespace Patmos.AXI4LiteBridge

open Ocp Clocked

/-! ### The circuit -/

/-- The channels on which the bridge sends. -/
inductive Channel where
  | ar
  | aw
  | w
deriving DecidableEq, Repr

/-- Whether a command uses a channel. -/
def Channel.carries : Channel → OcpCmd → Bool
  | .ar, cmd => cmd == .rd
  | .aw, cmd => cmd == .wr
  | .w, cmd => cmd == .wr

/-- What a transfer carries: an address, or data with their strobes. -/
inductive Payload where
  | addr (a : Nat)
  | data (d : Word) (strb : ByteEn)
deriving DecidableEq

def payload (addrWidth : Nat) (m : CacheMaster) : Channel → Payload
  | .ar => .addr (m.addr % 2 ^ addrWidth)
  | .aw => .addr (m.addr % 2 ^ addrWidth)
  | .w => .data m.data m.byteEn

structure State where
  mOcpReg : CacheMaster
  holdBusyReg : Bool

structure Cycle where
  M : CacheMaster
  arready : Bool
  awready : Bool
  wready : Bool
  bvalid : Bool
  rvalid : Bool

def Cycle.ready (c : Cycle) : Channel → Bool
  | .ar => c.arready
  | .aw => c.awready
  | .w => c.wready

/-- `arvalid`, `awvalid` and `wvalid`. -/
def valid (s : State) (ch : Channel) : Bool := ch.carries s.mOcpReg.cmd && s.holdBusyReg

/-- `holdBusyReg` after a cycle with command `cmd`. -/
def busy (c : Cycle) (hold : Bool) : OcpCmd → Bool
  | .rd => !c.arready
  | .wr => !c.awready && !c.wready
  | .idle => hold

def next (s : State) (c : Cycle) : State where
  mOcpReg := if s.holdBusyReg then s.mOcpReg else c.M
  holdBusyReg := busy c s.holdBusyReg (if s.holdBusyReg then s.mOcpReg.cmd else c.M.cmd)

/-- The register of the command holds what is at the port during the reset. -/
def reset (m : CacheMaster) : State := ⟨m, false⟩

/-- `io.ocp.S.Resp`. -/
def resp (c : Cycle) : OcpResp := if c.bvalid || c.rvalid then .dva else .null

/-! ### The bridge and the command that it works on -/

/-- A command that is not answered yet, and the channels on which its transfer is outstanding. -/
structure Pend where
  m : CacheMaster
  left : Channel → Bool

structure Sys where
  bridge : State
  pend : Option Pend

/-- The transfers of a cycle. -/
def transfers (addrWidth : Nat) (ch : Channel) (s : Sys) (c : Cycle) : List Payload :=
  if valid s.bridge ch && c.ready ch then [payload addrWidth s.bridge.mOcpReg ch] else []

/-- The command after the transfers of a cycle. -/
def Pend.after (p : Pend) (s : State) (c : Cycle) : Pend where
  m := p.m
  left ch := p.left ch && !(valid s ch && c.ready ch)

def Sys.next (s : Sys) (c : Cycle) : Sys where
  bridge := AXI4LiteBridge.next s.bridge c
  pend := if c.M.cmd ≠ .idle then some ⟨c.M, fun ch => ch.carries c.M.cmd⟩
    else if resp c = .dva then none
    else s.pend.map fun p => p.after s.bridge c

def Sys.reset (m : CacheMaster) : Sys := ⟨AXI4LiteBridge.reset m, none⟩

/-- The command `p` has been transferred. -/
def Pend.Complete (p : Pend) : Prop := ∀ ch, p.left ch = false

/-- The core sends a command when none is pending or in the cycle of the response, and the slave
    answers a read on `r` and a write on `b`, after all its transfers. -/
structure Legal (s : Sys) (c : Cycle) : Prop where
  command : c.M.cmd ≠ .idle → s.pend = none ∨ resp c = .dva
  read : c.rvalid = true → ∃ p, s.pend = some p ∧ p.m.cmd = .rd ∧ p.Complete
  write : c.bvalid = true → ∃ p, s.pend = some p ∧ p.m.cmd = .wr ∧ p.Complete

/-- The transfers that the commands of a cycle ask for. -/
def issued (addrWidth : Nat) (ch : Channel) (_ : Sys) (c : Cycle) : List Payload :=
  if ch.carries c.M.cmd then [payload addrWidth c.M ch] else []

/-- The transfer that is outstanding on a channel. -/
def outstanding (addrWidth : Nat) (ch : Channel) (s : Sys) : List Payload :=
  match s.pend with
  | none => []
  | some p => if p.left ch then [payload addrWidth p.m ch] else []

/-- A valid signal stays, with what it carries, until the transfer. -/
def Stays (addrWidth : Nat) (ch : Channel) (s : Sys) (c : Cycle) : Prop :=
  valid s.bridge ch = true → c.ready ch = false →
    valid (s.next c).bridge ch = true ∧
      payload addrWidth (s.next c).bridge.mOcpReg ch = payload addrWidth s.bridge.mOcpReg ch

def commands (_ : Sys) (c : Cycle) : List CacheMaster := if c.M.cmd = .idle then [] else [c.M]

def responses (_ : Sys) (c : Cycle) : List OcpResp := if resp c = .null then [] else [resp c]

/-- The bridge has made each transfer once, has a valid signal for each that is outstanding, and has
    given one response to each command. -/
structure Correct (addrWidth : Nat) (s : Sys) (cs : List Cycle) : Prop where
  once : ∀ ch, emitted Sys.next (issued addrWidth ch) s cs =
    emitted Sys.next (transfers addrWidth ch) s cs ++ outstanding addrWidth ch (run Sys.next s cs)
  raised : ∀ ch, (if valid (run Sys.next s cs).bridge ch
      then [payload addrWidth (run Sys.next s cs).bridge.mOcpReg ch] else []) =
    outstanding addrWidth ch (run Sys.next s cs)
  stays : ∀ ch, Along Sys.next (Stays addrWidth ch) s cs
  answered : (emitted Sys.next commands s cs).length =
    (emitted Sys.next responses s cs).length + (run Sys.next s cs).pend.toList.length

/-- No channel is ready in the cycle of the command that uses it, and the two channels of a write
    become ready together. -/
structure Ready (s : Sys) (c : Cycle) : Prop where
  issue : ∀ ch, ch.carries c.M.cmd = true → c.ready ch = false
  together : valid s.bridge .aw = true → c.awready = c.wready

section Proofs

variable {addrWidth : Nat} {s : Sys} {c : Cycle}

/-- The bridge is busy with the whole command, or it has nothing left to do. -/
inductive Inv : Sys → Prop
  | busy {b : State} (hold : b.holdBusyReg = true) (cmd : b.mOcpReg.cmd ≠ .idle) :
      Inv ⟨b, some ⟨b.mOcpReg, fun ch => ch.carries b.mOcpReg.cmd⟩⟩
  | free {b : State} {pend : Option Pend} (hold : b.holdBusyReg = false)
      (complete : ∀ p ∈ pend, p.Complete) : Inv ⟨b, pend⟩

variable {b : State} {cmd : OcpCmd} {ch : Channel} {pend : Option Pend}

theorem inv_reset (m : CacheMaster) : Inv (Sys.reset m) := .free rfl fun _ hp => nomatch hp

theorem valid_of_free (h : b.holdBusyReg = false) : valid b ch = false := by
  rw [valid, h, Bool.and_false]

theorem valid_of_busy (h : b.holdBusyReg = true) : valid b ch = ch.carries b.mOcpReg.cmd := by
  rw [valid, h, Bool.and_true]

theorem outstanding_of_complete (h : ∀ p ∈ pend, p.Complete) :
    outstanding addrWidth ch ⟨b, pend⟩ = [] := by
  cases pend with
  | none => rfl
  | some p => exact if_neg (by rw [h p rfl ch]; exact Bool.false_ne_true)

/-- The valid signals are those of the outstanding transfers. -/
theorem Inv.raised (h : Inv s) (ch : Channel) :
    (if valid s.bridge ch then [payload addrWidth s.bridge.mOcpReg ch] else []) =
      outstanding addrWidth ch s := by
  cases h with
  | busy hold cmd => rw [valid_of_busy hold]; rfl
  | free hold complete => rw [valid_of_free hold, outstanding_of_complete complete]; rfl

theorem carries_ne_idle (h : ch.carries cmd = true) : cmd ≠ .idle := by
  rintro rfl
  cases ch <;> exact Bool.false_ne_true h

theorem exists_carries (h : cmd ≠ .idle) : ∃ ch : Channel, ch.carries cmd = true := by
  cases cmd with
  | idle => exact absurd rfl h
  | rd => exact ⟨.ar, rfl⟩
  | wr => exact ⟨.w, rfl⟩

/-- What is answered is pending and complete. -/
theorem Legal.pending (h : Legal s c) (hdva : resp c = .dva) :
    ∃ p, s.pend = some p ∧ p.Complete := by
  by_cases hr : c.rvalid = true
  · exact (h.read hr).imp fun p hp => ⟨hp.1, hp.2.2⟩
  · by_cases hb : c.bvalid = true
    · exact (h.write hb).imp fun p hp => ⟨hp.1, hp.2.2⟩
    · simp [resp, hr, hb] at hdva

/-- A command or a response finds the bridge free. -/
theorem Inv.free_of_command (h : Inv s) (hlegal : Legal s c)
    (hcmd : c.M.cmd ≠ .idle ∨ resp c = .dva) :
    s.bridge.holdBusyReg = false := by
  cases h with
  | free hold complete => exact hold
  | busy hold cmd =>
    exfalso
    have hdva : resp c = .dva := by
      rcases hcmd with hcmd | hcmd
      · exact (hlegal.command hcmd).resolve_left (Option.some_ne_none _)
      · exact hcmd
    obtain ⟨p, hp, hcomplete⟩ := hlegal.pending hdva
    cases hp
    obtain ⟨ch, hch⟩ := exists_carries cmd
    exact Bool.false_ne_true ((hcomplete ch).symm.trans hch)

/-! ### A cycle -/

/-- A command stays while none of its channels is ready. -/
theorem busy_iff {hold : Bool} (hcmd : cmd ≠ .idle) :
    busy c hold cmd = true ↔ ∀ ch : Channel, ch.carries cmd = true → c.ready ch = false := by
  constructor
  · intro hbusy ch hch
    cases cmd <;> cases ch <;> simp_all [busy, Channel.carries, Cycle.ready]
  · intro hready
    cases cmd with
    | idle => exact absurd rfl hcmd
    | rd =>
      have har : c.arready = false := hready .ar rfl
      rw [busy, har]
      rfl
    | wr =>
      have haw : c.awready = false := hready .aw rfl
      have hw : c.wready = false := hready .w rfl
      rw [busy, haw, hw]
      rfl

theorem next_of_command (hfree : s.bridge.holdBusyReg = false) (hcmd : c.M.cmd ≠ .idle) :
    s.next c = ⟨⟨c.M, busy c false c.M.cmd⟩, some ⟨c.M, fun ch => ch.carries c.M.cmd⟩⟩ := by
  rw [Sys.next, next, hfree, if_pos hcmd]
  rfl

theorem next_of_resp (hcmd : c.M.cmd = .idle) (hresp : resp c = .dva) :
    s.next c = ⟨next s.bridge c, none⟩ := by
  rw [Sys.next, if_neg (not_not.mpr hcmd), if_pos hresp]

theorem next_of_wait (hcmd : c.M.cmd = .idle) (hresp : resp c ≠ .dva) :
    s.next c = ⟨next s.bridge c, s.pend.map fun p => p.after s.bridge c⟩ := by
  rw [Sys.next, if_neg (not_not.mpr hcmd), if_neg hresp]

theorem next_of_busy (hold : b.holdBusyReg = true) :
    next b c = ⟨b.mOcpReg, busy c true b.mOcpReg.cmd⟩ := by
  rw [next, hold]
  rfl

theorem hold_of_free (hold : b.holdBusyReg = false) (hcmd : c.M.cmd = .idle) :
    (next b c).holdBusyReg = false := by
  rw [next, hold, if_neg Bool.false_ne_true, hcmd]
  rfl

theorem complete_after (h : ∀ p ∈ pend, p.Complete) :
    ∀ p ∈ pend.map fun p => p.after b c, p.Complete := by
  intro p' hp' ch
  obtain ⟨p, hp, rfl⟩ := Option.mem_map.mp hp'
  change (p.left ch && _) = false
  rw [h p hp ch, Bool.false_and]

theorem Pend.after_of_none {m : CacheMaster}
    (hready : ∀ ch : Channel, ch.carries m.cmd = true → c.ready ch = false) :
    Pend.after ⟨m, fun ch => ch.carries m.cmd⟩ b c = ⟨m, fun ch => ch.carries m.cmd⟩ := by
  refine congrArg (Pend.mk m) (funext fun ch => ?_)
  change (ch.carries m.cmd && !(valid b ch && c.ready ch)) = ch.carries m.cmd
  cases hch : ch.carries m.cmd with
  | false => rfl
  | true => rw [hready ch hch, Bool.and_false]; rfl

/-- The channel that ends a command finds all of them ready. -/
theorem Ready.complete (h : Ready ⟨b, pend⟩ c) (hold : b.holdBusyReg = true)
    (hbusy : busy c true b.mOcpReg.cmd = false) :
    (Pend.after ⟨b.mOcpReg, fun ch => ch.carries b.mOcpReg.cmd⟩ b c).Complete := by
  intro ch
  change (ch.carries b.mOcpReg.cmd && !(valid b ch && c.ready ch)) = false
  have htogether := h.together
  simp only [valid, hold, Bool.and_true] at htogether ⊢
  cases hm : b.mOcpReg.cmd <;> rw [hm] at hbusy htogether <;> cases ch <;>
    simp_all [busy, Channel.carries, Cycle.ready]

theorem Inv.step (h : Inv s) (hlegal : Legal s c) (hready : Ready s c) : Inv (s.next c) := by
  by_cases hcmd : c.M.cmd = .idle
  · by_cases hresp : resp c = .dva
    · rw [next_of_resp hcmd hresp]
      exact .free (hold_of_free (h.free_of_command hlegal (Or.inr hresp)) hcmd) fun _ hp =>
        nomatch hp
    · rw [next_of_wait hcmd hresp]
      cases h with
      | free hold complete => exact .free (hold_of_free hold hcmd) (complete_after complete)
      | busy hold cmd =>
        rename_i b
        rw [next_of_busy hold, Option.map_some]
        cases hbusy : AXI4LiteBridge.busy c true b.mOcpReg.cmd with
        | true =>
          rw [Pend.after_of_none ((busy_iff cmd).mp hbusy)]
          exact .busy rfl cmd
        | false =>
          refine .free rfl fun p hp => ?_
          cases hp
          exact hready.complete hold hbusy
  · rw [next_of_command (h.free_of_command hlegal (Or.inl hcmd)) hcmd,
      (busy_iff hcmd).mpr hready.issue]
    exact .busy rfl hcmd

theorem issued_of_idle (hcmd : c.M.cmd = .idle) : issued addrWidth ch s c = [] :=
  if_neg fun hch => carries_ne_idle hch hcmd

theorem transfers_of_free (hfree : s.bridge.holdBusyReg = false) :
    transfers addrWidth ch s c = [] := by
  rw [transfers, valid_of_free hfree]
  rfl

theorem Inv.outstanding_of_free (h : Inv s) (hfree : s.bridge.holdBusyReg = false) :
    outstanding addrWidth ch s = [] := by
  rw [← h.raised, valid_of_free hfree]
  rfl

/-- A transfer takes the outstanding one off. -/
theorem Inv.conserved (h : Inv s) (hlegal : Legal s c) (ch : Channel) :
    outstanding addrWidth ch s ++ issued addrWidth ch s c =
      transfers addrWidth ch s c ++ outstanding addrWidth ch (s.next c) := by
  by_cases hcmd : c.M.cmd = .idle
  · rw [issued_of_idle hcmd, List.append_nil]
    by_cases hresp : resp c = .dva
    · have hfree := h.free_of_command hlegal (Or.inr hresp)
      rw [h.outstanding_of_free hfree, next_of_resp hcmd hresp, transfers_of_free hfree]
      rfl
    · rw [next_of_wait hcmd hresp]
      cases h with
      | free hold complete =>
        rw [transfers_of_free hold, outstanding_of_complete complete,
          outstanding_of_complete (complete_after complete)]
        rfl
      | busy hold cmd =>
        rename_i b
        change (if ch.carries b.mOcpReg.cmd then _ else _) =
          (if valid b ch && c.ready ch then _ else _) ++
          if ch.carries b.mOcpReg.cmd && !(valid b ch && c.ready ch) then _ else _
        rw [valid_of_busy hold]
        cases ch.carries b.mOcpReg.cmd <;> cases c.ready ch <;> rfl
  · have hfree := h.free_of_command hlegal (Or.inl hcmd)
    rw [h.outstanding_of_free hfree, next_of_command hfree hcmd, transfers_of_free hfree]
    rfl

theorem Inv.stays (h : Inv s) (hlegal : Legal s c) (h' : Inv (s.next c)) (ch : Channel) :
    Stays addrWidth ch s c := by
  intro hvalid hnot
  have hconserved : _ = transfers addrWidth ch s c ++ outstanding addrWidth ch (s.next c) :=
    h.conserved hlegal ch
  rw [← h.raised, ← h'.raised, hvalid, if_pos rfl, transfers, hvalid, hnot] at hconserved
  cases hvalid' : valid (s.next c).bridge ch with
  | false =>
    rw [hvalid'] at hconserved
    exact absurd hconserved (List.cons_ne_nil _ _)
  | true =>
    rw [hvalid'] at hconserved
    exact ⟨rfl, (List.cons.inj hconserved).1.symm⟩

/-- A response ends the command that is pending. -/
theorem Legal.answered (h : Legal s c) :
    s.pend.toList.length + (commands s c).length =
      (responses s c).length + (s.next c).pend.toList.length := by
  have hpend : resp c = .dva → s.pend.toList.length = 1 := by
    intro hdva
    obtain ⟨p, hp, -⟩ := h.pending hdva
    rw [hp]
    rfl
  have hresponses : (responses s c).length = if resp c = .dva then 1 else 0 := by
    rw [responses, resp]
    cases c.bvalid || c.rvalid <;> rfl
  rw [hresponses]
  by_cases hcmd : c.M.cmd = .idle
  · rw [commands, if_pos hcmd]
    by_cases hresp : resp c = .dva
    · rw [next_of_resp hcmd hresp, if_pos hresp, hpend hresp]
      rfl
    · rw [next_of_wait hcmd hresp, if_neg hresp]
      cases s.pend <;> rfl
  · rw [commands, if_neg hcmd, Sys.next, if_pos hcmd]
    by_cases hresp : resp c = .dva
    · rw [if_pos hresp, hpend hresp]
      rfl
    · rw [if_neg hresp, (h.command hcmd).resolve_right hresp]
      rfl

theorem Inv.ready_of_gone (h : Inv s) (hlegal : Legal s c) (hcmd : c.M.cmd = .idle)
    (hvalid : valid s.bridge ch = true) (hgone : outstanding addrWidth ch (s.next c) = []) :
    c.ready ch = true := by
  have hconserved : _ = transfers addrWidth ch s c ++ outstanding addrWidth ch (s.next c) :=
    h.conserved hlegal ch
  rw [← h.raised, hvalid, if_pos rfl, issued_of_idle hcmd, hgone, transfers, hvalid] at hconserved
  by_contra hnot
  rw [Bool.eq_false_iff.mpr hnot] at hconserved
  exact absurd hconserved (List.cons_ne_nil _ _)

/-- What is outstanding must be shown, so the condition is needed. -/
theorem Inv.ready_of_raised (h : Inv s) (hlegal : Legal s c)
    (hraised : ∀ ch, (if valid (s.next c).bridge ch
      then [payload addrWidth (s.next c).bridge.mOcpReg ch] else []) =
        outstanding addrWidth ch (s.next c)) : Ready s c := by
  constructor
  · intro ch hch
    have hcmd := carries_ne_idle hch
    have hshown := hraised ch
    rw [next_of_command (h.free_of_command hlegal (Or.inl hcmd)) hcmd] at hshown
    have hbusy : AXI4LiteBridge.busy c false c.M.cmd = true := by
      by_contra hbusy
      rw [Bool.eq_false_iff.mpr hbusy, valid_of_free rfl, outstanding] at hshown
      exact absurd (hshown.trans (if_pos hch)) (List.cons_ne_nil _ _).symm
    exact (busy_iff hcmd).mp hbusy ch hch
  · intro hvalid
    obtain ⟨hwr, hold⟩ := Bool.and_eq_true_iff.mp hvalid
    have hcmd : c.M.cmd = .idle := by
      by_contra hcmd
      exact Bool.false_ne_true ((h.free_of_command hlegal (Or.inl hcmd)).symm.trans hold)
    by_contra hne
    have hbusy : (s.next c).bridge.holdBusyReg = false := by
      change (next s.bridge c).holdBusyReg = false
      rw [next_of_busy hold, beq_iff_eq.mp hwr]
      change (!c.awready && !c.wready) = false
      cases haw : c.awready <;> cases hw : c.wready <;>
        first | rfl | exact absurd (haw.trans hw.symm) hne
    have hgone : ∀ ch, outstanding addrWidth ch (s.next c) = [] := by
      intro ch
      rw [← hraised, valid_of_free hbusy]
      rfl
    have haw : c.ready .aw = true := h.ready_of_gone hlegal hcmd hvalid (hgone .aw)
    have hw : c.ready .w = true := h.ready_of_gone hlegal hcmd hvalid (hgone .w)
    exact hne (haw.trans hw.symm)

/-! ### Runs -/

theorem inv_run {m : CacheMaster} {cs : List Cycle} (hlegal : Along Sys.next Legal (Sys.reset m) cs)
    (hready : Along Sys.next Ready (Sys.reset m) cs) : Inv (run Sys.next (Sys.reset m) cs) :=
  Clocked.inv_run (fun _ _ h hc => h.step hc.1 hc.2) (inv_reset m) (hlegal.and hready)

theorem correct_of_ready {m : CacheMaster} {cs : List Cycle}
    (hlegal : Along Sys.next Legal (Sys.reset m) cs)
    (hready : Along Sys.next Ready (Sys.reset m) cs) :
    Correct addrWidth (Sys.reset m) cs := by
  have hinv : ∀ s c, Inv s → Legal s c ∧ Ready s c → Inv (Sys.next s c) :=
    fun _ _ h hc => h.step hc.1 hc.2
  have halong := Along.with_inv hinv (inv_reset m) (hlegal.and hready)
  refine ⟨fun ch => ?_, (inv_run hlegal hready).raised, fun ch => ?_, ?_⟩
  · refine inv_history (P := fun s c => Inv s ∧ Legal s c ∧ Ready s c)
      (I := fun p s => emitted Sys.next (issued addrWidth ch) (Sys.reset m) p =
        emitted Sys.next (transfers addrWidth ch) (Sys.reset m) p ++ outstanding addrWidth ch s)
      rfl (fun p c ih hc => ?_) halong
    rw [emitted_concat, emitted_concat, ih, List.append_assoc, List.append_assoc,
      hc.1.conserved hc.2.1]
  · exact halong.mono fun s c hc => hc.1.stays hc.2.1 (hc.1.step hc.2.1 hc.2.2) ch
  · refine inv_history (P := Legal)
      (I := fun p s => (emitted Sys.next commands (Sys.reset m) p).length =
        (emitted Sys.next responses (Sys.reset m) p).length + s.pend.toList.length)
      rfl (fun p c ih hc => ?_) hlegal
    have hone := hc.answered
    rw [emitted_concat, emitted_concat, List.length_append, List.length_append, ih]
    omega

/-- **The bridge is correct in every state of a run if and only if no channel is ready in the cycle
    of its command and the two channels of a write become ready together.** -/
theorem correct_iff_ready (addrWidth : Nat) (m : CacheMaster) (cs : List Cycle)
    (hlegal : Along Sys.next Legal (Sys.reset m) cs) :
    (∀ p, p <+: cs → Correct addrWidth (Sys.reset m) p) ↔
      Along Sys.next Ready (Sys.reset m) cs := by
  constructor
  · intro hcorrect
    induction cs using List.reverseRecOn with
    | nil => trivial
    | append_singleton cs c ih =>
      obtain ⟨hlegal', hlast⟩ := (along_concat _ _ _).mp hlegal
      have hready := ih hlegal' fun p hp => hcorrect p (hp.trans (List.prefix_append cs [c]))
      have hraised := (hcorrect (cs ++ [c]) (List.prefix_refl _)).raised
      rw [run_concat] at hraised
      exact (along_concat _ _ _).mpr
        ⟨hready, (inv_run hlegal' hready).ready_of_raised hlast hraised⟩
  · exact fun hready p hp => correct_of_ready (hlegal.restrict hp) (hready.restrict hp)

end Proofs

/-! ### Slaves that are ready late and early -/

def load : CacheMaster := ⟨.rd, 64, fun _ => 0, allBytes⟩

def store : CacheMaster := ⟨.wr, 64, fun _ => 7, allBytes⟩

/-- A cycle in which the slave does not answer. -/
def cycle (m : CacheMaster) (arready awready wready : Bool) : Cycle :=
  ⟨m, arready, awready, wready, false, false⟩

theorem legal_cycle {s : Sys} {m : CacheMaster} {arready awready wready : Bool}
    (h : m.cmd = .idle ∨ s.pend = none) : Legal s (cycle m arready awready wready) :=
  ⟨fun hcmd => Or.inl (h.resolve_left hcmd), fun hr => Bool.noConfusion hr,
    fun hb => Bool.noConfusion hb⟩

/-- A read, and a write in the cycle of its response. -/
def readWrite : List Cycle :=
  [cycle load false false false, cycle nothing false false false, cycle nothing true false false,
    ⟨store, false, false, false, false, true⟩, cycle nothing false true true,
    ⟨nothing, false, false, false, true, false⟩]

theorem readWrite_legal : Along Sys.next Legal (Sys.reset nothing) readWrite := by
  refine ⟨legal_cycle (Or.inr rfl), legal_cycle (Or.inl rfl), legal_cycle (Or.inl rfl), ?_,
    legal_cycle (Or.inl rfl), ?_, trivial⟩
  · exact ⟨fun _ => Or.inr rfl, fun _ => ⟨_, rfl, rfl, fun ch => by cases ch <;> rfl⟩,
      fun hb => Bool.noConfusion hb⟩
  · exact ⟨fun hcmd => absurd rfl hcmd, fun hr => Bool.noConfusion hr,
      fun _ => ⟨_, rfl, rfl, fun ch => by cases ch <;> rfl⟩⟩

theorem readWrite_ready : Along Sys.next Ready (Sys.reset nothing) readWrite := by
  refine ⟨⟨?_, ?_⟩, ⟨?_, ?_⟩, ⟨?_, ?_⟩, ⟨?_, ?_⟩, ⟨?_, ?_⟩, ⟨?_, ?_⟩, trivial⟩
  all_goals first
    | exact fun ch hch => by cases ch <;> first | rfl | cases hch
    | exact fun hvalid => rfl

theorem readWrite_correct :
    Along Sys.next Legal (Sys.reset nothing) readWrite ∧ Correct 32 (Sys.reset nothing) readWrite :=
  ⟨readWrite_legal,
    (correct_iff_ready 32 nothing readWrite readWrite_legal).mpr readWrite_ready _
      (List.prefix_refl _)⟩

/-- A read that finds `arready` high. -/
def earlyRead : List Cycle :=
  cycle load true false false :: List.replicate 3 (cycle nothing true true true)

/-- A write whose address is taken a cycle before its data. -/
def addressFirst : List Cycle :=
  [cycle store false false false, cycle nothing false true false, cycle nothing false true true]

/-- The read has no transfer on `ar`, and the write none on `w`, though the slave is ready. -/
theorem early_ready_loses_transfers :
    Along Sys.next Legal (Sys.reset nothing) earlyRead ∧
      emitted Sys.next (transfers 32 .ar) (Sys.reset nothing) earlyRead = [] ∧
      ¬ Correct 32 (Sys.reset nothing) earlyRead ∧
      Along Sys.next Legal (Sys.reset nothing) addressFirst ∧
      emitted Sys.next (transfers 32 .aw) (Sys.reset nothing) addressFirst = [.addr 64] ∧
      emitted Sys.next (transfers 32 .w) (Sys.reset nothing) addressFirst = [] ∧
      ¬ Correct 32 (Sys.reset nothing) addressFirst := by
  refine ⟨⟨legal_cycle (Or.inr rfl), legal_cycle (Or.inl rfl), legal_cycle (Or.inl rfl),
    legal_cycle (Or.inl rfl), trivial⟩, rfl, fun h => ?_, ⟨legal_cycle (Or.inr rfl),
    legal_cycle (Or.inl rfl), legal_cycle (Or.inl rfl), trivial⟩, rfl, rfl, fun h => ?_⟩
  · exact absurd (h.raised .ar) (List.cons_ne_nil _ _).symm
  · exact absurd (h.raised .w) (List.cons_ne_nil _ _).symm

end Patmos.AXI4LiteBridge
