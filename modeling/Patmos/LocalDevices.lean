import Patmos.Clocked
import Patmos.Ocp
import Patmos.Select

/-!
# Decoding of the local devices

The core reaches its scratchpads and I/O devices over one OCP port.  Every device compares
the upper bits of the address with its own, and passes the command on only when they agree.
The responses of all devices are merged by a bitwise OR, the data is taken from the device
that was selected by the last command.  A command that no device decodes sets the register
`errRespReg`, which takes part in the OR.

The devices themselves are any circuits that answer a command with one DVA, in any later
cycle.  The results are about what the core sees between one of its commands and the next.
-/

namespace Patmos.LocalDevices

open Ocp Clocked

/-- What the decoder knows of a device; `spm` is the test of its name. -/
structure Device where
  addr : Nat
  addrwidth : Nat
  spm : Bool

/-- Bit `ISPM_ONE_BIT` of the address tells the instruction scratchpad from the data one. -/
def sel (d : Device) (a : Nat) : Bool :=
  decide (a / 2 ^ (32 - d.addrwidth) % 2 ^ d.addrwidth = d.addr) &&
    (if d.spm then !a.testBit 16 else true)

variable {n : Nat}

structure State (n : Nat) where
  selReg : Fin n → Bool
  errRespReg : OcpResp

section Circuit

variable (devs : Fin n → Device)

def validdev (a : Nat) : Bool := (List.finRange n).any fun k => sel (devs k) a

/-- `ocp.M` of device `k`. -/
def toDevice (m : CacheMaster) (k : Fin n) : CacheMaster :=
  { m with cmd := if sel (devs k) m.addr then m.cmd else .idle }

/-- `memInOut.S`. -/
def toCore (s : State n) (dev : Fin n → CoreSlave) : CoreSlave :=
  { resp := s.errRespReg.or ((List.finRange n).foldl (fun r k => r.or (dev k).resp) .null)
    data := Select.pick s.selReg (fun k => (dev k).data) fun _ => 0 }

def next (s : State n) (m : CacheMaster) : State n :=
  { selReg := fun k => if m.cmd ≠ .idle then sel (devs k) m.addr else s.selReg k
    errRespReg := if m.cmd ≠ .idle ∧ validdev devs m.addr = false then .err else s.errRespReg }

end Circuit

def reset : State n := ⟨fun _ => false, .null⟩

/-! ### The merged response -/

theorem resp_toCore {s : State n} {dev : Fin n → CoreSlave} {k : Fin n}
    (herr : s.errRespReg = .null) (hk : ∀ j, j ≠ k → (dev j).resp = .null) :
    (toCore s dev).resp = (dev k).resp := by
  unfold toCore
  rw [Select.foldl_of_one OcpResp.null_or OcpResp.or_null hk, herr, OcpResp.null_or]

theorem data_toCore {s : State n} {dev : Fin n → CoreSlave} {k : Fin n}
    (hk : ∀ j, s.selReg j = true ↔ j = k) : (toCore s dev).data = (dev k).data :=
  Select.pick_of_one ((hk k).mpr rfl) fun j hj => (hk j).mp hj

/-! ### The decoder between the core and its devices -/

/-- `pending k`: device `k` has yet to answer.  `waiting`: the core has yet to see an answer. -/
structure Sys (n : Nat) where
  dec : State n
  pending : Fin n → Bool
  waiting : Bool

/-- A cycle: the signals of the core, which devices answer if they have to, and the data on
    their ports. -/
structure Inputs (n : Nat) where
  core : CacheMaster
  answers : Fin n → Bool
  data : Fin n → Word

namespace Sys

/-- The port of device `k`. -/
def device (y : Sys n) (i : Inputs n) (k : Fin n) : CoreSlave :=
  ⟨if y.pending k && i.answers k then .dva else .null, i.data k⟩

def seen (y : Sys n) (i : Inputs n) : CoreSlave := toCore y.dec (y.device i)

def next (devs : Fin n → Device) (y : Sys n) (i : Inputs n) : Sys n :=
  { dec := LocalDevices.next devs y.dec i.core
    pending := fun k => if (toDevice devs i.core k).cmd ≠ .idle then true
      else y.pending k && !i.answers k
    waiting := if i.core.cmd ≠ .idle then true
      else y.waiting && decide ((y.seen i).resp = .null) }

def start : Sys n := ⟨reset, fun _ => false, false⟩

/-- The core issues a command when it has seen the answer to the one before, at the earliest
    in the same cycle. -/
def Legal (y : Sys n) (i : Inputs n) : Prop :=
  i.core.cmd ≠ .idle → y.waiting = true → (y.seen i).resp ≠ .null

/-- The command of the cycle, if there is one, is for a device. -/
def Decoded (devs : Fin n → Device) (_ : Sys n) (i : Inputs n) : Prop :=
  i.core.cmd ≠ .idle → ∃ k, sel (devs k) i.core.addr = true

end Sys

def DisjointRanges (devs : Fin n → Device) : Prop :=
  ∀ a j k, sel (devs j) a = true → sel (devs k) a = true → j = k

/-! ### Runs -/

section Runs

variable (devs : Fin n → Device) (tr : ℕ → Inputs n)

/-- The system before cycle `t`. -/
abbrev sysAt (t : ℕ) : Sys n := stateAt (Sys.next devs) Sys.start tr t

/-- What the core sees in cycle `t`. -/
abbrev seenAt (t : ℕ) : CoreSlave := (sysAt devs tr t).seen (tr t)

/-- What device `k` answers in cycle `t`. -/
abbrev deviceAt (t : ℕ) (k : Fin n) : CoreSlave := (sysAt devs tr t).device (tr t) k

def Access (t : ℕ) : Prop := (tr t).core.cmd ≠ .idle

/-- Cycle `v` comes after the access of cycle `t` and not after the next access. -/
def Window (t v : ℕ) : Prop := t < v ∧ ∀ u, t < u → u < v → ¬ Access tr u

/-- Up to the next access the core sees the answer of the device it has addressed, and no
    second one; where it has addressed no device it sees one ERR and nothing else. -/
structure Confined : Prop where
  device : ∀ t k, Access tr t → sel (devs k) (tr t).core.addr = true → ∀ v, Window tr t v →
    (seenAt devs tr v).resp = (deviceAt devs tr v k).resp ∧
      (seenAt devs tr v).data = (deviceAt devs tr v k).data
  once : ∀ t k, Access tr t → sel (devs k) (tr t).core.addr = true →
    ∀ u v, Window tr t u → Window tr t v →
      (seenAt devs tr u).resp ≠ .null → (seenAt devs tr v).resp ≠ .null → u = v
  nobody : ∀ t, Access tr t → validdev devs (tr t).core.addr = false →
    ∃ u, Window tr t u ∧ (seenAt devs tr u).resp = .err ∧
      ∀ v, Window tr t v → (seenAt devs tr v).resp ≠ .null → v = u

end Runs

/-! ### One cycle -/

section Cycle

variable {devs : Fin n → Device} {y : Sys n} {i : Inputs n} {k : Fin n}

/-- A device that has to answer is the one that was selected last, and the core waits for
    it. -/
structure Inv (y : Sys n) : Prop where
  noErr : y.dec.errRespReg = .null
  pending : ∀ j, y.pending j = true → y.dec.selReg j = true ∧ y.waiting = true

/-- Device `k` alone is selected. -/
def Selected (y : Sys n) (k : Fin n) : Prop := ∀ j, y.dec.selReg j = true ↔ j = k

theorem start_inv : Inv (Sys.start : Sys n) := ⟨rfl, fun _ h => Bool.noConfusion h⟩

theorem next_of_idle (hcmd : i.core.cmd = .idle) :
    Sys.next devs y i = ⟨y.dec, fun j => y.pending j && !i.answers j,
      y.waiting && decide ((y.seen i).resp = .null)⟩ := by
  have hdev : ∀ j, (toDevice devs i.core j).cmd = .idle := by
    intro j
    simp [toDevice, hcmd]
  simp [Sys.next, LocalDevices.next, hcmd, hdev]

/-- A pending device is the selected one. -/
theorem Inv.null_of_ne (hinv : Inv y) (hsel : Selected y k) {j : Fin n} (hj : j ≠ k) :
    (y.device i j).resp = .null := by
  have hp : y.pending j = false := by
    cases h : y.pending j with
    | false => rfl
    | true => exact absurd ((hsel j).mp (hinv.pending j h).1) hj
  simp [Sys.device, hp]

theorem Inv.seen_eq (hinv : Inv y) (hsel : Selected y k) :
    (y.seen i).resp = (y.device i k).resp ∧ (y.seen i).data = (y.device i k).data :=
  ⟨resp_toCore hinv.noErr fun _ hj => hinv.null_of_ne hsel hj, data_toCore hsel⟩

/-- When nothing is pending nothing is seen. -/
theorem Inv.seen_null (hinv : Inv y) (hnone : ∀ j, y.pending j = false) :
    (y.seen i).resp = .null := by
  unfold Sys.seen toCore
  rw [hinv.noErr, OcpResp.null_or]
  exact List.foldl_fixed' (fun j => by simp [Sys.device, hnone j]) _

/-- The core has its answer once the pending device has answered. -/
theorem Inv.pending_of_seen (hinv : Inv y) (hdisj : ∀ j k, y.dec.selReg j = true →
      y.dec.selReg k = true → j = k)
    (hseen : (y.seen i).resp ≠ .null) (j : Fin n) : (y.pending j && !i.answers j) = false := by
  cases hp : y.pending j with
  | false => rfl
  | true =>
    have hsel : Selected y j := by
      intro k
      constructor
      · intro hk
        exact hdisj k j hk (hinv.pending j hp).1
      · rintro rfl
        exact (hinv.pending k hp).1
    rw [(hinv.seen_eq hsel).1] at hseen
    cases ha : i.answers j with
    | true => rfl
    | false => exact absurd (by simp [Sys.device, ha]) hseen

theorem selected_next (hdisj : DisjointRanges devs) (hcmd : i.core.cmd ≠ .idle)
    (hk : sel (devs k) i.core.addr = true) : Selected (Sys.next devs y i) k := by
  intro j
  have hreg : (Sys.next devs y i).dec.selReg j = sel (devs j) i.core.addr := by
    simp [Sys.next, LocalDevices.next, hcmd]
  rw [hreg]
  constructor
  · intro hj
    exact hdisj _ j k hj hk
  · rintro rfl
    exact hk

/-- At most one device is selected. -/
def OneSelected (y : Sys n) : Prop :=
  ∀ j k, y.dec.selReg j = true → y.dec.selReg k = true → j = k

theorem oneSelected_next (hdisj : DisjointRanges devs) (hone : OneSelected y) :
    OneSelected (Sys.next devs y i) := by
  intro j k hj hk
  by_cases hcmd : i.core.cmd = .idle
  · rw [next_of_idle hcmd] at hj hk
    exact hone j k hj hk
  · simp only [Sys.next, LocalDevices.next, hcmd, ne_eq, not_false_eq_true, if_true] at hj hk
    exact hdisj _ j k hj hk

theorem Inv.next (hinv : Inv y) (hone : OneSelected y) (hleg : y.Legal i)
    (hdec : y.Decoded devs i) : Inv (Sys.next devs y i) := by
  by_cases hcmd : i.core.cmd = .idle
  · rw [next_of_idle hcmd]
    refine ⟨hinv.noErr, ?_⟩
    intro j hj
    change (y.pending j && !i.answers j) = true at hj
    obtain ⟨hp, -⟩ := (Bool.and_eq_true _ _).mp hj
    obtain ⟨hsel, hwait⟩ := hinv.pending j hp
    refine ⟨hsel, ?_⟩
    -- an answer that the core sees is the answer of the pending device
    have hnull : (y.seen i).resp = .null := by
      by_contra hseen
      rw [hinv.pending_of_seen hone hseen j] at hj
      cases hj
    simp [hwait, hnull]
  · obtain ⟨k, hk⟩ := hdec hcmd
    have hvalid : validdev devs i.core.addr = true :=
      List.any_eq_true.mpr ⟨k, List.mem_finRange k, hk⟩
    constructor
    · simp [Sys.next, LocalDevices.next, hvalid, hinv.noErr]
    · intro j hj
      have hclear : (y.pending j && !i.answers j) = false := by
        cases hw : y.waiting with
        | true => exact hinv.pending_of_seen hone (hleg hcmd hw) j
        | false =>
          cases hp : y.pending j with
          | false => rfl
          | true =>
            have := (hinv.pending j hp).2
            rw [hw] at this
            exact Bool.noConfusion this
      cases hs : sel (devs j) i.core.addr with
      | true => exact ⟨by simp [Sys.next, LocalDevices.next, hcmd, hs], by simp [Sys.next, hcmd]⟩
      | false => simp [Sys.next, toDevice, hs, hclear] at hj

end Cycle

/-! ### Every run in which all commands are decoded -/

section Run

variable {devs : Fin n → Device} {tr : ℕ → Inputs n}

theorem inv_sysAt (hdisj : DisjointRanges devs)
    (hleg : ∀ t, (sysAt devs tr t).Legal (tr t)) (hdec : ∀ t, (sysAt devs tr t).Decoded devs (tr t))
    (t : ℕ) : Inv (sysAt devs tr t) ∧ OneSelected (sysAt devs tr t) := by
  refine inv_stateAt (P := fun y i => y.Legal i ∧ y.Decoded devs i)
    (I := fun y => Inv y ∧ OneSelected y) ?_ ?_ (fun t => ⟨hleg t, hdec t⟩) t
  · intro y i hI hP
    exact ⟨hI.1.next hI.2 hP.1 hP.2, oneSelected_next hdisj hI.2⟩
  · exact ⟨start_inv, fun _ _ h => Bool.noConfusion h⟩

/-- The device of an access stays selected up to the next access. -/
theorem selected_of_window (hdisj : DisjointRanges devs) {t v : ℕ} {k : Fin n}
    (hacc : Access tr t) (hk : sel (devs k) (tr t).core.addr = true) (hw : Window tr t v) :
    Selected (sysAt devs tr v) k := by
  obtain ⟨htv, hidle⟩ := hw
  induction v with
  | zero => exact absurd htv (Nat.not_lt_zero t)
  | succ v ih =>
    rcases Nat.lt_succ_iff_lt_or_eq.mp htv with hlt | rfl
    · have hcmd : (tr v).core.cmd = .idle := not_not.mp (hidle v hlt (Nat.lt_succ_self v))
      have hsel := ih hlt fun u htu huv => hidle u htu (Nat.lt_succ_of_lt huv)
      change Selected (Sys.next devs (sysAt devs tr v) (tr v)) k
      rw [next_of_idle hcmd]
      exact hsel
    · exact selected_next hdisj hacc hk

/-- After an answer, and before the next access, no device has to answer. -/
theorem silent_of_seen (hdisj : DisjointRanges devs)
    (hleg : ∀ t, (sysAt devs tr t).Legal (tr t)) (hdec : ∀ t, (sysAt devs tr t).Decoded devs (tr t))
    {t u v : ℕ} (hu : Window tr t u) (hseen : (seenAt devs tr u).resp ≠ .null)
    (hv : Window tr t v) (huv : u < v) (j : Fin n) : (sysAt devs tr v).pending j = false := by
  induction v with
  | zero => exact absurd huv (Nat.not_lt_zero u)
  | succ v ih =>
    have hle : u ≤ v := Nat.lt_succ_iff.mp huv
    have hcmd : (tr v).core.cmd = .idle :=
      not_not.mp (hv.2 v (Nat.lt_of_lt_of_le hu.1 hle) (Nat.lt_succ_self v))
    change (Sys.next devs (sysAt devs tr v) (tr v)).pending j = false
    rw [next_of_idle hcmd]
    rcases Nat.lt_or_eq_of_le hle with hlt | rfl
    · have hw : Window tr t v := by
        refine ⟨Nat.lt_trans hu.1 hlt, ?_⟩
        intro w htw hwv
        exact hv.2 w htw (Nat.lt_succ_of_lt hwv)
      simp [ih hw hlt]
    · obtain ⟨hinv, hone⟩ := inv_sysAt hdisj hleg hdec u
      exact hinv.pending_of_seen hone hseen j

theorem confined_of_decoded (hdisj : DisjointRanges devs)
    (hleg : ∀ t, (sysAt devs tr t).Legal (tr t))
    (hdec : ∀ t, (sysAt devs tr t).Decoded devs (tr t)) : Confined devs tr := by
  constructor
  · intro t k hacc hk v hw
    exact (inv_sysAt hdisj hleg hdec v).1.seen_eq (selected_of_window hdisj hacc hk hw)
  · intro t k hacc hk u v hu hv hseenu hseenv
    -- a second answer would come from a device that has nothing to answer
    have hsilent : ∀ {u v}, Window tr t u → (seenAt devs tr u).resp ≠ .null → Window tr t v →
        u < v → (seenAt devs tr v).resp = .null := by
      intro u v hu hseen hv huv
      apply (inv_sysAt hdisj hleg hdec v).1.seen_null
      intro j
      exact silent_of_seen hdisj hleg hdec hu hseen hv huv j
    rcases lt_trichotomy u v with huv | heq | hvu
    · exact absurd (hsilent hu hseenu hv huv) hseenv
    · exact heq
    · exact absurd (hsilent hv hseenv hu hvu) hseenu
  · intro t hacc hnone
    obtain ⟨k, hk⟩ := hdec t hacc
    rw [validdev, List.any_eq_false] at hnone
    exact absurd hk (hnone k (List.mem_finRange k))

end Run

/-! ### A serial port and a scratchpad -/

def uartAndSpm : Fin 2 → Device := ![⟨0xF008, 16, false⟩, ⟨0, 4, true⟩]

theorem uartAndSpm_disjoint : DisjointRanges uartAndSpm := by
  have huart : ∀ a, sel (uartAndSpm 0) a = true → a / 65536 % 65536 = 61448 := by
    intro a h
    exact of_decide_eq_true ((Bool.and_true _).symm.trans h)
  have hspm : ∀ a, sel (uartAndSpm 1) a = true → a / 268435456 % 16 = 0 := by
    intro a h
    exact (by simpa [sel, uartAndSpm] using h : _ ∧ _).1
  intro a j k hj hk
  match j, k with
  | 0, 0 => rfl
  | 1, 1 => rfl
  | 0, 1 =>
    have := huart a hj
    have := hspm a hk
    omega
  | 1, 0 =>
    have := hspm a hj
    have := huart a hk
    omega

/-- A cycle in which the devices in `answers` answer with their number, if they have to. -/
def cycle (cmd : OcpCmd) (addr : Nat) (answers : Fin 2 → Bool) : Inputs 2 :=
  ⟨⟨cmd, addr, fun _ => 0, allBytes⟩, answers, fun k _ => BitVec.ofNat 8 k.val⟩

def idleCycle : Inputs 2 := cycle .idle 0 fun _ => false

/-- A read of the serial port, answered two cycles later, and in that cycle a read of the
    scratchpad. -/
def twoReads : List (Inputs 2) :=
  [cycle .rd 0xF0080000 fun _ => false, cycle .idle 0 fun _ => false, cycle .rd 4 fun _ => true,
    cycle .idle 0 fun _ => true]

theorem twoReads_confined :
    Confined uartAndSpm (thenIdle idleCycle twoReads) ∧
      (seenAt uartAndSpm (thenIdle idleCycle twoReads) 3).data = fun _ => 1 := by
  refine ⟨confined_of_decoded uartAndSpm_disjoint ?_ ?_, by decide +kernel⟩
  · intro t hcmd hwait
    rcases t with _ | _ | _ | _ | t
    · cases hwait
    · exact absurd rfl hcmd
    · decide +kernel
    · exact absurd rfl hcmd
    · exact absurd rfl hcmd
  · intro t hcmd
    rcases t with _ | _ | _ | _ | t
    · exact ⟨0, by decide⟩
    · exact absurd rfl hcmd
    · exact ⟨1, by decide⟩
    · exact absurd rfl hcmd
    · exact absurd rfl hcmd

/-- A read that no device decodes, and when it has been answered a read of the serial port. -/
def strayRead : List (Inputs 2) :=
  [cycle .rd 0xE0000000 fun _ => false, cycle .rd 0xF0080000 fun _ => false,
    cycle .idle 0 fun _ => true]

/-- The serial port answers in cycle 2, and the core sees an error. -/
theorem strayRead_not_confined :
    DisjointRanges uartAndSpm ∧
      (∀ t, (sysAt uartAndSpm (thenIdle idleCycle strayRead) t).Legal
        (thenIdle idleCycle strayRead t)) ∧
      ¬ Confined uartAndSpm (thenIdle idleCycle strayRead) := by
  refine ⟨uartAndSpm_disjoint, ?_, ?_⟩
  · intro t hcmd hwait
    rcases t with _ | _ | _ | t
    · cases hwait
    · decide +kernel
    · exact absurd rfl hcmd
    · exact absurd rfl hcmd
  · intro hconf
    have hwin : Window (thenIdle idleCycle strayRead) 1 2 := ⟨by decide, fun u h1 h2 => by omega⟩
    have hacc : Access (thenIdle idleCycle strayRead) 1 := by unfold Access; decide
    have hseen := (hconf.device 1 0 hacc (by decide) 2 hwin).1
    exact absurd hseen (by decide +kernel)

end Patmos.LocalDevices
