import Patmos.Ocp

/-!
# Reading bursts through a register

A master that only reads, one burst at a time, and looks at the answers of the memory one
cycle later, in a register.  `At` says how far the memory is with a burst, and `Beats` what is
in the register when the master has looked at a number of beats.  `At.next` is all that a
master needs to know about a cycle in which it issues no command, `accept` about one in which
its command is accepted.
-/

namespace Patmos.BurstRead

open Ocp

/-- The word that the memory delivers. -/
def delivered (s : Slave) (c : Choice) : Option Nat :=
  match s.phase with
  | .read base done => if c.go && !c.err then some (base + done) else none
  | _ => none

/-- The memory has only been read. -/
structure ReadOnly (mem : Memory) (s : Slave) : Prop where
  memory : s.mem = mem
  phase : s.phase = .idle ∨ ∃ base done, s.phase = .read base done

/-- The memory has delivered `n` beats of the burst from `base`. -/
def At (burstLength : Nat) (s : Slave) (base n : Nat) : Prop :=
  n < burstLength ∧ s.phase = .read base n ∨ n = burstLength ∧ s.phase = .idle

/-- The master has looked at `n` beats.  `D` holds of a word when it was delivered. -/
inductive Beats (burstLength : Nat) (mem : Memory) (D : Nat → Prop) (s : Slave) (reg : CoreSlave)
    (base n : Nat) : Prop where
  | silent (hresp : reg.resp = .null) (hat : At burstLength s base n)
  | word (hresp : reg.resp = .dva) (hdata : reg.data = mem (base + n)) (hword : D (base + n))
      (hat : At burstLength s base (n + 1))
  | fault (hresp : reg.resp = .err) (hat : At burstLength s base (n + 1))

section Cycle

variable {burstLength : Nat} {mem : Memory} {D : Nat → Prop} {s : Slave} {m : BurstMaster}
  {c : Choice} {reg : CoreSlave} {base n : Nat}

theorem At.le (h : At burstLength s base n) : n ≤ burstLength := by
  rcases h with ⟨hlt, -⟩ | ⟨heq, -⟩
  · exact le_of_lt hlt
  · exact le_of_eq heq

theorem At.phase_of_end (h : At burstLength s base n) (hend : n = burstLength) :
    s.phase = .idle := by
  rcases h with ⟨hlt, -⟩ | ⟨-, hidle⟩
  · exact absurd hend (ne_of_lt hlt)
  · exact hidle

theorem idle_next (hidle : s.phase = .idle) (hcmd : m.cmd = .idle) :
    (s.next burstLength m c).phase = .idle ∧ (s.out m c).resp = .null := by
  rw [Slave.next_of_noCmd hidle hcmd]
  exact ⟨hidle, by simp [Slave.out, hidle]⟩

theorem ReadOnly.next (h : ReadOnly mem s) (hcmd : m.cmd = .idle ∨ m.cmd = .rd) :
    ReadOnly mem (s.next burstLength m c) := by
  rcases h.phase with hidle | ⟨base, done, hread⟩
  · cases haccept : c.accept with
    | false =>
      rw [Slave.next_of_wait hidle haccept]
      exact h
    | true =>
      rcases hcmd with hcmd | hcmd
      · rw [Slave.next_of_noCmd hidle hcmd]
        exact h
      · rw [Slave.next_of_rd hidle haccept hcmd]
        exact ⟨h.memory, .inr ⟨_, _, rfl⟩⟩
  · cases hgo : c.go with
    | false =>
      rw [Slave.next_of_read_wait hread hgo]
      exact h
    | true =>
      rw [Slave.next_of_read hread hgo]
      refine ⟨h.memory, ?_⟩
      split
      · exact .inl rfl
      · exact .inr ⟨_, _, rfl⟩

/-- A command is accepted by an idle memory, which then has the burst before it. -/
theorem accept (h : ReadOnly mem s) (hlen : 0 < burstLength) (hcmd : m.cmd = .rd)
    (haccept : (s.out m c).cmdAccept = true) :
    (s.out m c).resp = .null ∧ At burstLength (s.next burstLength m c) (m.addr / 4) 0 := by
  rcases h.phase with hidle | ⟨base, done, hread⟩
  · simp only [Slave.out, hidle] at haccept ⊢
    refine ⟨trivial, .inl ⟨hlen, ?_⟩⟩
    rw [Slave.next_of_rd hidle haccept hcmd]
  · simp [Slave.out, hread, Slave.busyAccept, hcmd] at haccept

theorem At.next (h : At burstLength s base n) (hmem : s.mem = mem) (hcmd : m.cmd = .idle)
    (hD : delivered s c = some (base + n) → D (base + n)) :
    Beats burstLength mem D (s.next burstLength m c) ⟨(s.out m c).resp, (s.out m c).data⟩
      base n := by
  rcases h with ⟨hn, hread⟩ | ⟨hn, hidle⟩
  · cases hgo : c.go with
    | false =>
      refine .silent (by simp [Slave.out, hread, Slave.respOf, hgo]) (.inl ⟨hn, ?_⟩)
      rw [Slave.next_of_read_wait hread hgo, hread]
    | true =>
      have hat : At burstLength (s.next burstLength m c) base (n + 1) := by
        rw [At, Slave.next_of_read hread hgo]
        rcases lt_or_eq_of_le (Nat.succ_le_of_lt hn) with hlt | hend
        · exact .inl ⟨hlt, if_neg (ne_of_lt hlt)⟩
        · exact .inr ⟨hend, if_pos hend⟩
      cases herr : c.err with
      | true => exact .fault (by simp [Slave.out, hread, Slave.respOf, hgo, herr]) hat
      | false =>
        refine .word (by simp [Slave.out, hread, Slave.respOf, hgo, herr])
          (by simp [Slave.out, hread, hgo, herr, hmem]) (hD ?_) hat
        simp [delivered, hread, hgo, herr]
  · refine .silent (by simp [Slave.out, hidle]) (.inr ⟨hn, ?_⟩)
    rw [Slave.next_of_noCmd hidle hcmd, hidle]

theorem Beats.at (h : Beats burstLength mem D s reg base n) :
    At burstLength s base (if reg.resp = .null then n else n + 1) := by
  cases h with
  | silent hresp hat => rwa [if_pos hresp]
  | word hresp _ _ hat | fault hresp hat => rwa [if_neg (by rw [hresp]; exact OcpResp.noConfusion)]

end Cycle

end Patmos.BurstRead
