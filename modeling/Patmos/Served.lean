import Mathlib.Data.List.Basic
import Patmos.Clocked
import Patmos.Sequential

/-!
# Objects behind a circuit

A circuit serves an object: in every cycle some operations take effect, in the next cycle their
results are answered.  The operations are commands that were sent before; a command that has not
taken effect waits.  `Serves` says this for one cycle, `History` for a run: the operations,
performed one after the other, lead to the object for which the circuit stands, they have the
answers that were given, and they are, client by client, the commands that were sent, less those
that wait.
-/

namespace Patmos.Served

open Clocked Patmos.Sequential

variable {σ ω ρ τ ι κ α : Type*}

/-- How a circuit is looked at: the operations that take effect in a cycle, the answers in a state,
    the commands that a client sends and those of its commands that wait. -/
structure View (σ ω ρ τ ι κ α : Type*) where
  step : τ → ι → τ
  exec : σ → ω → σ × ρ
  performed : τ → ι → List ω
  answers : τ → List ρ
  sent : κ → τ → ι → List α
  waiting : κ → τ → List α
  /-- The command of which an operation is the effect, for its client. -/
  own : κ → ω → Option α

namespace View

variable (v : View σ ω ρ τ ι κ α)

/-- The operations of a run. -/
def ops (y : τ) (cs : List ι) : List ω := emitted v.step v.performed y cs

/-- The answers of a run, up to its last cycle. -/
def given (y : τ) (cs : List ι) : List ρ := emitted v.step (fun y _ => v.answers y) y cs

/-- The commands of a run. -/
def commands (k : κ) (y : τ) (cs : List ι) : List α := emitted v.step (v.sent k) y cs

/-- One cycle of a circuit that stands for an object. -/
structure Serves (Rel : σ → τ → Prop) (Legal : τ → ι → Prop) : Prop where
  rel : ∀ {s y c}, Rel s y → Legal y c → Rel (after v.exec s (v.performed y c)) (v.step y c)
  answers : ∀ {s y c}, Rel s y → Legal y c →
    results v.exec s (v.performed y c) = v.answers (v.step y c)
  sent : ∀ {s y c}, Rel s y → Legal y c → ∀ k,
    v.waiting k y ++ v.sent k y c =
      (v.performed y c).filterMap (v.own k) ++ v.waiting k (v.step y c)

/-- A run of a circuit that stands for an object. -/
structure History (Rel : σ → τ → Prop) (s : σ) (y : τ) (cs : List ι) (z : τ) : Prop where
  rel : Rel (after v.exec s (v.ops y cs)) z
  answers : v.given y cs ++ v.answers z = results v.exec s (v.ops y cs)
  commands : ∀ k, v.commands k y cs = (v.ops y cs).filterMap (v.own k) ++ v.waiting k z

variable {v} {Rel : σ → τ → Prop} {Legal : τ → ι → Prop} {s : σ} {y : τ}

theorem History.nil (hrel : Rel s y) (hanswers : v.answers y = [])
    (hwaiting : ∀ k, v.waiting k y = []) : v.History Rel s y [] y := by
  refine ⟨hrel, ?_, ?_⟩
  · rw [hanswers]
    rfl
  · intro k
    rw [hwaiting k]
    rfl

theorem Serves.history_next (h : v.Serves Rel Legal) {cs : List ι} {c : ι}
    (hcs : v.History Rel s y cs (run v.step y cs)) (hlegal : Legal (run v.step y cs) c) :
    v.History Rel s y (cs ++ [c]) (v.step (run v.step y cs) c) := by
  constructor
  · rw [ops, emitted_concat, after_append]
    exact h.rel hcs.rel hlegal
  · rw [ops, emitted_concat, given, emitted_concat, results_append, ← h.answers hcs.rel hlegal]
    exact congrArg (· ++ _) hcs.answers
  · intro k
    rw [commands, emitted_concat, ops, emitted_concat, List.filterMap_append, List.append_assoc,
      ← h.sent hcs.rel hlegal k, ← List.append_assoc]
    exact congrArg (· ++ _) (hcs.commands k)

theorem Serves.history (h : v.Serves Rel Legal) (hrel : Rel s y) (hanswers : v.answers y = [])
    (hwaiting : ∀ k, v.waiting k y = []) {cs : List ι} (hlegal : Along v.step Legal y cs) :
    v.History Rel s y cs (run v.step y cs) :=
  inv_history (I := v.History Rel s y) (History.nil hrel hanswers hwaiting)
    (fun _ _ hp hl => h.history_next hp hl) hlegal

end View

/-- The commands of one client, where an operation has a client and a command. -/
theorem filterMap_own [DecidableEq κ] (client : ω → κ) (command : ω → α) (k : κ) (l : List ω) :
    l.filterMap (fun o => if client o = k then some (command o) else none) =
      (l.filter fun o => client o = k).map command := by
  rw [← List.filterMap_eq_map, List.filterMap_filter]
  apply List.filterMap_congr
  intro o _
  by_cases ho : client o = k <;> simp [ho]

end Patmos.Served
