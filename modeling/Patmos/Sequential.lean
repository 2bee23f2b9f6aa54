import Mathlib.Data.List.Pairwise

/-!
# Objects with operations

An object is given by its states `σ`, its operations `ω`, and `exec`, which performs an
operation in a state and gives the state after it and the result.  `after` and `results` are
what a sequence of operations leads to.  Operations that do not disturb each other have the
results that each of them would have alone.
-/

namespace Patmos.Sequential

variable {σ ω ρ α : Type*}

/-- The state after a sequence of operations. -/
def after (exec : σ → ω → σ × ρ) : σ → List ω → σ
  | s, [] => s
  | s, o :: os => after exec (exec s o).1 os

/-- The results of a sequence of operations. -/
def results (exec : σ → ω → σ × ρ) : σ → List ω → List ρ
  | _, [] => []
  | s, o :: os => (exec s o).2 :: results exec (exec s o).1 os

variable {exec : σ → ω → σ × ρ} {s : σ} {o : ω} {os ps : List ω}

@[simp] theorem after_nil : after exec s [] = s := rfl

@[simp] theorem after_cons : after exec s (o :: os) = after exec (exec s o).1 os := rfl

@[simp] theorem results_nil : results exec s [] = [] := rfl

@[simp] theorem results_cons :
    results exec s (o :: os) = (exec s o).2 :: results exec (exec s o).1 os := rfl

theorem after_append : after exec s (os ++ ps) = after exec (after exec s os) ps := by
  induction os generalizing s with
  | nil => rfl
  | cons o os ih => exact ih

theorem results_append :
    results exec s (os ++ ps) = results exec s os ++ results exec (after exec s os) ps := by
  induction os generalizing s with
  | nil => rfl
  | cons o os ih => rw [List.cons_append, results_cons, ih, results_cons, after_cons,
    List.cons_append]

/-- `o` does not change the result of `o'`. -/
def Undisturbed (exec : σ → ω → σ × ρ) (o o' : ω) : Prop :=
  ∀ s, (exec (exec s o).1 o').2 = (exec s o').2

theorem results_of_pairwise (h : os.Pairwise (Undisturbed exec)) :
    results exec s os = os.map fun o => (exec s o).2 := by
  induction os generalizing s with
  | nil => rfl
  | cons o os ih =>
    obtain ⟨hhead, htail⟩ := List.pairwise_cons.mp h
    rw [results_cons, ih htail, List.map_cons]
    congr 1
    apply List.map_congr_left
    intro o' ho'
    exact hhead o' ho' s

/-- What no operation changes stays. -/
theorem after_of_quiet {v : σ → α} (h : ∀ o ∈ os, ∀ s, v (exec s o).1 = v s) :
    v (after exec s os) = v s := by
  induction os generalizing s with
  | nil => rfl
  | cons o os ih =>
    rw [after_cons, ih fun o' ho' => h o' (List.mem_cons_of_mem o ho')]
    exact h o List.mem_cons_self s

/-- What one operation alone changes is changed as if it were the only one. -/
theorem after_of_mem {v : σ → α} (hnodup : os.Nodup) (ho : o ∈ os)
    (hothers : ∀ o' ∈ os, o' ≠ o → ∀ s, v (exec s o').1 = v s)
    (hown : ∀ s s', v s = v s' → v (exec s o).1 = v (exec s' o).1) :
    v (after exec s os) = v (exec s o).1 := by
  induction os generalizing s with
  | nil => exact absurd ho List.not_mem_nil
  | cons p os ih =>
    obtain ⟨hnot, hnodup⟩ := List.nodup_cons.mp hnodup
    have hrest : ∀ o' ∈ os, o' ≠ o → ∀ s, v (exec s o').1 = v s :=
      fun o' ho' => hothers o' (List.mem_cons_of_mem p ho')
    rw [after_cons]
    by_cases hp : p = o
    · subst hp
      apply after_of_quiet
      intro o' ho'
      exact hrest o' ho' fun heq => hnot (heq ▸ ho')
    · have hmem : o ∈ os := (List.mem_cons.mp ho).resolve_left fun heq => hp heq.symm
      rw [ih hnodup hmem hrest]
      exact hown _ _ (hothers p List.mem_cons_self hp s)

end Patmos.Sequential
