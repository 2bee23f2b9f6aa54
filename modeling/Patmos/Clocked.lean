import Mathlib.Algebra.GroupWithZero.Nat
import Mathlib.Data.List.Induction

/-!
# Synchronous circuits as step functions

A synchronous circuit is given by its registers `σ`, the signals `ι` it samples
in one clock cycle, and a step function `σ → ι → σ`.  This module fixes what a
run is, what a run emits on a port, and what it means that every cycle of a run
meets a condition, together with the induction rules that the circuits of this
development use: an invariant of the registers, an invariant that also sees the
inputs clocked so far, and a relation between two runs over the same inputs.
Nothing here mentions a particular circuit.
-/

namespace Patmos.Clocked

variable {σ ι ε : Type*}

/-- The registers after the inputs `is` have been clocked in one by one. -/
def run (step : σ → ι → σ) : σ → List ι → σ
  | s, [] => s
  | s, i :: is => run step (step s i) is

/-- Everything that `ev` emits along a run, in cycle order. -/
def emitted (step : σ → ι → σ) (ev : σ → ι → List ε) : σ → List ι → List ε
  | _, [] => []
  | s, i :: is => ev s i ++ emitted step ev (step s i) is

/-- Every cycle of the run from `s` over `is` meets `P`, which sees the registers
    before the clock edge and the inputs of the cycle. -/
def Along (step : σ → ι → σ) (P : σ → ι → Prop) : σ → List ι → Prop
  | _, [] => True
  | s, i :: is => P s i ∧ Along step P (step s i) is

instance Along.decidable (step : σ → ι → σ) (P : σ → ι → Prop)
    [hP : ∀ s i, Decidable (P s i)] : ∀ s is, Decidable (Along step P s is)
  | _, [] => isTrue trivial
  | s, i :: is =>
    match hP s i, Along.decidable step P (step s i) is with
    | isTrue h, isTrue h' => isTrue ⟨h, h'⟩
    | isFalse h, _ => isFalse fun hc => h hc.1
    | _, isFalse h' => isFalse fun hc => h' hc.2

variable {step : σ → ι → σ} {P Q : σ → ι → Prop} {ev : σ → ι → List ε}

@[simp] theorem run_nil (s : σ) : run step s [] = s := rfl

@[simp] theorem run_cons (s : σ) (i : ι) (is : List ι) :
    run step s (i :: is) = run step (step s i) is := rfl

@[simp] theorem emitted_nil (s : σ) : emitted step ev s [] = [] := rfl

@[simp] theorem emitted_cons (s : σ) (i : ι) (is : List ι) :
    emitted step ev s (i :: is) = ev s i ++ emitted step ev (step s i) is := rfl

@[simp] theorem along_nil (s : σ) : Along step P s [] := trivial

@[simp] theorem along_cons (s : σ) (i : ι) (is : List ι) :
    Along step P s (i :: is) ↔ P s i ∧ Along step P (step s i) is := Iff.rfl

theorem run_append (s : σ) (is js : List ι) :
    run step s (is ++ js) = run step (run step s is) js := by
  induction is generalizing s with
  | nil => rfl
  | cons i is ih => exact ih (step s i)

theorem emitted_append (s : σ) (is js : List ι) :
    emitted step ev s (is ++ js) =
      emitted step ev s is ++ emitted step ev (run step s is) js := by
  induction is generalizing s with
  | nil => rfl
  | cons i is ih => simp only [List.cons_append, emitted_cons, ih, run_cons, List.append_assoc]

theorem along_append (s : σ) (is js : List ι) :
    Along step P s (is ++ js) ↔ Along step P s is ∧ Along step P (run step s is) js := by
  induction is generalizing s with
  | nil => simp
  | cons i is ih => simp only [List.cons_append, along_cons, ih, run_cons, and_assoc]

@[simp] theorem run_concat (s : σ) (is : List ι) (i : ι) :
    run step s (is ++ [i]) = step (run step s is) i := by
  rw [run_append]; rfl

@[simp] theorem emitted_concat (s : σ) (is : List ι) (i : ι) :
    emitted step ev s (is ++ [i]) = emitted step ev s is ++ ev (run step s is) i := by
  rw [emitted_append]; simp

@[simp] theorem along_concat (s : σ) (is : List ι) (i : ι) :
    Along step P s (is ++ [i]) ↔ Along step P s is ∧ P (run step s is) i := by
  rw [along_append]; simp

variable {s : σ} {is : List ι} {I : σ → Prop}

theorem Along.mono (h : ∀ s i, P s i → Q s i) (hP : Along step P s is) : Along step Q s is := by
  induction is generalizing s with
  | nil => trivial
  | cons i is ih => exact ⟨h s i hP.1, ih hP.2⟩

theorem along_of_forall (h : ∀ s i, P s i) : Along step P s is := by
  induction is generalizing s with
  | nil => trivial
  | cons i is ih => exact ⟨h s i, ih⟩

theorem Along.and (hP : Along step P s is) (hQ : Along step Q s is) :
    Along step (fun s i => P s i ∧ Q s i) s is := by
  induction is generalizing s with
  | nil => trivial
  | cons i is ih => exact ⟨⟨hP.1, hQ.1⟩, ih hP.2 hQ.2⟩

theorem Along.of_append_left {is js : List ι} (h : Along step P s (is ++ js)) : Along step P s is :=
  ((along_append s is js).mp h).1

theorem Along.restrict {is js : List ι} (hp : is <+: js) (h : Along step P s js) :
    Along step P s is := by
  obtain ⟨rest, rfl⟩ := hp
  exact h.of_append_left

theorem emitted_congr {ev' : σ → ι → List ε} (h : Along step (fun s i => ev s i = ev' s i) s is) :
    emitted step ev s is = emitted step ev' s is := by
  induction is generalizing s with
  | nil => rfl
  | cons i is ih => rw [emitted_cons, emitted_cons, h.1, ih h.2]

/-- **Invariant rule.**  What holds before the run and is kept by every cycle that
    meets `P` holds after every run all of whose cycles meet `P`. -/
theorem inv_run (hstep : ∀ s i, I s → P s i → I (step s i)) (hs : I s) (hP : Along step P s is) :
    I (run step s is) := by
  induction is generalizing s with
  | nil => exact hs
  | cons i is ih => exact ih (hstep s i hs hP.1) hP.2

/-- The invariant rule with the history of the run in view: the invariant may
    speak about the inputs `p` clocked so far, hence about what was emitted. -/
theorem inv_history {I : List ι → σ → Prop} (hs : I [] s)
    (hstep : ∀ p i, I p (run step s p) → P (run step s p) i →
      I (p ++ [i]) (step (run step s p) i)) (hP : Along step P s is) : I is (run step s is) := by
  induction is using List.reverseRecOn with
  | nil => exact hs
  | append_singleton is i ih =>
    rw [along_concat] at hP
    rw [run_concat]
    exact hstep is i (ih hP.1) hP.2

/-- An invariant may be assumed in every cycle of a run. -/
theorem Along.with_inv (hstep : ∀ s i, I s → P s i → I (step s i)) (hs : I s)
    (hP : Along step P s is) : Along step (fun s i => I s ∧ P s i) s is := by
  induction is generalizing s with
  | nil => trivial
  | cons i is ih => exact ⟨⟨hs, hP.1⟩, ih (hstep s i hs hP.1) hP.2⟩

/-- **Progress rule.**  When no cycle that meets `P` raises `rank`, and every event lowers it,
    there are at most `rank` many of them. -/
theorem length_emitted_add_rank_le (rank : σ → ℕ) (hstep : ∀ s i, I s → P s i → I (step s i))
    (hrank : ∀ s i, I s → P s i → rank (step s i) + (ev s i).length ≤ rank s) (hs : I s)
    (hP : Along step P s is) : (emitted step ev s is).length + rank (run step s is) ≤ rank s := by
  induction is generalizing s with
  | nil => simp
  | cons i is ih =>
    have hle := ih (hstep s i hs hP.1) hP.2
    have hone := hrank s i hs hP.1
    rw [emitted_cons, List.length_append, run_cons]
    omega

/-- The progress rule for cycles that are counted by their inputs `w`. -/
theorem countP_add_rank_le (rank : σ → ℕ) (w : ι → Bool) (hstep : ∀ s i, I s → P s i → I (step s i))
    (hrank : ∀ s i, I s → P s i → rank (step s i) + (w i).toNat ≤ rank s) (hs : I s)
    (hP : Along step P s is) : is.countP w + rank (run step s is) ≤ rank s := by
  have hcount : ∀ (s : σ) (is : List ι),
      (emitted step (fun _ i => List.replicate (w i).toNat ()) s is).length = is.countP w := by
    intro s is
    induction is generalizing s with
    | nil => rfl
    | cons i is ih =>
      rw [emitted_cons, List.length_append, ih, List.length_replicate]
      cases hw : w i <;> simp [hw, add_comm]
  rw [← hcount s is]
  refine length_emitted_add_rank_le rank hstep (fun s i hI hPi => ?_) hs hP
  rw [List.length_replicate]
  exact hrank s i hI hPi

/-- **Bounded waiting.**  When every cycle that meets `N` keeps `W` and lowers `rank` if it
    counts, then from any point of a run on there are at most `bound` such cycles in a row. -/
theorem countP_le_of_waits {I W : σ → Prop} {N : σ → ι → Prop} (rank : σ → ℕ) (w : ι → Bool)
    {bound : ℕ} (hmax : ∀ s, I s → rank s ≤ bound) (hstep : ∀ s i, I s → P s i → I (step s i))
    (hwait : ∀ s i, I s → W s → P s i → N s i →
      W (step s i) ∧ rank (step s i) + (w i).toNat ≤ rank s) {p q : List ι} (hs : I s)
    (hP : Along step P s (p ++ q)) (hW : W (run step s p)) (hN : Along step N (run step s p) q) :
    q.countP w ≤ bound := by
  obtain ⟨hp, hq⟩ := (along_append s p q).mp hP
  have hinv : I (run step s p) := inv_run hstep hs hp
  have hle := countP_add_rank_le (I := fun s => I s ∧ W s) rank w
    (fun s i h hl => ⟨hstep s i h.1 hl.1, (hwait s i h.1 h.2 hl.1 hl.2).1⟩)
    (fun s i h hl => (hwait s i h.1 h.2 hl.1 hl.2).2) ⟨hinv, hW⟩ (hq.and hN)
  exact Nat.le_trans (Nat.le_add_right _ _) (Nat.le_trans hle (hmax _ hinv))

/-- Nothing happens in `J`. -/
theorem emitted_eq_nil {J : σ → Prop} (hJ : ∀ s i, J s → P s i → J (step s i))
    (hnone : ∀ s i, J s → ev s i = []) (hs : J s) (hP : Along step P s is) :
    emitted step ev s is = [] := by
  induction is generalizing s with
  | nil => rfl
  | cons i is ih => rw [emitted_cons, hnone s i hs, ih (hJ s i hs hP.1) hP.2, List.nil_append]

/-- **At most once.**  While `W` lasts, the first event leads to `J`, and in `J` there is none. -/
theorem length_emitted_le_one {W J : σ → Prop} (hone : ∀ s i, (ev s i).length ≤ 1)
    (hW : ∀ s i, W s → P s i → W (step s i))
    (hfirst : ∀ s i, W s → P s i → ev s i ≠ [] → J (step s i))
    (hJ : ∀ s i, J s → P s i → J (step s i)) (hnone : ∀ s i, J s → ev s i = []) (hs : W s)
    (hP : Along step P s is) : (emitted step ev s is).length ≤ 1 := by
  induction is generalizing s with
  | nil => exact Nat.zero_le 1
  | cons i is ih =>
    rw [emitted_cons]
    by_cases hev : ev s i = []
    · rw [hev, List.nil_append]
      exact ih (hW s i hs hP.1) hP.2
    · rw [emitted_eq_nil hJ hnone (hfirst s i hs hP.1 hev) hP.2, List.append_nil]
      exact hone s i

/-! ### Unbounded runs -/

/-- The registers before cycle `t` of a run over an unbounded sequence of inputs. -/
def stateAt (step : σ → ι → σ) (s : σ) (tr : ℕ → ι) : ℕ → σ
  | 0 => s
  | t + 1 => step (stateAt step s tr t) (tr t)

@[simp] theorem stateAt_zero (s : σ) (tr : ℕ → ι) : stateAt step s tr 0 = s := rfl

@[simp] theorem stateAt_succ (s : σ) (tr : ℕ → ι) (t : ℕ) :
    stateAt step s tr (t + 1) = step (stateAt step s tr t) (tr t) := rfl

/-- The given inputs, then `idle` in every cycle. -/
def thenIdle (idle : ι) (is : List ι) (t : ℕ) : ι := is.getD t idle

theorem thenIdle_cases (idle : ι) (is : List ι) (t : ℕ) :
    thenIdle idle is t = idle ∨ thenIdle idle is t ∈ is := by
  unfold thenIdle
  rw [List.getD_eq_getElem?_getD]
  cases h : is[t]? with
  | none => exact .inl rfl
  | some i => exact .inr (List.mem_of_getElem? h)

/-- The invariant rule for unbounded runs. -/
theorem inv_stateAt {I : σ → Prop} (hstep : ∀ s i, I s → P s i → I (step s i))
    {s : σ} {tr : ℕ → ι} (hs : I s) (hP : ∀ t, P (stateAt step s tr t) (tr t)) (t : ℕ) :
    I (stateAt step s tr t) := by
  induction t with
  | zero => exact hs
  | succ t ih => exact hstep _ _ ih (hP t)

/-- What holds and is kept until `q` still holds when `q` comes. -/
theorem holds_until {J q : ℕ → Prop} {t : ℕ} (hJ : J t)
    (hstep : ∀ v, t ≤ v → J v → ¬ q v → J (v + 1)) (hq : ∃ u, t ≤ u ∧ q u) :
    ∃ u, t ≤ u ∧ J u ∧ q u := by
  obtain ⟨u, htu, hqu⟩ := hq
  obtain ⟨d, rfl⟩ := Nat.exists_eq_add_of_le htu
  induction d generalizing t with
  | zero => exact ⟨t, Nat.le_refl t, hJ, hqu⟩
  | succ d ih =>
    by_cases hqt : q t
    · exact ⟨t, Nat.le_refl t, hJ, hqt⟩
    · have hlater : ∀ v, t + 1 ≤ v → J v → ¬ q v → J (v + 1) := by
        intro v hv
        exact hstep v (Nat.le_of_succ_le hv)
      have hsame : t + 1 + d = t + (d + 1) := by omega
      obtain ⟨u, htu, hu⟩ := ih (hstep t (Nat.le_refl t) hJ hqt) hlater
        (Nat.le_add_right (t + 1) d) (hsame ▸ hqu)
      exact ⟨u, Nat.le_of_succ_le htu, hu⟩

/-! ### Two runs -/

/-- **Two runs.**  Runs over the same inputs emit the same from related registers, when
    related registers emit the same in a cycle that meets `P` and stay related. -/
theorem emitted_of_rel {R : σ → σ → Prop}
    (hstep : ∀ s t i, R s t → P s i → R (step s i) (step t i) ∧ ev s i = ev t i)
    {s t : σ} {is : List ι} (hR : R s t) (hP : Along step P s is) :
    emitted step ev s is = emitted step ev t is := by
  induction is generalizing s t with
  | nil => rfl
  | cons i is ih =>
    obtain ⟨hnext, hev⟩ := hstep s t i hR hP.1
    rw [emitted_cons, emitted_cons, hev, ih hnext hP.2]

end Patmos.Clocked
