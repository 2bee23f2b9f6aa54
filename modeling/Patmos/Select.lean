import Mathlib.Data.List.FinRange
import Mathlib.Logic.Function.Basic
import Mathlib.Order.WellFounded

/-!
# Loops of conditional assignments

A `for` loop over ports whose body is `when(hit(k)) { x := f(k) }` elaborates to a chain of
multiplexers in which the last assignment wins.  `pick` is the value of such a loop,
`pickFirst` of one that runs downwards; `storeFirst` is a memory with one write port for
each index.
-/

namespace Patmos.Select

variable {n : ℕ} {α β : Type*}

/-- The loop from the first index to the last. -/
def pick (hit : Fin n → Bool) (f : Fin n → α) (x : α) : α :=
  (List.finRange n).foldl (fun x k => if hit k then f k else x) x

/-- The loop from the last index to the first. -/
def pickFirst (hit : Fin n → Bool) (f : Fin n → α) (x : α) : α :=
  (List.finRange n).foldr (fun k x => if hit k then f k else x) x

variable {hit hit' : Fin n → Bool} {f f' : Fin n → α} {x : α}

theorem assign_of_same (h : ∀ k, hit k = true → f k = x) (l : List (Fin n)) :
    l.foldl (fun x k => if hit k then f k else x) x = x := by
  induction l with
  | nil => rfl
  | cons k l ih =>
    rw [List.foldl_cons]
    cases hk : hit k with
    | false => exact ih
    | true =>
      rw [if_pos rfl, h k hk]
      exact ih

/-- Every assignment that takes effect assigns the value that is there. -/
theorem pick_of_same (h : ∀ k, hit k = true → f k = x) : pick hit f x = x := assign_of_same h _

theorem pickFirst_of_noHit (h : ∀ k, hit k = false) : pickFirst hit f x = x := by
  rw [pickFirst, ← List.foldl_reverse]
  exact assign_of_same (fun k hk => absurd hk (by simp [h k])) _

theorem pick_of_noHit (h : ∀ k, hit k = false) : pick hit f x = x := by
  apply pick_of_same
  intro k hk
  rw [h k] at hk
  cases hk

theorem assign_of_one {k : Fin n} (hk : hit k = true) (hone : ∀ j, hit j = true → j = k)
    (l : List (Fin n)) (x : α) : l.foldl (fun x j => if hit j then f j else x) x =
      if k ∈ l then f k else x := by
  induction l generalizing x with
  | nil => rfl
  | cons j l ih =>
    rw [List.foldl_cons, ih]
    by_cases hj : j = k
    · subst hj
      simp [hk]
    · have hmiss : hit j = false := Bool.eq_false_iff.mpr fun h => hj (hone j h)
      simp [hmiss, Ne.symm hj]

/-- One condition holds and no other. -/
theorem pick_of_one {k : Fin n} (hk : hit k = true) (hone : ∀ j, hit j = true → j = k) :
    pick hit f x = f k :=
  (assign_of_one hk hone _ x).trans (if_pos (List.mem_finRange k))

theorem pickFirst_of_one {k : Fin n} (hk : hit k = true) (hone : ∀ j, hit j = true → j = k) :
    pickFirst hit f x = f k := by
  rw [pickFirst, ← List.foldl_reverse, assign_of_one hk hone]
  exact if_pos (List.mem_reverse.mpr (List.mem_finRange k))

/-- When the conditions exclude each other the direction of the loop does not matter. -/
theorem pickFirst_eq_pick (hone : ∀ j k, hit j = true → hit k = true → j = k) :
    pickFirst hit f x = pick hit f x := by
  by_cases h : ∃ k, hit k = true
  · obtain ⟨k, hk⟩ := h
    rw [pick_of_one hk fun j hj => hone j k hj hk, pickFirst_of_one hk fun j hj => hone j k hj hk]
  · have hnone : ∀ k, hit k = false := fun k => Bool.eq_false_iff.mpr fun hk => h ⟨k, hk⟩
    rw [pick_of_noHit hnone, pickFirst_of_noHit hnone]

theorem pick_congr (hhit : ∀ k, hit k = hit' k) (hf : ∀ k, hit' k = true → f k = f' k) :
    pick hit f x = pick hit' f' x := by
  unfold pick
  congr 1
  funext x k
  rw [hhit k]
  cases h : hit' k with
  | false => rfl
  | true => simp [hf k h]

theorem map_pick (g : α → β) : g (pick hit f x) = pick hit (fun k => g (f k)) (g x) := by
  have key : ∀ (l : List (Fin n)) (x : α),
      g (l.foldl (fun x k => if hit k then f k else x) x) =
        l.foldl (fun y k => if hit k then g (f k) else y) (g x) := by
    intro l
    induction l with
    | nil => intro x; rfl
    | cons k l ih =>
      intro x
      rw [List.foldl_cons, List.foldl_cons, ih, apply_ite g]
  exact key _ x

/-- A loop of conditional writes to a memory, from the last port to the first. -/
def storeFirst {ι : Type*} [DecidableEq ι] (ena : Fin n → Bool) (addr : Fin n → ι)
    (data : Fin n → α) (mem : ι → α) : ι → α :=
  (List.finRange n).foldr
    (fun k mem => if ena k then Function.update mem (addr k) (data k) else mem) mem

theorem storeFirst_apply {ι : Type*} [DecidableEq ι] (ena : Fin n → Bool) (addr : Fin n → ι)
    (data : Fin n → α) (mem : ι → α) (i : ι) :
    storeFirst ena addr data mem i =
      pickFirst (fun k => ena k && decide (i = addr k)) data (mem i) := by
  have key : ∀ l : List (Fin n),
      l.foldr (fun k mem => if ena k then Function.update mem (addr k) (data k) else mem) mem i =
        l.foldr (fun k x => if ena k && decide (i = addr k) then data k else x) (mem i) := by
    intro l
    induction l with
    | nil => rfl
    | cons k l ih =>
      rw [List.foldr_cons, List.foldr_cons, ← ih]
      cases hena : ena k with
      | false => rfl
      | true =>
        by_cases hi : i = addr k
        · simp [hi]
        · simp [hi]
  exact key _

/-! ### Merging -/

/-- A merge of values of which one alone is not neutral. -/
theorem foldl_of_one {op : α → α → α} {e : α} (hleft : ∀ a, op e a = a) (hright : ∀ a, op a e = a)
    {k : Fin n} (hk : ∀ j, j ≠ k → f j = e) :
    (List.finRange n).foldl (fun a j => op a (f j)) e = f k := by
  have key : ∀ l : List (Fin n), l.Nodup → ∀ a, (k ∈ l → a = e) →
      l.foldl (fun a j => op a (f j)) a = if k ∈ l then f k else a := by
    intro l
    induction l with
    | nil => exact fun _ _ _ => rfl
    | cons j l ih =>
      intro hnodup a ha
      obtain ⟨hnot, hnodup⟩ := List.nodup_cons.mp hnodup
      rw [List.foldl_cons]
      by_cases hj : j = k
      · subst hj
        rw [ih hnodup _ fun h => absurd h hnot, if_neg hnot, if_pos List.mem_cons_self,
          ha List.mem_cons_self, hleft]
      · rw [hk j hj, hright, ih hnodup a fun h => ha (List.mem_cons_of_mem j h)]
        simp [Ne.symm hj]
  exact (key _ (List.nodup_finRange n) e fun _ => rfl).trans (if_pos (List.mem_finRange k))

/-- A loop that collects what there is, where only one index has something. -/
theorem filterMap_of_one {g : Fin n → Option α} {k : Fin n} (hk : ∀ j, j ≠ k → g j = none) :
    (List.finRange n).filterMap g = (g k).toList := by
  have key : ∀ l : List (Fin n), l.Nodup → l.filterMap g = if k ∈ l then (g k).toList else [] := by
    intro l
    induction l with
    | nil => exact fun _ => rfl
    | cons j l ih =>
      intro hnodup
      obtain ⟨hnot, hnodup⟩ := List.nodup_cons.mp hnodup
      have htail := ih hnodup
      by_cases hj : j = k
      · subst hj
        rw [if_neg hnot] at htail
        rw [if_pos List.mem_cons_self]
        cases hg : g j with
        | none => rw [List.filterMap_cons_none hg, htail]; rfl
        | some a => rw [List.filterMap_cons_some hg, htail]; rfl
      · rw [List.filterMap_cons_none (hk j hj), htail]
        simp [Ne.symm hj]
  exact (key _ (List.nodup_finRange n)).trans (if_pos (List.mem_finRange k))

/-- A loop that collects at most one value. -/
theorem eq_of_length_filterMap_le_one {ι : Type*} {g : ι → Option α} {l : List ι} {i j : ι}
    (h : (l.filterMap g).length ≤ 1) (hi : i ∈ l) (hj : j ∈ l) (hgi : g i ≠ none)
    (hgj : g j ≠ none) : i = j := by
  induction l with
  | nil => cases hi
  | cons k l ih =>
    cases hk : g k with
    | none =>
      rw [List.filterMap_cons_none hk] at h
      have htail : ∀ x, x ∈ k :: l → g x ≠ none → x ∈ l := by
        intro x hx hgx
        rcases List.mem_cons.mp hx with rfl | hx
        · exact absurd hk hgx
        · exact hx
      exact ih h (htail i hi hgi) (htail j hj hgj)
    | some a =>
      rw [List.filterMap_cons_some hk, List.length_cons] at h
      have hnil : l.filterMap g = [] := List.length_eq_zero_iff.mp (by omega)
      have hhead : ∀ x, x ∈ k :: l → g x ≠ none → x = k := by
        intro x hx hgx
        rcases List.mem_cons.mp hx with rfl | hx
        · rfl
        · exact absurd (List.filterMap_eq_nil_iff.mp hnil x hx) hgx
      rw [hhead i hi hgi, hhead j hj hgj]

end Patmos.Select
