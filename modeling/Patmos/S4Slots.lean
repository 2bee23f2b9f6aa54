import Patmos.S4Schedule
import Mathlib.Data.Nat.Count
import Mathlib.Data.ZMod.Basic
import Mathlib.Tactic.IntervalCases

/-!
# Slots and nodes of the S4NoC

Every route of a built-in schedule has its own start slot and its own arrival slot, and every node
has exactly one route to every other node.
-/

namespace Patmos.S4Noc

open TdmRoutes

/-- The slot in which the word of a route leaves. -/
def arrival (r : Route Dir) : ℕ := r.start + r.path.length

def Starts (n j : ℕ) : Prop := j ∈ (routes n).map Route.start

def Arrives (n j : ℕ) : Prop := j ∈ (routes n).map arrival

instance (n : ℕ) : DecidablePred (Starts n) := fun j =>
  inferInstanceAs (Decidable (j ∈ (routes n).map Route.start))

instance (n : ℕ) : DecidablePred (Arrives n) := fun j =>
  inferInstanceAs (Decidable (j ∈ (routes n).map arrival))

variable {n : ℕ} {r r' : Route Dir}

theorem arrival_mem_entries (r : Route Dir) : (arrival r, none) ∈ r.entries :=
  Route.mem_entries.mpr ⟨_, r.getElem?_outs_length, rfl⟩

theorem arrives_iff_used {j : ℕ} : Arrives n j ↔ Used (routes n) j none := by
  constructor
  · intro h
    obtain ⟨r, hr, rfl⟩ := List.mem_map.mp h
    exact ⟨r, hr, arrival_mem_entries r⟩
  · rintro ⟨r, hr, hmem⟩
    obtain ⟨i, hi, rfl⟩ := Route.mem_entries.mp hmem
    obtain rfl := Route.eq_length_of_none hi
    exact List.mem_map_of_mem hr

theorem arrival_lt (hr : r ∈ routes n) : arrival r < len n := by
  have hle := length_le_lineLen (List.mem_map_of_mem hr : line r ∈ (routes n).map line)
  rw [length_line] at hle
  exact hle

theorem start_lt (hr : r ∈ routes n) : r.start < len n :=
  (Nat.le_add_right _ _).trans_lt (arrival_lt hr)

theorem len_eq (n : ℕ) : len n = ((routes n).map fun r => arrival r + 1).foldr max 0 := by
  rw [len, lineLen, List.map_map]
  congr 1
  exact List.map_congr_left fun r _ => length_line r

/-! ### One route for each slot -/

theorem nodup_starts (hn : n ≤ 10) : ((routes n).map Route.start).Nodup :=
  (starts_increase hn).imp ne_of_lt

theorem eq_of_start_eq (hn : n ≤ 10) (hr : r ∈ routes n) (hr' : r' ∈ routes n)
    (h : r.start = r'.start) : r = r' :=
  List.inj_on_of_nodup_map (nodup_starts hn) hr hr' h

theorem eq_of_arrival_eq (hn : n ≤ 10) (hr : r ∈ routes n) (hr' : r' ∈ routes n)
    (h : arrival r = arrival r') : r = r' := by
  have hmem := arrival_mem_entries r'
  rw [← h] at hmem
  exact (compatible_routes hn).eq_of_mem hr hr' (arrival_mem_entries r) hmem

theorem nodup_arrivals (hn : n ≤ 10) : ((routes n).map arrival).Nodup :=
  List.Nodup.map_on (fun _ hr _ hr' h => eq_of_arrival_eq hn hr hr' h)
    (List.Nodup.of_map _ (nodup_starts hn))

/-- A list without repetition that lies below a bound is counted there. -/
theorem count_mem {l : List ℕ} (hnodup : l.Nodup) {bound : ℕ} (hlt : ∀ j ∈ l, j < bound) :
    Nat.count (· ∈ l) bound = l.length := by
  rw [Nat.count_eq_card_filter_range, ← List.toFinset_card_of_nodup hnodup]
  congr 1
  ext j
  rw [Finset.mem_filter, Finset.mem_range, List.mem_toFinset]
  exact ⟨fun h => h.2, fun h => ⟨hlt j h, h⟩⟩

theorem length_routes (h2 : 2 ≤ n) (h10 : n ≤ 10) : (routes n).length = n * n - 1 := by
  interval_cases n <;> rfl

theorem exists_mem_routes (h2 : 2 ≤ n) (h10 : n ≤ 10) : ∃ r, r ∈ routes n := by
  apply List.exists_mem_of_ne_nil
  interval_cases n <;> exact List.cons_ne_nil _ _

theorem len_pos (h2 : 2 ≤ n) (h10 : n ≤ 10) : 0 < len n := by
  obtain ⟨r, hr⟩ := exists_mem_routes h2 h10
  exact Nat.zero_lt_of_lt (arrival_lt hr)

theorem len_lt (h2 : 2 ≤ n) (h10 : n ≤ 10) : len n < 2 * (n * n - 1) := by
  rw [len_eq]
  interval_cases n <;> decide +kernel

theorem count_starts (h2 : 2 ≤ n) (h10 : n ≤ 10) :
    Nat.count (Starts n) (len n) = n * n - 1 := by
  rw [← length_routes h2 h10, ← List.length_map Route.start]
  refine count_mem (nodup_starts h10) fun j hj => ?_
  obtain ⟨r, hr, rfl⟩ := List.mem_map.mp hj
  exact start_lt hr

theorem count_arrives (h2 : 2 ≤ n) (h10 : n ≤ 10) :
    Nat.count (Arrives n) (len n) = n * n - 1 := by
  rw [← length_routes h2 h10, ← List.length_map arrival]
  refine count_mem (nodup_arrivals h10) fun j hj => ?_
  obtain ⟨r, hr, rfl⟩ := List.mem_map.mp hj
  exact arrival_lt hr

/-! ### The table of start slots -/

theorem getElem?_line_of_lt {i : ℕ} (h : i < r.start) : (line r)[i]? = some .blank := by
  rw [line, List.getElem?_append_left (by rw [List.length_replicate]; exact h),
    List.getElem?_replicate, if_pos h]

theorem getElem?_line_start (r : Route Dir) : ∃ c, (line r)[r.start]? = some c ∧ c ≠ .blank := by
  have hfirst : (line r)[r.start]? = (r.path.map Sym.dir ++ [.l])[0]? := by
    rw [line, List.getElem?_append_right (by rw [List.length_replicate]), List.length_replicate,
      Nat.sub_self]
  rw [hfirst]
  cases r.path with
  | nil | cons d ds => exact ⟨_, rfl, Sym.noConfusion⟩

theorem validFrom_nil (k i : ℕ) : validFrom k i [] = some (List.replicate (k + 1) false) := by
  induction k generalizing i with
  | zero => rfl
  | succ k ih =>
    rw [validFrom, ih]
    rfl

/-- The loop marks the start slots of routes that are in the order of these slots. -/
theorem validFrom_eq {rs : List (Route Dir)} (k i : ℕ)
    (hsorted : (rs.map Route.start).Pairwise (· < ·))
    (hbound : ∀ r ∈ rs, i ≤ r.start ∧ r.start < i + k) :
    validFrom k i (rs.map line) =
      some ((List.range' i (k + 1)).map fun j => decide (j ∈ rs.map Route.start)) := by
  induction k generalizing i rs with
  | zero =>
    cases rs with
    | nil => rfl
    | cons r rs =>
      have := hbound r List.mem_cons_self
      omega
  | succ k ih =>
    cases rs with
    | nil =>
      rw [List.map_nil, validFrom_nil]
      simp [List.map_const']
    | cons r rs =>
      have hr := hbound r List.mem_cons_self
      have hlater : ∀ r' ∈ rs, r.start < r'.start := by
        intro r' hr'
        rw [List.map_cons, List.pairwise_cons] at hsorted
        exact hsorted.1 _ (List.mem_map_of_mem hr')
      rw [List.map_cons, validFrom, List.range'_succ, List.map_cons]
      rcases lt_or_eq_of_le hr.1 with hlt | heq
      · -- no route begins in this slot
        have hbound' : ∀ r' ∈ r :: rs, i + 1 ≤ r'.start ∧ r'.start < i + 1 + k := by
          intro r' hr'
          have hold := hbound r' hr'
          rcases List.mem_cons.mp hr' with rfl | hrest
          · omega
          · have := hlater r' hrest
            omega
        have hnone : i ∉ (r :: rs).map Route.start := by
          intro hmem
          obtain ⟨r', hr', heq⟩ := List.mem_map.mp hmem
          have := hbound' r' hr'
          omega
        rw [getElem?_line_of_lt hlt, decide_eq_false hnone]
        change Option.map _ (validFrom k (i + 1) ((r :: rs).map line)) = _
        rw [ih (i + 1) hsorted hbound']
        rfl
      · -- the first route begins in this slot
        have hbound' : ∀ r' ∈ rs, i + 1 ≤ r'.start ∧ r'.start < i + 1 + k := by
          intro r' hr'
          have hold := hbound r' (List.mem_cons_of_mem r hr')
          have := hlater r' hr'
          omega
        have hrest : (rs.map Route.start).Pairwise (· < ·) := by
          rw [List.map_cons, List.pairwise_cons] at hsorted
          exact hsorted.2
        have hfirst : i ∈ (r :: rs).map Route.start := by
          rw [heq]
          exact List.mem_map_of_mem List.mem_cons_self
        obtain ⟨c, hc, hne⟩ := getElem?_line_start r
        rw [heq, hc, ← heq, decide_eq_true hfirst]
        change (if c = .blank then _ else _) = _
        rw [if_neg hne, ih (i + 1) hrest hbound', Option.map_some]
        congr 2
        refine List.map_congr_left fun j hj => ?_
        rw [List.mem_range'_1] at hj
        have hne' : j ≠ r.start := by omega
        rw [List.map_cons, decide_eq_decide, List.mem_cons]
        exact ⟨Or.inr, fun h => h.resolve_left hne'⟩

theorem validTable_eq (h2 : 2 ≤ n) (h10 : n ≤ 10) :
    validTable n = some ((List.range (len n)).map fun j => decide (Starts n j)) := by
  have hpath : ∀ r ∈ routes n, r.path ≠ [] := by
    interval_cases n <;> decide +kernel
  have hbound : ∀ r ∈ routes n, 0 ≤ r.start ∧ r.start < 0 + (len n - 1) := by
    intro r hr
    have hlt := arrival_lt hr
    have hpos := List.length_pos_of_ne_nil (hpath r hr)
    rw [arrival] at hlt
    omega
  have hlen : len n - 1 + 1 = len n := Nat.sub_add_cancel (len_pos h2 h10)
  rw [validTable, if_pos ⟨h2, h10⟩, validFrom_eq _ 0 (starts_increase h10) hbound, hlen,
    List.range_eq_range']
  rfl

/-! ### Leaks -/

/-- Routes that do not go south do not leak, for the default is north. -/
theorem not_leaks_of_not_mem (h : Dir.s ∉ r.path) : ¬ Leaks (links n) (routes n) .n (len n) r := by
  rintro ⟨i, -, hpath, -⟩
  exact h (List.mem_of_getElem? hpath)

theorem not_leaks_two : ∀ r ∈ routes 2, ¬ Leaks (links 2) (routes 2) .n (len 2) r := by
  have hpaths : ∀ r ∈ routes 2, Dir.s ∉ r.path := by decide
  exact fun r hr => not_leaks_of_not_mem (hpaths r hr)

/-- A hop to the south, and later a slot in which nothing arrives before the next such hop. -/
theorem leaks_of_not_arrives (i d : ℕ) (hpath : r.path[i]? = some .s) (hd : d < len n)
    (hfree : ∀ d' < d, ¬ Used (routes n) ((r.start + i + d' + 1) % len n) SOUTH)
    (hlocal : ¬ Arrives n ((r.start + i + d + 1) % len n)) :
    Leaks (links n) (routes n) .n (len n) r := by
  obtain ⟨hi, -⟩ := List.getElem?_eq_some_iff.mp hpath
  exact ⟨i, hi, hpath, d, hd, fun hused => hlocal (arrives_iff_used.mpr hused), hfree⟩

/-- Nothing arrives in the slot after the hop. -/
theorem leaks_of_next (i : ℕ) (hr : r ∈ routes n) (hpath : r.path[i]? = some .s)
    (hlocal : ¬ Arrives n (r.start + i + 1)) : Leaks (links n) (routes n) .n (len n) r := by
  obtain ⟨hi, -⟩ := List.getElem?_eq_some_iff.mp hpath
  have hlt := arrival_lt hr
  rw [arrival] at hlt
  refine leaks_of_not_arrives i 0 hpath (by omega) (fun d' hd' => absurd hd' (Nat.not_lt_zero _)) ?_
  rw [Nat.add_zero, Nat.mod_eq_of_lt (by omega)]
  exact hlocal

/-- All larger networks have routes that leak. -/
theorem exists_leaks (h3 : 3 ≤ n) (h10 : n ≤ 10) :
    ∃ r ∈ routes n, Leaks (links n) (routes n) .n (len n) r := by
  interval_cases n
  · exact ⟨⟨7, [.s]⟩, by decide, leaks_of_not_arrives 0 2 rfl (by decide) (by decide) (by decide)⟩
  · exact ⟨⟨1, [.e, .s]⟩, by decide,
      leaks_of_not_arrives 1 2 rfl (by decide) (by decide +kernel) (by decide)⟩
  · exact ⟨⟨1, [.s, .s, .w, .w]⟩, by decide, leaks_of_next 0 (by decide) rfl (by decide)⟩
  · exact ⟨⟨2, [.s, .w]⟩, by decide, leaks_of_next 0 (by decide) rfl (by decide)⟩
  · exact ⟨⟨1, [.s, .s, .s, .w, .w, .w]⟩, by decide, leaks_of_next 0 (by decide) rfl (by decide)⟩
  · exact ⟨⟨2, [.s, .w, .w, .w]⟩, by decide, leaks_of_next 0 (by decide) rfl (by decide)⟩
  · exact ⟨⟨1, [.s, .s, .s, .s, .w, .w, .w, .w]⟩, by decide,
      leaks_of_next 0 (by decide) rfl (by decide +kernel)⟩
  · exact ⟨⟨1, [.e, .e, .e, .e, .s, .s, .s, .s]⟩, by decide,
      leaks_of_next 6 (by decide) rfl (by decide +kernel)⟩

/-! ### One route for each pair of nodes -/

/-- The index of a node. -/
def index (v : Node n) : ℕ := v.1.val * n + v.2.val

theorem index_injective [NeZero n] : Function.Injective (index : Node n → ℕ) := by
  intro v w h
  have hv := ZMod.val_lt v.2
  have hw := ZMod.val_lt w.2
  have hpos : 0 < n := NeZero.pos n
  have hrow : v.1.val = w.1.val := by
    have hdiv := congrArg (· / n) h
    simpa only [index, mul_comm _ n, Nat.mul_add_div hpos, Nat.div_eq_of_lt hv,
      Nat.div_eq_of_lt hw, add_zero] using hdiv
  have hcolumn : v.2.val = w.2.val := by
    rw [index, index, hrow] at h
    exact add_left_cancel h
  exact Prod.ext (ZMod.val_injective n hrow) (ZMod.val_injective n hcolumn)

theorem index_lt [NeZero n] (v : Node n) : index v < n * n := by
  have hrow := ZMod.val_lt v.1
  have hcolumn := ZMod.val_lt v.2
  calc v.1.val * n + v.2.val < v.1.val * n + n := Nat.add_lt_add_left hcolumn _
    _ = (v.1.val + 1) * n := (Nat.succ_mul _ _).symm
    _ ≤ n * n := Nat.mul_le_mul_right n hrow

@[simp] theorem index_zero : index (0 : Node n) = 0 := by
  rw [index, Prod.fst_zero, Prod.snd_zero, ZMod.val_zero, Nat.zero_mul]

/-- The routes lead to all nodes but the one where they begin. -/
theorem exists_total_iff (h2 : 2 ≤ n) (h10 : n ≤ 10) (v : Node n) :
    (∃ r ∈ routes n, r.total (links n) = v) ↔ v ≠ 0 := by
  have hbits : bits (fun r => index (r.total (links n))) (routes n) =
      bits id (List.range' 1 (n * n - 1)) := by
    interval_cases n <;> decide +kernel
  have : NeZero n := ⟨by omega⟩
  have hindex : (∃ r ∈ routes n, index (r.total (links n)) = index v) ↔
      ∃ k ∈ List.range' 1 (n * n - 1), k = index v := by
    rw [← testBit_bits_iff fun r : Route Dir => index (r.total (links n)), hbits,
      testBit_bits_iff]
    rfl
  simp only [index_injective.eq_iff, exists_eq_right, List.mem_range'_1] at hindex
  rw [hindex, ← index_injective.ne_iff, index_zero]
  have := index_lt v
  omega

theorem nodup_totals (h2 : 2 ≤ n) (h10 : n ≤ 10) :
    ((routes n).map (Route.total (links n))).Nodup := by
  have : NeZero n := ⟨by omega⟩
  -- as many as there are other nodes
  have hall : ((routes n).map (Route.total (links n))).toFinset = Finset.univ.erase 0 := by
    ext v
    rw [List.mem_toFinset, List.mem_map, exists_total_iff h2 h10, Finset.mem_erase]
    exact ⟨fun h => ⟨h, Finset.mem_univ v⟩, fun h => h.1⟩
  rw [← Multiset.coe_nodup, ← Multiset.toFinset_card_eq_card_iff_nodup]
  change ((routes n).map (Route.total (links n))).toFinset.card =
    ((routes n).map (Route.total (links n))).length
  rw [hall, Finset.card_erase_of_mem (Finset.mem_univ _), Finset.card_univ, Fintype.card_prod,
    ZMod.card, List.length_map, length_routes h2 h10]

/-- Every node has exactly one route to every other one. -/
theorem exists_route (h2 : 2 ≤ n) (h10 : n ≤ 10) {v : Node n} (hv : v ≠ 0) :
    ∃ r ∈ routes n, r.total (links n) = v ∧
      ∀ r' ∈ routes n, r'.total (links n) = v → r' = r := by
  obtain ⟨r, hr, htotal⟩ := (exists_total_iff h2 h10 v).mpr hv
  refine ⟨r, hr, htotal, fun r' hr' htotal' => ?_⟩
  exact List.inj_on_of_nodup_map (nodup_totals h2 h10) hr' hr (htotal'.trans htotal.symm)

theorem total_ne_zero (h2 : 2 ≤ n) (h10 : n ≤ 10) (hr : r ∈ routes n) :
    r.total (links n) ≠ 0 :=
  (exists_total_iff h2 h10 _).mp ⟨r, hr, rfl⟩

end Patmos.S4Noc
