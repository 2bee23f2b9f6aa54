import Patmos.S4Slots

/-!
# Schedules of the two-way memory

The requests of the two-way memory travel by the routes of the S4NoC and the replies by the same
routes turned round.  From the lines of a schedule come the tables of both networks and the tables
of the network interfaces: in which slot a node sends to another one, in which slots requests
arrive, and how long a reply waits until its route begins.
-/

namespace Patmos.TwoWay

open TdmRoutes S4Noc

/-! ### The tables -/

def invertMap : Sym → Sym
  | .dir d => .dir (opp d)
  | c => c

/-- The lines of a schedule. -/
def split (n : ℕ) (inverted : Bool) : List (List Sym) :=
  if inverted then ((routes n).map line).map (List.map invertMap) else (routes n).map line

/-- The table of a network; the default is south in the inverted one. -/
def getSchedule (n : ℕ) (inverted : Bool) : Option Table :=
  if 2 ≤ n ∧ n ≤ 10 then readLines (if inverted then SOUTH else NORTH) (split n inverted) else none

/-- One character on the way from a node: the index of the node that is reached, and the slot in
    which the way begins. -/
def walk (n : ℕ) (x : ℕ × ℕ) : Sym → ℕ × ℕ
  | .blank => (x.1, x.2 + 1)
  | .dir .e => (if (x.1 + 1) % n = 0 then x.1 - (n - 1) else x.1 + 1, x.2)
  | .dir .w => (if x.1 % n = 0 then x.1 + (n - 1) else x.1 - 1, x.2)
  | .dir .n => (if x.1 < n then x.1 + n * (n - 1) else x.1 - n, x.2)
  | .dir .s => (if n * (n - 1) ≤ x.1 ∧ x.1 < n * n then x.1 - n * (n - 1) else x.1 + n, x.2)
  | .l => x

/-- The slot in which node `nodeIndex` sends to a node. -/
def timeSlotToNode (n nodeIndex : ℕ) : ℕ → ℕ :=
  (split n false).foldl
    (fun tab l => Function.update tab (l.foldl (walk n) (nodeIndex, 0)).1
      (l.foldl (walk n) (nodeIndex, 0)).2)
    fun _ => 0

/-- The length of the first line. -/
def clockOffSet (n : ℕ) : ℕ := ((split n false).headD []).length

/-- By how much the inverted network is ahead. -/
def timeShift (n : ℕ) : ℕ := len n - clockOffSet n - 1

/-- The entries of `bufferLookup` up to the first slot of a line: `-1` in the slots without a line,
    and how much shorter than the first line it is. -/
def lookupStep (offSet : ℤ) (acc : List ℤ) (l : List Sym) : List ℤ :=
  let rest := l.drop acc.length
  let blanks := (rest.takeWhile (· = .blank)).length
  acc ++ List.replicate blanks (-1) ++
    if blanks < rest.length then [offSet - (rest.length - blanks)] else []

/-- `-1` up to the end of the last line, and 0 where nothing is set. -/
def bufferLookup (n : ℕ) : List ℤ :=
  let acc := (split n false).foldl (lookupStep (clockOffSet n)) []
  acc ++ List.replicate (((split n false).getLastD []).length - acc.length) (-1)

/-- The slots in which a request arrives. -/
def localValid (n j : ℕ) : Bool := (split n false).any fun l => l[j]? = some .l

variable {n : ℕ} {r r' : Route Dir}

/-! ### Both networks -/

theorem line_invertMap (n : ℕ) (r : Route Dir) :
    (line r).map invertMap = line (r.back (links n)) := by
  simp [line, Route.back, Function.comp_def, invertMap, links]

theorem split_true : split n true = ((routes n).map (Route.back (links n))).map line := by
  rw [split, if_pos rfl, List.map_map, List.map_map]
  exact List.map_congr_left fun r _ => line_invertMap n r

theorem lineLen_back (rs : List (Route Dir)) :
    lineLen ((rs.map (Route.back (links n))).map line) = lineLen (rs.map line) := by
  rw [lineLen, lineLen, List.map_map, List.map_map, List.map_map]
  congr 1
  exact List.map_congr_left fun r _ => by simp [length_line, Route.back]

/-- The table of the requests is that of the S4NoC. -/
theorem getSchedule_false (n : ℕ) : getSchedule n false = S4Noc.getSchedule n := rfl

theorem getSchedule_true_eq (h2 : 2 ≤ n) (h10 : n ≤ 10) :
    getSchedule n true =
      some (placeAll (fun _ _ => SOUTH) ((routes n).map (Route.back (links n)))) := by
  rw [getSchedule, if_pos ⟨h2, h10⟩, if_pos rfl, split_true, readLines_eq]

/-- The table of the replies. -/
theorem implements_back (h10 : n ≤ 10) :
    Implements (links n) ((routes n).map (Route.back (links n))) .s (len n)
      (placeAll (fun _ _ => SOUTH) ((routes n).map (Route.back (links n)))) := by
  rw [len, ← lineLen_back (n := n)]
  exact implements_of_compatible n (compatible_routes h10).back .s

/-! ### The slot of a node -/

/-- The steps between indices are those on the torus. -/
theorem walk_dir (h2 : 2 ≤ n) (h10 : n ≤ 10) (d : Dir) (v : Node n) (s : ℕ) :
    walk n (index v, s) (.dir d) = (index (v + step d), s) := by
  have hslot : walk n (index v, s) (.dir d) = ((walk n (index v, 0) (.dir d)).1, s) := by
    cases d <;> rfl
  have hnode : ∀ v : Node n, (walk n (index v, 0) (.dir d)).1 = index (v + step d) := by
    cases d <;> interval_cases n <;> decide +kernel
  rw [hslot, hnode v]

theorem foldl_walk_blanks (k : ℕ) (x : ℕ × ℕ) :
    (List.replicate k Sym.blank).foldl (walk n) x = (x.1, x.2 + k) := by
  induction k generalizing x with
  | zero => rfl
  | succ k ih =>
    rw [List.replicate_succ, List.foldl_cons, ih, walk]
    congr 1
    omega

theorem foldl_walk_path (h2 : 2 ≤ n) (h10 : n ≤ 10) (ds : List Dir) (v : Node n) (s : ℕ) :
    (ds.map Sym.dir).foldl (walk n) (index v, s) = (index (v + (ds.map step).sum), s) := by
  induction ds generalizing v with
  | nil => simp
  | cons d ds ih =>
    rw [List.map_cons, List.foldl_cons, walk_dir h2 h10, ih, List.map_cons, List.sum_cons,
      add_assoc]

theorem foldl_walk_line (h2 : 2 ≤ n) (h10 : n ≤ 10) (v : Node n) (r : Route Dir) :
    (line r).foldl (walk n) (index v, 0) = (index (v + r.total (links n)), r.start) := by
  rw [line, List.foldl_append, foldl_walk_blanks, List.foldl_append, foldl_walk_path h2 h10]
  simp [walk, Route.total, links]

/-- Cells that are written one after the other keep what was written, if they differ. -/
theorem foldl_update_of_nodup {β : Type} (key val : β → ℕ) {l : List β} (h : (l.map key).Nodup)
    (tab : ℕ → ℕ) {x : β} (hx : x ∈ l) :
    l.foldl (fun tab y => Function.update tab (key y) (val y)) tab (key x) = val x := by
  have hkeep : ∀ (l : List β) (tab : ℕ → ℕ) (k : ℕ), k ∉ l.map key →
      l.foldl (fun tab y => Function.update tab (key y) (val y)) tab k = tab k := by
    intro l
    induction l with
    | nil => exact fun _ _ _ => rfl
    | cons y l ih =>
      intro tab k hk
      rw [List.map_cons, List.mem_cons, not_or] at hk
      rw [List.foldl_cons, ih _ k hk.2, Function.update_of_ne hk.1]
  induction l generalizing tab with
  | nil => cases hx
  | cons y l ih =>
    rw [List.map_cons, List.nodup_cons] at h
    rw [List.foldl_cons]
    rcases List.mem_cons.mp hx with rfl | hrest
    · rw [hkeep l _ _ h.1, Function.update_self]
    · exact ih h.2 _ hrest

theorem timeSlotToNode_eq (h2 : 2 ≤ n) (h10 : n ≤ 10) (v : Node n) (hr : r ∈ routes n) :
    timeSlotToNode n (index v) (index (v + r.total (links n))) = r.start := by
  have : NeZero n := ⟨by omega⟩
  have hkeys : ((routes n).map fun r => index (v + r.total (links n))).Nodup := by
    have hcomp : (fun r : Route Dir => index (v + r.total (links n))) =
        (fun w => index (v + w)) ∘ Route.total (links n) := rfl
    rw [hcomp, ← List.map_map]
    refine (nodup_totals h2 h10).map fun w w' heq => ?_
    rw [← add_sub_cancel_left v w, index_injective heq, add_sub_cancel_left]
  rw [timeSlotToNode, split, if_neg Bool.false_ne_true, List.foldl_map]
  simp only [foldl_walk_line h2 h10]
  exact foldl_update_of_nodup _ Route.start hkeys (fun _ => 0) hr

/-! ### The slots in which requests arrive -/

theorem getElem?_line_arrival (r : Route Dir) : (line r)[arrival r]? = some .l := by
  have hlen : arrival r = (List.replicate r.start Sym.blank ++ r.path.map Sym.dir).length := by
    simp [arrival]
  rw [line, ← List.append_assoc, hlen]
  exact List.getElem?_concat_length

theorem eq_arrival_of_getElem? {j : ℕ} (h : (line r)[j]? = some .l) : j = arrival r := by
  have hlt : j < (line r).length := (List.getElem?_eq_some_iff.mp h).1
  rw [length_line, ← add_assoc] at hlt
  rcases lt_or_eq_of_le (Nat.le_of_lt_succ hlt) with hin | hlast
  · have hsplit : j < (List.replicate r.start Sym.blank ++ r.path.map Sym.dir).length := by
      simpa using hin
    rw [line, ← List.append_assoc, List.getElem?_append_left hsplit] at h
    have hmem := List.mem_of_getElem? h
    simp at hmem
  · exact hlast

theorem localValid_iff {j : ℕ} : localValid n j = true ↔ Arrives n j := by
  rw [localValid, List.any_eq_true]
  constructor
  · rintro ⟨l, hl, hchar⟩
    obtain ⟨r, hr, rfl⟩ := List.mem_map.mp hl
    rw [eq_arrival_of_getElem? (of_decide_eq_true hchar)]
    exact List.mem_map_of_mem hr
  · intro h
    obtain ⟨r, hr, rfl⟩ := List.mem_map.mp h
    exact ⟨line r, List.mem_map_of_mem hr, decide_eq_true (getElem?_line_arrival r)⟩

/-! ### How long a reply waits -/

theorem lookupStep_line (offSet : ℤ) {acc : List ℤ} (h : acc.length ≤ r.start) :
    lookupStep offSet acc (line r) =
      acc ++ List.replicate (r.start - acc.length) (-1) ++ [offSet - (r.path.length + 1 : ℕ)] := by
  have hdrop : (line r).drop acc.length =
      List.replicate (r.start - acc.length) Sym.blank ++ (r.path.map .dir ++ [.l]) := by
    rw [line, List.drop_append_of_le_length (by simpa using h), List.drop_replicate]
  have hblanks : (((line r).drop acc.length).takeWhile (· = .blank)).length =
      r.start - acc.length := by
    rw [hdrop, List.takeWhile_append_of_pos (by simp), List.length_append, List.length_replicate]
    cases r.path <;> simp
  have hrest : ((line r).drop acc.length).length = r.start - acc.length + (r.path.length + 1) := by
    rw [hdrop]
    simp
  simp only [lookupStep, hblanks, hrest]
  rw [if_pos (by omega)]
  congr 2
  push_cast
  rw [add_sub_cancel_left]

/-- The entries of the slots from the end of `acc` on. -/
theorem foldl_lookupStep (offSet : ℤ) {rs : List (Route Dir)} {acc : List ℤ}
    (hsorted : (rs.map Route.start).Pairwise (· < ·)) (hacc : ∀ r ∈ rs, acc.length ≤ r.start) :
    acc <+: (rs.map line).foldl (lookupStep offSet) acc ∧
      (∀ r ∈ rs, ((rs.map line).foldl (lookupStep offSet) acc)[r.start]? =
        some (offSet - (r.path.length + 1 : ℕ))) ∧
      ∀ j, acc.length ≤ j → ∀ y, ((rs.map line).foldl (lookupStep offSet) acc)[j]? = some y →
        j ∉ rs.map Route.start → y = -1 := by
  induction rs generalizing acc with
  | nil =>
    refine ⟨List.prefix_refl _, fun r hr => absurd hr List.not_mem_nil, fun j hj y hy _ => ?_⟩
    rw [List.map_nil, List.foldl_nil, List.getElem?_eq_none hj] at hy
    cases hy
  | cons r rs ih =>
    rw [List.map_cons, List.pairwise_cons] at hsorted
    have hr := hacc r List.mem_cons_self
    have hstep := lookupStep_line offSet hr
    -- the entries up to the start of the route
    set acc' := lookupStep offSet acc (line r)
    have hlen : acc'.length = r.start + 1 := by
      rw [hstep]
      simp only [List.length_append, List.length_replicate, List.length_singleton]
      omega
    have hacc' : ∀ r' ∈ rs, acc'.length ≤ r'.start := by
      intro r' hr'
      rw [hlen]
      exact hsorted.1 _ (List.mem_map_of_mem hr')
    obtain ⟨hpre, hstarts, hother⟩ := ih hsorted.2 hacc'
    rw [List.map_cons, List.foldl_cons]
    have hkept : ∀ j < acc'.length,
        ((rs.map line).foldl (lookupStep offSet) acc')[j]? = acc'[j]? := by
      intro j hj
      obtain ⟨tail, htail⟩ := hpre
      rw [← htail, List.getElem?_append_left hj]
    have hpair : (acc ++ List.replicate (r.start - acc.length) (-1)).length = r.start := by
      simp only [List.length_append, List.length_replicate]
      omega
    refine ⟨List.IsPrefix.trans ?_ hpre, fun r' hr' => ?_, fun j hj y hy hnot => ?_⟩
    · rw [hstep, List.append_assoc]
      exact List.prefix_append _ _
    · rcases List.mem_cons.mp hr' with rfl | hrest
      · rw [hkept _ (by omega), hstep]
        rw [List.getElem?_append_right hpair.le, hpair, Nat.sub_self]
        rfl
      · exact hstarts r' hrest
    · rw [List.map_cons, List.mem_cons, not_or] at hnot
      rcases Nat.lt_or_ge j acc'.length with hin | hout
      · have hbefore : j < r.start := by omega
        rw [hkept j hin, hstep, List.getElem?_append_left (by omega),
          List.getElem?_append_right hj, List.getElem?_replicate, if_pos (by omega)] at hy
        exact (Option.some.inj hy).symm
      · exact hother j hout y hy hnot.2

/-- The entries that are set before the last ones are filled up. -/
theorem lookupStep_routes (h10 : n ≤ 10) :
    (∀ r ∈ routes n, ((split n false).foldl (lookupStep (clockOffSet n)) [])[r.start]? =
      some ((clockOffSet n : ℤ) - (r.path.length + 1 : ℕ))) ∧
    ∀ j y, ((split n false).foldl (lookupStep (clockOffSet n)) [])[j]? = some y →
      ¬ Starts n j → y = -1 := by
  have hacc : ∀ r ∈ routes n, ([] : List ℤ).length ≤ r.start := fun r _ => Nat.zero_le _
  obtain ⟨-, hstarts, hother⟩ :=
    foldl_lookupStep (clockOffSet n) (starts_increase h10) hacc
  exact ⟨hstarts, fun j => hother j (Nat.zero_le j)⟩

theorem bufferLookup_start (h10 : n ≤ 10) (hr : r ∈ routes n) :
    (bufferLookup n)[r.start]? = some ((clockOffSet n : ℤ) - (r.path.length + 1 : ℕ)) := by
  have hstart := (lookupStep_routes h10).1 r hr
  rw [bufferLookup, List.getElem?_append_left (List.getElem?_eq_some_iff.mp hstart).1, hstart]

/-- The last line is the longest. -/
theorem length_getLastD_split (h2 : 2 ≤ n) (h10 : n ≤ 10) :
    ((split n false).getLastD []).length = len n := by
  rw [len_eq]
  interval_cases n <;> decide +kernel

theorem bufferLookup_of_not_starts (h2 : 2 ≤ n) (h10 : n ≤ 10) {j : ℕ} (hj : j < len n)
    (hnot : ¬ Starts n j) : (bufferLookup n)[j]? = some (-1) := by
  simp only [bufferLookup, length_getLastD_split h2 h10]
  rcases lt_or_ge j ((split n false).foldl (lookupStep (clockOffSet n)) []).length with hin | hout
  · have hset := List.getElem?_eq_getElem hin
    rw [List.getElem?_append_left hin, hset, (lookupStep_routes h10).2 j _ hset hnot]
  · rw [List.getElem?_append_right hout, List.getElem?_replicate, if_pos (by omega)]

/-- No route is longer than the first one, which fits in a period with two cycles to spare. -/
theorem length_le_clockOffSet (h2 : 2 ≤ n) (h10 : n ≤ 10) :
    ∀ r ∈ routes n, r.path.length + 1 ≤ clockOffSet n := by
  interval_cases n <;> decide +kernel

theorem clockOffSet_lt (h2 : 2 ≤ n) (h10 : n ≤ 10) : clockOffSet n < len n := by
  rw [len_eq]
  interval_cases n <;> decide +kernel

end Patmos.TwoWay
