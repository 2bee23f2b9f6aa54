import Mathlib.Algebra.BigOperators.Group.List.Basic
import Mathlib.Algebra.Group.Basic
import Mathlib.Data.List.Pairwise
import Mathlib.Data.Nat.Basic
import Mathlib.Data.Nat.Bitwise
import Mathlib.Data.Nat.Init

/-!
# Routes of a time-division network

The nodes of the network form a group, and all of them are wired and switched alike.  A node has a
local port and one port for each direction; the output of a port is a register, which in every
cycle takes the input that the row of the current slot gives for the port, and the input of a
direction is the output of the opposite direction at the neighbour.  Rows repeat after `len`
slots.

A route begins in a slot at the local input of a node and takes one hop in each slot.  When the
table of rows holds the hops of all routes, what is at a local output in the last slot of a route
is what was at the local input of its first node in its first slot.  In the other slots of a port
the table has a default direction, so that what one port carries can leave by all ports that no
route uses.
-/

namespace Patmos.TdmRoutes

/-- The directions of a network with nodes in `G`; `none` is the local port. -/
structure Links (D G : Type) [AddCommGroup G] where
  dir : D → G
  opp : D → D
  opp_opp : ∀ d, opp (opp d) = d
  dir_opp : ∀ d, dir (opp d) = -dir d

variable {D G α : Type} [AddCommGroup G]

namespace Links

variable (L : Links D G)

/-- The input of a port at node `v`. -/
def input (inj : G → α) (out : G → Option D → α) (v : G) : Option D → α
  | none => inj v
  | some d => out (v + L.dir d) (some (L.opp d))

/-- One cycle of all routers, with the row of the current slot. -/
def step (row : Option D → Option D) (inj : G → α) (out : G → Option D → α) :
    G → Option D → α :=
  fun v p => L.input inj out v (row p)

end Links

/-- A route: its first slot, and the directions it takes before the local port. -/
structure Route (D : Type) where
  start : ℕ
  path : List D
deriving DecidableEq

namespace Route

/-- The output ports of the hops. -/
def outs (r : Route D) : List (Option D) := r.path.map some ++ [none]

/-- The slot and the output port of each hop. -/
def entries (r : Route D) : List (ℕ × Option D) := r.outs.zipIdx.map fun x => (r.start + x.2, x.1)

section Links

variable (L : Links D G)

/-- The input ports of the hops. -/
def srcs (r : Route D) : List (Option D) := none :: r.path.map fun d => some (L.opp d)

/-- How far the first `i` hops lead. -/
def disp (r : Route D) (i : ℕ) : G := ((r.path.take i).map L.dir).sum

/-- Where the route leads. -/
def total (r : Route D) : G := (r.path.map L.dir).sum

/-- The table has the hops of the route. -/
def Sets (r : Route D) (table : ℕ → Option D → Option D) : Prop :=
  ∀ i p q, r.outs[i]? = some p → (r.srcs L)[i]? = some q → table (r.start + i) p = q

end Links

theorem mem_entries {r : Route D} {j : ℕ} {p : Option D} :
    (j, p) ∈ r.entries ↔ ∃ i, r.outs[i]? = some p ∧ r.start + i = j := by
  simp only [entries, List.mem_map, Prod.mk.injEq, Prod.exists, List.mk_mem_zipIdx_iff_getElem?]
  constructor
  · rintro ⟨q, i, hq, hj, rfl⟩
    exact ⟨i, hq, hj⟩
  · rintro ⟨i, hp, hj⟩
    exact ⟨p, i, hp, hj, rfl⟩

theorem mem_entries_nil {j j' : ℕ} {p : Option D} :
    (j', p) ∈ entries ⟨j, []⟩ ↔ (j', p) = (j, none) := by
  simp [entries, outs]

theorem mem_entries_cons {j j' : ℕ} {p : Option D} {d : D} {ds : List D} :
    (j', p) ∈ entries ⟨j, d :: ds⟩ ↔ (j', p) = (j, some d) ∨ (j', p) ∈ entries ⟨j + 1, ds⟩ := by
  rw [mem_entries, mem_entries]
  constructor
  · rintro ⟨i, hp, rfl⟩
    cases i with
    | zero =>
      left
      simp only [outs, List.map_cons, List.cons_append, List.getElem?_cons_zero] at hp
      rw [← Option.some.inj hp]
      rfl
    | succ i =>
      right
      simp only [outs, List.map_cons, List.cons_append, List.getElem?_cons_succ] at hp
      exact ⟨i, hp, by simp only; omega⟩
  · rintro (heq | ⟨i, hp, rfl⟩)
    · obtain ⟨rfl, rfl⟩ := Prod.mk.inj heq
      exact ⟨0, rfl, rfl⟩
    · refine ⟨i + 1, ?_, by simp only; omega⟩
      simpa only [outs, List.map_cons, List.cons_append, List.getElem?_cons_succ] using hp

theorem start_le_of_mem {r : Route D} {j : ℕ} {p : Option D} (h : (j, p) ∈ r.entries) :
    r.start ≤ j := by
  obtain ⟨i, -, rfl⟩ := mem_entries.mp h
  exact Nat.le_add_right _ _

theorem outs_length (r : Route D) : r.outs.length = r.path.length + 1 := by
  simp [outs]

theorem getElem?_outs {r : Route D} {i : ℕ} {d : D} (h : r.path[i]? = some d) :
    r.outs[i]? = some (some d) := by
  have hlt : i < (r.path.map some).length := by
    rw [List.length_map]
    exact (List.getElem?_eq_some_iff.mp h).1
  rw [outs, List.getElem?_append_left hlt, List.getElem?_map, h]
  rfl

@[simp] theorem getElem?_outs_length (r : Route D) : r.outs[r.path.length]? = some none := by
  have hlen : r.path.length = (r.path.map some).length := (List.length_map _).symm
  rw [outs, hlen]
  exact List.getElem?_concat_length

/-- The local port is the last one. -/
theorem eq_length_of_none {r : Route D} {i : ℕ} (h : r.outs[i]? = some none) :
    i = r.path.length := by
  obtain ⟨hlt, -⟩ := List.getElem?_eq_some_iff.mp h
  rw [outs_length] at hlt
  rcases lt_or_eq_of_le (Nat.le_of_lt_succ hlt) with hin | hlast
  · rw [getElem?_outs (List.getElem?_eq_getElem hin)] at h
    cases h
  · exact hlast

theorem path_of_outs {r : Route D} {i : ℕ} {d : D} (h : r.outs[i]? = some (some d)) :
    i < r.path.length ∧ r.path[i]? = some d := by
  obtain ⟨hlt, -⟩ := List.getElem?_eq_some_iff.mp h
  rw [outs_length] at hlt
  rcases lt_or_eq_of_le (Nat.le_of_lt_succ hlt) with hin | hlast
  · refine ⟨hin, ?_⟩
    rw [getElem?_outs (List.getElem?_eq_getElem hin)] at h
    rw [List.getElem?_eq_getElem hin]
    exact Option.some.inj h
  · rw [hlast, getElem?_outs_length] at h
    cases h

/-- A hop that is not the first one follows a direction of the path. -/
theorem exists_path {r : Route D} {i : ℕ} {p : Option D} (h : r.outs[i + 1]? = some p) :
    ∃ d, r.path[i]? = some d := by
  obtain ⟨hlt, -⟩ := List.getElem?_eq_some_iff.mp h
  rw [outs_length] at hlt
  exact ⟨_, List.getElem?_eq_getElem (Nat.lt_of_succ_lt_succ hlt)⟩

theorem getElem?_srcs (L : Links D G) {r : Route D} {i : ℕ} {d : D} (h : r.path[i]? = some d) :
    (r.srcs L)[i + 1]? = some (some (L.opp d)) := by
  rw [srcs, List.getElem?_cons_succ, List.getElem?_map, h]
  rfl

@[simp] theorem disp_zero (L : Links D G) (r : Route D) : r.disp L 0 = 0 := by
  simp [disp]

theorem disp_succ (L : Links D G) {r : Route D} {i : ℕ} {d : D} (h : r.path[i]? = some d) :
    r.disp L (i + 1) = r.disp L i + L.dir d := by
  rw [disp, List.take_add_one, h, Option.toList_some, List.map_append, List.sum_append]
  simp [disp]

@[simp] theorem disp_length (L : Links D G) (r : Route D) :
    r.disp L r.path.length = r.total L := by
  rw [disp, List.take_length, total]

end Route

/-! ### Tables -/

section Tables

variable (L : Links D G)

/-- A port is used in a slot. -/
def Used (routes : List (Route D)) (j : ℕ) (p : Option D) : Prop :=
  ∃ r ∈ routes, (j, p) ∈ r.entries

/-- No two routes need a port in the same slot. -/
def Compatible (routes : List (Route D)) : Prop :=
  routes.Pairwise fun r r' => ∀ x ∈ r.entries, x ∉ r'.entries

theorem Compatible.eq_of_mem {routes : List (Route D)} (h : Compatible routes) {r r' : Route D}
    (hr : r ∈ routes) (hr' : r' ∈ routes) {x : ℕ × Option D} (hx : x ∈ r.entries)
    (hx' : x ∈ r'.entries) : r = r' := by
  have : Std.Symm fun r r' : Route D => ∀ x ∈ r.entries, x ∉ r'.entries :=
    ⟨fun _ _ hapart y hy hy' => hapart y hy' hy⟩
  by_contra hne
  exact List.Pairwise.forall h hr hr' hne x hx hx'

instance [DecidableEq D] (routes : List (Route D)) (j : ℕ) (p : Option D) :
    Decidable (Used routes j p) :=
  inferInstanceAs (Decidable (∃ r ∈ routes, (j, p) ∈ r.entries))

/-- The table has the hops of all routes, and the direction `dflt` for all other ports. -/
structure Implements (routes : List (Route D)) (dflt : D) (len : ℕ)
    (table : ℕ → Option D → Option D) : Prop where
  sets : ∀ r ∈ routes, r.Sets L table
  rest : ∀ j < len, ∀ p, ¬ Used routes j p → table j p = some dflt
  fits : ∀ r ∈ routes, r.start + r.path.length < len

/-- The words of the route also leave by a local port that no route uses: after a hop in the
    opposite of the default direction, there is such a slot before the direction is used again. -/
def Leaks (routes : List (Route D)) (dflt : D) (len : ℕ) (r : Route D) : Prop :=
  ∃ i < r.path.length, r.path[i]? = some (L.opp dflt) ∧
    ∃ d < len, ¬ Used routes ((r.start + i + d + 1) % len) none ∧
      ∀ d' < d, ¬ Used routes ((r.start + i + d' + 1) % len) (some (L.opp dflt))

instance [DecidableEq D] (routes : List (Route D)) (dflt : D) (len : ℕ) (r : Route D) :
    Decidable (Leaks L routes dflt len r) :=
  inferInstanceAs (Decidable (∃ _ < _, _ ∧ _))

end Tables

/-! ### The way back -/

section Back

variable (L : Links D G)

/-- The route with all directions turned round. -/
def Route.back (r : Route D) : Route D := ⟨r.start, r.path.map L.opp⟩

variable {L} {routes : List (Route D)} {r : Route D} {d : D} {j len : ℕ} {p : Option D}

theorem Route.total_back (r : Route D) : (r.back L).total L = -r.total L := by
  rw [total, total, back, List.map_map]
  induction r.path with
  | nil => simp
  | cons d ds ih =>
    rw [List.map_cons, List.sum_cons, ih, List.map_cons, List.sum_cons, neg_add, Function.comp,
      L.dir_opp]

theorem Route.mem_entries_back :
    (j, p) ∈ (r.back L).entries ↔ (j, p.map L.opp) ∈ r.entries := by
  have houts : (r.back L).outs = r.outs.map (Option.map L.opp) := by
    simp [outs, back, Function.comp_def]
  rw [mem_entries, mem_entries, houts]
  have hget : ∀ i : ℕ, (r.outs.map (Option.map L.opp))[i]? = some p ↔
      r.outs[i]? = some (p.map L.opp) := by
    intro i
    rw [List.getElem?_map, Option.map_eq_some_iff]
    constructor
    · rintro ⟨q, hq, rfl⟩
      rw [hq, Option.map_map]
      cases q <;> simp [L.opp_opp]
    · intro hq
      refine ⟨_, hq, ?_⟩
      rw [Option.map_map]
      cases p <;> simp [L.opp_opp]
  simp only [hget]
  rfl

theorem used_back : Used (routes.map (Route.back L)) j p ↔ Used routes j (p.map L.opp) := by
  simp only [Used, List.mem_map, exists_exists_and_eq_and, Route.mem_entries_back]

theorem Compatible.back (h : Compatible routes) : Compatible (routes.map (Route.back L)) := by
  rw [Compatible, List.pairwise_map]
  refine h.imp fun hapart x hx hx' => ?_
  rw [Route.mem_entries_back] at hx hx'
  exact hapart _ hx hx'

/-- The way back leaks like the way there, if the default is turned round too. -/
theorem leaks_back :
    Leaks L (routes.map (Route.back L)) (L.opp d) len (r.back L) ↔ Leaks L routes d len r := by
  have hpath : ∀ i : ℕ, (r.path.map L.opp)[i]? = some d ↔ r.path[i]? = some (L.opp d) := by
    intro i
    rw [List.getElem?_map, Option.map_eq_some_iff]
    constructor
    · rintro ⟨d', hd', rfl⟩
      rw [hd', L.opp_opp]
    · exact fun h => ⟨_, h, L.opp_opp d⟩
  simp only [Leaks, Route.back, List.length_map, used_back, Option.map_some, Option.map_none,
    L.opp_opp, hpath]

end Back

/-! ### Checking a set of routes

The pairs of slot and port that a route needs are kept as the bits of a number. -/

section Bits

variable {β : Type*} (code : β → ℕ)

/-- The bits of a list. -/
def bits : List β → ℕ
  | [] => 0
  | x :: xs => 2 ^ code x ||| bits xs

theorem testBit_bits_iff {k : ℕ} {l : List β} :
    (bits code l).testBit k = true ↔ ∃ x ∈ l, code x = k := by
  induction l with
  | nil => simp [bits]
  | cons y l ih =>
    rw [bits, Nat.testBit_or, Bool.or_eq_true, ih, Nat.testBit_two_pow, decide_eq_true_iff,
      List.exists_mem_cons_iff]

theorem testBit_bits {x : β} {l : List β} (h : x ∈ l) :
    (bits code l).testBit (code x) = true :=
  (testBit_bits_iff code).mpr ⟨x, h, rfl⟩

end Bits

section Check

variable (code : ℕ × Option D → ℕ)

/-- No route needs what is taken already, or what a route before it needs. -/
def checkFrom (taken : ℕ) : List (Route D) → Bool
  | [] => true
  | r :: rs => taken &&& bits code r.entries == 0 && checkFrom (taken ||| bits code r.entries) rs

/-- What `taken` has is not needed by any route. -/
theorem not_mem_of_checkFrom {taken : ℕ} {rs : List (Route D)}
    (h : checkFrom code taken rs = true) {x : ℕ × Option D}
    (hx : taken.testBit (code x) = true) : ∀ r ∈ rs, x ∉ r.entries := by
  induction rs generalizing taken with
  | nil => exact fun r hr => absurd hr List.not_mem_nil
  | cons r rs ih =>
    rw [checkFrom, Bool.and_eq_true, beq_iff_eq] at h
    intro r' hr' hmem
    rcases List.mem_cons.mp hr' with rfl | hrest
    · have hboth : (taken &&& bits code r'.entries).testBit (code x) = true := by
        rw [Nat.testBit_and, hx, testBit_bits code hmem]
        rfl
      rw [h.1, Nat.zero_testBit] at hboth
      cases hboth
    · refine ih h.2 ?_ r' hrest hmem
      rw [Nat.testBit_or, hx, Bool.true_or]

theorem compatible_of_checkFrom {taken : ℕ} {rs : List (Route D)}
    (h : checkFrom code taken rs = true) : Compatible rs := by
  induction rs generalizing taken with
  | nil => exact List.Pairwise.nil
  | cons r rs ih =>
    rw [checkFrom, Bool.and_eq_true] at h
    refine List.Pairwise.cons (fun r' hr' x hx => ?_) (ih h.2)
    refine not_mem_of_checkFrom code h.2 ?_ r' hr'
    rw [Nat.testBit_or, testBit_bits code hx, Bool.or_true]

end Check

/-! ### Runs -/

/-- A run from cycle 1 on, with the slot of each cycle.  Nothing valid is in the network when it
    begins. -/
structure Runs (L : Links D G) (table : ℕ → Option D → Option D) (len : ℕ) (valid : α → Prop)
    (slot : ℕ → ℕ) (inj : ℕ → G → α) (out : ℕ → G → Option D → α) : Prop where
  next : ∀ t, 1 ≤ t → out (t + 1) = L.step (table (slot t)) (inj t) (out t)
  slot_lt : ∀ t, 1 ≤ t → slot t < len
  slot_succ : ∀ t, 1 ≤ t → slot (t + 1) = (slot t + 1) % len
  quiet : ∀ v p, ¬ valid (out 1 v p)

section Runs

variable {L : Links D G} {table : ℕ → Option D → Option D} {len : ℕ} {valid : α → Prop}
  {slot : ℕ → ℕ} {inj : ℕ → G → α} {out : ℕ → G → Option D → α} {routes : List (Route D)}
  {dflt : D} {r : Route D} {t i : ℕ} {p : Option D} {v : G}

theorem Runs.slot_add (h : Runs L table len valid slot inj out) (ht : 1 ≤ t) (k : ℕ) :
    slot (t + k) = (slot t + k) % len := by
  induction k with
  | zero => exact (Nat.mod_eq_of_lt (h.slot_lt t ht)).symm
  | succ k ih =>
    rw [← add_assoc, h.slot_succ (t + k) (by omega), ih, Nat.mod_add_mod, add_assoc]

theorem Runs.slot_pred (h : Runs L table len valid slot inj out) (ht : 1 ≤ t) {j : ℕ}
    (hslot : slot (t + 1) = j + 1) : slot t = j := by
  have hlt := h.slot_lt t ht
  have hsucc := h.slot_succ t ht
  rcases lt_or_eq_of_le (Nat.succ_le_of_lt hlt) with hin | hend
  · rw [Nat.mod_eq_of_lt hin] at hsucc
    omega
  · have hzero : (slot t + 1) % len = 0 := by
      have hlen : slot t + 1 = len := hend
      rw [hlen, Nat.mod_self]
    omega

/-- What a hop of a route carries: what was at the local input of the first node in the first
    slot, or nothing when the run was not on yet. -/
theorem Runs.hop (h : Runs L table len valid slot inj out) (hsets : r.Sets L table) (ht : 1 ≤ t)
    (hslot : slot t = r.start + i) (hp : r.outs[i]? = some p) :
    (∃ t₀, 1 ≤ t₀ ∧ t = t₀ + i ∧ slot t₀ = r.start ∧
        ∀ v, out (t + 1) v p = inj t₀ (v - r.disp L i)) ∨
      (t ≤ i ∧ ∀ v, ¬ valid (out (t + 1) v p)) := by
  induction i generalizing t p with
  | zero =>
    refine Or.inl ⟨t, ht, rfl, hslot, fun v => ?_⟩
    rw [h.next t ht, Links.step, hslot, hsets 0 p none hp rfl, Route.disp_zero, sub_zero]
    rfl
  | succ i ih =>
    obtain ⟨d, hd⟩ := Route.exists_path hp
    have hout : ∀ v, out (t + 1) v p = out t (v - L.dir d) (some d) := by
      intro v
      rw [h.next t ht, Links.step, hslot, hsets (i + 1) p _ hp (Route.getElem?_srcs L hd),
        Links.input, L.dir_opp, L.opp_opp, sub_eq_add_neg]
    obtain ⟨s, rfl⟩ := Nat.exists_eq_add_of_le' ht
    rcases Nat.eq_zero_or_pos s with rfl | hs
    · refine Or.inr ⟨by omega, fun v => ?_⟩
      rw [hout v]
      exact h.quiet _ _
    · rw [← Nat.add_assoc] at hslot
      rcases ih hs (h.slot_pred hs hslot) (Route.getElem?_outs hd) with
        ⟨t₀, ht₀, hsum, hfirst, hval⟩ | ⟨hle, hnone⟩
      · refine Or.inl ⟨t₀, ht₀, by omega, hfirst, fun v => ?_⟩
        rw [hout v, hval, Route.disp_succ L hd, sub_sub, add_comm (L.dir d)]
      · refine Or.inr ⟨by omega, fun v => ?_⟩
        rw [hout v]
        exact hnone _

theorem Runs.hop_of_start (h : Runs L table len valid slot inj out) (hsets : r.Sets L table)
    (ht : 1 ≤ t) (hslot : slot t = r.start) (hfit : r.start + i < len)
    (hp : r.outs[i]? = some p) (v : G) :
    out (t + i + 1) (v + r.disp L i) p = inj t v := by
  have hslot' : slot (t + i) = r.start + i := by
    rw [h.slot_add ht, hslot, Nat.mod_eq_of_lt hfit]
  rcases h.hop hsets (Nat.le_add_right_of_le ht) hslot' hp with ⟨t₀, -, hsum, -, hval⟩ | ⟨hle, -⟩
  · obtain rfl : t = t₀ := Nat.add_right_cancel hsum
    rw [hval, add_sub_cancel_right]
  · omega

section Table

variable (himp : Implements L routes dflt len table)

include himp

/-- **Delivery.**  What is at a local input in the first slot of a route is at the local output
    where the route leads, one cycle after its last slot. -/
theorem Runs.delivered (h : Runs L table len valid slot inj out) (hr : r ∈ routes) (ht : 1 ≤ t)
    (hslot : slot t = r.start) (v : G) :
    out (t + r.path.length + 1) (v + r.total L) none = inj t v := by
  rw [← Route.disp_length]
  exact h.hop_of_start (himp.sets r hr) ht hslot (himp.fits r hr) r.getElem?_outs_length v

theorem Runs.arrival (h : Runs L table len valid slot inj out) (hr : r ∈ routes) (ht : 1 ≤ t)
    (hslot : slot t = r.start + r.path.length) (hvalid : valid (out (t + 1) v none)) :
    ∃ t₀, 1 ≤ t₀ ∧ t = t₀ + r.path.length ∧ slot t₀ = r.start ∧
      out (t + 1) v none = inj t₀ (v - r.total L) := by
  rcases h.hop (himp.sets r hr) ht hslot r.getElem?_outs_length with
    ⟨t₀, ht₀, hsum, hfirst, hval⟩ | ⟨-, hnone⟩
  · refine ⟨t₀, ht₀, hsum, hfirst, ?_⟩
    rw [hval, Route.disp_length]
  · exact absurd hvalid (hnone v)

/-- A port that no route uses shows what the opposite of the default direction carries. -/
theorem Runs.default (h : Runs L table len valid slot inj out) (ht : 1 ≤ t)
    (hunused : ¬ Used routes (slot t) p) (v : G) :
    out (t + 1) v p = out t (v + L.dir dflt) (some (L.opp dflt)) := by
  rw [h.next t ht, Links.step, himp.rest _ (h.slot_lt t ht) p hunused]
  rfl

/-- What the opposite of the default direction carries comes from its last use. -/
theorem Runs.carried (h : Runs L table len valid slot inj out) (ht : 1 ≤ t) (v : G)
    (hvalid : valid (out (t + 1) v (some (L.opp dflt)))) :
    ∃ r ∈ routes, ∃ i t₁ d, 1 ≤ t₁ ∧ t = t₁ + d ∧ r.outs[i]? = some (some (L.opp dflt)) ∧
      slot t₁ = r.start + i ∧
      (∀ d' < d, ¬ Used routes (slot (t₁ + d' + 1)) (some (L.opp dflt))) ∧
      ∃ t₀ v₀, 1 ≤ t₀ ∧ slot t₀ = r.start ∧ out (t + 1) v (some (L.opp dflt)) = inj t₀ v₀ := by
  induction t, ht using Nat.le_induction generalizing v with
  | base =>
    by_cases hused : Used routes (slot 1) (some (L.opp dflt))
    · obtain ⟨r, hr, hmem⟩ := hused
      obtain ⟨i, hi, hslot⟩ := Route.mem_entries.mp hmem
      rcases h.hop (himp.sets r hr) le_rfl hslot.symm hi with ⟨t₀, ht₀, -, hfirst, hval⟩ | ⟨-, hno⟩
      · exact ⟨r, hr, i, 1, 0, le_rfl, rfl, hi, hslot.symm, fun d' hd' => absurd hd' (by omega),
          t₀, _, ht₀, hfirst, hval v⟩
      · exact absurd hvalid (hno v)
    · rw [h.default himp le_rfl hused] at hvalid
      exact absurd hvalid (h.quiet _ _)
  | succ t ht ih =>
    by_cases hused : Used routes (slot (t + 1)) (some (L.opp dflt))
    · obtain ⟨r, hr, hmem⟩ := hused
      obtain ⟨i, hi, hslot⟩ := Route.mem_entries.mp hmem
      rcases h.hop (himp.sets r hr) (Nat.le_succ_of_le ht) hslot.symm hi with
        ⟨t₀, ht₀, -, hfirst, hval⟩ | ⟨-, hno⟩
      · exact ⟨r, hr, i, t + 1, 0, Nat.le_succ_of_le ht, rfl, hi, hslot.symm,
          fun d' hd' => absurd hd' (by omega), t₀, _, ht₀, hfirst, hval v⟩
      · exact absurd hvalid (hno v)
    · have hout := h.default himp (Nat.le_succ_of_le ht) hused v
      rw [hout] at hvalid
      obtain ⟨r, hr, i, t₁, d, ht₁, hsum, hi, hslot, hfree, t₀, v₀, ht₀, hfirst, hval⟩ :=
        ih _ hvalid
      refine ⟨r, hr, i, t₁, d + 1, ht₁, by omega, hi, hslot, ?_, t₀, v₀, ht₀, hfirst, ?_⟩
      · intro d' hd'
        rcases lt_or_eq_of_le (Nat.le_of_lt_succ hd') with hlt | rfl
        · exact hfree d' hlt
        · rw [← hsum]
          exact hused
      · rw [hout, hval]

/-- **No other words.**  What is valid at a local output has arrived by a route, or it is a word
    of a route that leaks. -/
theorem Runs.only (h : Runs L table len valid slot inj out) (ht : 1 ≤ t)
    (hvalid : valid (out (t + 1) v none)) :
    (∃ r ∈ routes, ∃ t₀, 1 ≤ t₀ ∧ t = t₀ + r.path.length ∧ slot t₀ = r.start ∧
        out (t + 1) v none = inj t₀ (v - r.total L)) ∨
      ∃ r ∈ routes, Leaks L routes dflt len r ∧
        ∃ t₀ v₀, 1 ≤ t₀ ∧ slot t₀ = r.start ∧ out (t + 1) v none = inj t₀ v₀ := by
  by_cases hused : Used routes (slot t) none
  · obtain ⟨r, hr, hmem⟩ := hused
    obtain ⟨i, hi, hslot⟩ := Route.mem_entries.mp hmem
    obtain rfl := Route.eq_length_of_none hi
    exact Or.inl ⟨r, hr, h.arrival himp hr ht hslot.symm hvalid⟩
  · have hout := h.default himp ht hused v
    rw [hout] at hvalid
    obtain ⟨s, rfl⟩ := Nat.exists_eq_add_of_le' ht
    rcases Nat.eq_zero_or_pos s with rfl | hs
    · exact absurd hvalid (h.quiet _ _)
    · obtain ⟨r, hr, i, t₁, d, ht₁, rfl, hi, hslot, hfree, t₀, v₀, ht₀, hfirst, hval⟩ :=
        h.carried himp hs _ hvalid
      have hat : ∀ k, slot (t₁ + k + 1) = (r.start + i + k + 1) % len := by
        intro k
        rw [Nat.add_assoc, h.slot_add ht₁, hslot, Nat.add_assoc _ k 1]
      obtain ⟨hi', hq⟩ := Route.path_of_outs hi
      have hbound : d < len := by
        -- otherwise the direction would have been used again a period later
        by_contra hge
        have hlen : 0 < len := Nat.zero_lt_of_lt (h.slot_lt t₁ ht₁)
        refine hfree (len - 1) (by omega) ⟨r, hr, Route.mem_entries.mpr ⟨i, hi, ?_⟩⟩
        have hperiod : t₁ + (len - 1) + 1 = t₁ + len := by omega
        rw [hperiod, h.slot_add ht₁, Nat.add_mod_right, hslot, Nat.mod_eq_of_lt]
        rw [← hslot]
        exact h.slot_lt t₁ ht₁
      refine Or.inr ⟨r, hr, ⟨i, hi', hq, d, hbound, ?_, ?_⟩, t₀, v₀, ht₀, hfirst, ?_⟩
      · rw [← hat d]
        exact hused
      · intro d' hd'
        rw [← hat d']
        exact hfree d' hd'
      · rw [hout, hval]

/-- The word of a route that leaks is at a local output in a slot that no route uses. -/
theorem Runs.leaked (h : Runs L table len valid slot inj out) (hr : r ∈ routes)
    (hleak : Leaks L routes dflt len r) (ht : 1 ≤ t) (hslot : slot t = r.start) (v : G) :
    ∃ u w, t ≤ u ∧ ¬ Used routes (slot u) none ∧ out (u + 1) w none = inj t v := by
  obtain ⟨i, hi, hq, d, -, hlocal, hfree⟩ := hleak
  have hfit : r.start + i < len := by
    have := himp.fits r hr
    omega
  have hat : ∀ k, slot (t + i + k + 1) = (r.start + i + k + 1) % len := by
    intro k
    rw [add_assoc, add_assoc t, h.slot_add ht, hslot]
    congr 1
    omega
  have hcarry : ∀ k ≤ d, ∃ w, out (t + i + k + 1) w (some (L.opp dflt)) = inj t v := by
    intro k
    induction k with
    | zero =>
      intro _
      exact ⟨_, h.hop_of_start (himp.sets r hr) ht hslot hfit (Route.getElem?_outs hq) v⟩
    | succ k ih =>
      intro hk
      obtain ⟨w, hw⟩ := ih (by omega)
      have hunused : ¬ Used routes (slot (t + i + k + 1)) (some (L.opp dflt)) := by
        rw [hat k]
        exact hfree k hk
      refine ⟨w - L.dir dflt, ?_⟩
      rw [← hw, ← add_assoc (t + i), h.default himp (by omega) hunused, sub_add_cancel]
  obtain ⟨w, hw⟩ := hcarry d le_rfl
  have hunused : ¬ Used routes (slot (t + i + d + 1)) none := by
    rw [hat d]
    exact hlocal
  refine ⟨t + i + d + 1, w - L.dir dflt, by omega, hunused, ?_⟩
  rw [h.default himp (by omega) hunused, sub_add_cancel, hw]

end Table

end Runs

end Patmos.TdmRoutes
