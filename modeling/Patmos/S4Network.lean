import Patmos.Clocked
import Patmos.MemBlock
import Patmos.S4Slots

/-!
# The S4NoC

`Network` is a torus of `n` by `n` routers.  In every cycle the output registers of a router take
the inputs that the row of the current slot gives.  A word that enters in the first slot of a
route is delivered where the route leads.  Ports that no route uses in a slot take the input of the
north port, so they repeat what the routers pass on to the south; when this happens to a local port,
a word leaves the network that was not sent there.
-/

namespace Patmos.S4Noc

open TdmRoutes Clocked

/-! ### The circuit -/

/-- `SingleChannel`. -/
structure Chan (α : Type) where
  data : α
  valid : Bool
deriving DecidableEq

/-- The registers of `S4Router`. -/
structure Router (α : Type) where
  regCounter : ℕ
  regDelay : ℕ
  out : Port → Chan α

section Circuit

variable {α : Type} {n : ℕ}

def routerNext (sched : Table) (length : ℕ) (x : Router α) (ins : Port → Chan α) : Router α where
  regCounter :=
    if x.regCounter = length - 1 then 0 else (x.regCounter + 1) % 2 ^ MemBlock.log2Up length
  regDelay := x.regCounter
  out p := ins (sched x.regDelay p)

/-- The inputs of the router at `v`. -/
def inputs (y : Node n → Router α) (inj : Node n → Chan α) (v : Node n) : Port → Chan α :=
  (links n).input inj (fun v p => (y v).out p) v

def networkNext (sched : Table) (length : ℕ) (y : Node n → Router α) (inj : Node n → Chan α) :
    Node n → Router α :=
  fun v => routerNext sched length (y v) (inputs y inj v)

/-- After reset the counters are at `shift`, and no output is valid. -/
structure IsReset (shift : ℕ) (y : Node n → Router α) : Prop where
  regCounter : ∀ v, (y v).regCounter = shift
  regDelay : ∀ v, (y v).regDelay = 0
  valid : ∀ v p, ((y v).out p).valid = false

end Circuit

/-! ### What is promised -/

section Promise

variable {α : Type} {n : ℕ} (sched : Table) (length : ℕ) (y₀ : Node n → Router α)
  (inj : ℕ → Node n → Chan α)

/-- The routers before cycle `t`. -/
def netAt (t : ℕ) : Node n → Router α := stateAt (networkNext sched length) y₀ inj t

def localOut (t : ℕ) (v : Node n) : Chan α := (netAt sched length y₀ inj t v).out LOCAL

/-- The slot of the router at `v` in cycle `t`. -/
def slotAt (t : ℕ) (v : Node n) : ℕ := (netAt sched length y₀ inj t v).regDelay

/-- The network delivers every word and invents none. -/
structure Faithful (routes : List (Route Dir)) : Prop where
  /-- A word that enters in the first slot of a route leaves where it leads, after its last
      slot. -/
  delivered : ∀ r ∈ routes, ∀ t v, slotAt sched length y₀ inj t v = r.start →
    (inj t v).valid = true →
    localOut sched length y₀ inj (t + r.path.length + 1) (v + r.total (links n)) = inj t v
  /-- What leaves is such a word. -/
  only : ∀ t v, (localOut sched length y₀ inj t v).valid = true →
    ∃ r ∈ routes, ∃ t₀, t = t₀ + r.path.length + 1 ∧
      slotAt sched length y₀ inj t₀ (v - r.total (links n)) = r.start ∧
      localOut sched length y₀ inj t v = inj t₀ (v - r.total (links n))
  /-- No two words need a link in the same slot, -/
  apart : Compatible routes
  /-- and no slot is the first one of two routes. -/
  starts : (routes.map Route.start).Pairwise (· < ·)

end Promise

/-! ### Slots -/

section Slots

variable {α : Type} {n : ℕ} {sched : Table} {length : ℕ} {y₀ : Node n → Router α}
  {inj : ℕ → Node n → Chan α} {shift t : ℕ} {v : Node n}

theorem regCounter_netAt (hshift : shift < length) (hreset : IsReset shift y₀) (t : ℕ)
    (v : Node n) : (netAt sched length y₀ inj t v).regCounter = (shift + t) % length := by
  induction t with
  | zero => exact (hreset.regCounter v).trans (Nat.mod_eq_of_lt hshift).symm
  | succ t ih =>
    rw [← add_assoc, ← MemBlock.count_next (Nat.zero_lt_of_lt hshift), ← ih]
    rfl

/-- The schedule begins in cycle 1. -/
theorem slotAt_succ (hshift : shift < length) (hreset : IsReset shift y₀) (t : ℕ) (v : Node n) :
    slotAt sched length y₀ inj (t + 1) v = (shift + t) % length :=
  regCounter_netAt hshift hreset t v

theorem slotAt_of_pos (hshift : shift < length) (hreset : IsReset shift y₀) (ht : 1 ≤ t)
    (v : Node n) : slotAt sched length y₀ inj t v = (shift + (t - 1)) % length := by
  obtain ⟨s, rfl⟩ := Nat.exists_eq_add_of_le' ht
  exact slotAt_succ hshift hreset s v

/-- From cycle 1 on the network is a run of the routes, if nothing enters before. -/
theorem runs_netAt (sched : Table) (hshift : shift < length) (hreset : IsReset shift y₀)
    (hquiet : ∀ v, (inj 0 v).valid = false) :
    Runs (links n) sched length (fun x : Chan α => x.valid = true)
      (fun t => (shift + (t - 1)) % length) inj
      (fun t v p => (netAt sched length y₀ inj t v).out p) := by
  constructor
  · intro t ht
    obtain ⟨s, rfl⟩ := Nat.exists_eq_add_of_le' ht
    funext v p
    have hslot : (netAt sched length y₀ inj (s + 1) v).regDelay = (shift + s) % length :=
      slotAt_succ hshift hreset s v
    change inputs _ _ v (sched (netAt sched length y₀ inj (s + 1) v).regDelay p) = _
    rw [hslot]
    rfl
  · intro t _
    exact Nat.mod_lt _ (Nat.zero_lt_of_lt hshift)
  · intro t ht
    rw [Nat.mod_add_mod]
    congr 1
    omega
  · intro v p
    have hout : (netAt sched length y₀ inj 1 v).out p =
        inputs y₀ (inj 0) v (sched (y₀ v).regDelay p) := rfl
    rw [hout]
    cases sched (y₀ v).regDelay p with
    | none => exact Bool.eq_false_iff.mp (hquiet v)
    | some d => exact Bool.eq_false_iff.mp (hreset.valid _ _)

end Slots

/-! ### The built-in schedules -/

section BuiltIn

variable {n : ℕ}

theorem getSchedule_eq (h2 : 2 ≤ n) (h10 : n ≤ 10) :
    getSchedule n = some (placeAll (fun _ _ => NORTH) (routes n)) := by
  rw [getSchedule, if_pos ⟨h2, h10⟩, readLines_eq]

/-- Only networks of these sizes have a schedule. -/
theorem size_of_getSchedule {sched : Table} (h : getSchedule n = some sched) : 2 ≤ n ∧ n ≤ 10 :=
  (Option.ite_none_right_eq_some.mp h).1

theorem implements_of_getSchedule {sched : Table} (h : getSchedule n = some sched) :
    Implements (links n) (routes n) .n (len n) sched := by
  obtain ⟨h2, h10⟩ := size_of_getSchedule h
  rw [getSchedule_eq h2 h10] at h
  rw [← Option.some.inj h]
  exact implements_of_compatible n (compatible_routes h10) .n

section Iff

variable {α : Type} {sched : Table} {y₀ : Node n → Router α} {inj : ℕ → Node n → Chan α}
  (himp : Implements (links n) (routes n) .n (len n) sched) (hlen : 0 < len n)
  (hreset : IsReset 0 y₀) (hquiet : ∀ v, (inj 0 v).valid = false)

include himp hlen hreset hquiet

/-- A word in the first slot of a route that leaks also leaves where it was not sent. -/
theorem Faithful.not_valid_of_leaks (h : Faithful sched (len n) y₀ inj (routes n))
    {r : Route Dir} (hr : r ∈ routes n) (hleak : Leaks (links n) (routes n) .n (len n) r)
    (t : ℕ) (v : Node n) (hslot : slotAt sched (len n) y₀ inj t v = r.start) :
    (inj t v).valid = false := by
  by_contra hvalid
  rw [Bool.not_eq_false] at hvalid
  -- nothing enters in cycle 0
  have hpos : ∀ t₀ w, (inj t₀ w).valid = true → 1 ≤ t₀ := by
    intro t₀ w hw
    refine Nat.pos_of_ne_zero fun hzero => ?_
    rw [hzero, hquiet w] at hw
    cases hw
  have ht := hpos t v hvalid
  have hrun := runs_netAt sched hlen hreset hquiet
  rw [slotAt_of_pos hlen hreset ht] at hslot
  obtain ⟨u, w, -, hunused, hout⟩ := hrun.leaked himp hr hleak ht hslot v
  have hstray : localOut sched (len n) y₀ inj (u + 1) w = inj t v := hout
  obtain ⟨r', hr', t₀, hsum, hstart, hsent⟩ := h.only (u + 1) w (by rw [hstray]; exact hvalid)
  -- but the slot of a word that was sent there is used
  have ht₀ : 1 ≤ t₀ := by
    refine hpos t₀ (w - r'.total (links n)) ?_
    rw [← hsent, hstray]
    exact hvalid
  rw [slotAt_of_pos hlen hreset ht₀] at hstart
  refine hunused ⟨r', hr', Route.mem_entries.mpr ⟨_, r'.getElem?_outs_length, ?_⟩⟩
  obtain rfl : u = t₀ + r'.path.length := Nat.succ.inj hsum
  rw [hrun.slot_add ht₀, hstart, Nat.mod_eq_of_lt (himp.fits r' hr')]

theorem faithful_of_not_leaks (h10 : n ≤ 10)
    (hsafe : ∀ r ∈ routes n, Leaks (links n) (routes n) .n (len n) r →
      ∀ t v, slotAt sched (len n) y₀ inj t v = r.start → (inj t v).valid = false) :
    Faithful sched (len n) y₀ inj (routes n) := by
  have hrun := runs_netAt sched hlen hreset hquiet
  refine ⟨?_, ?_, compatible_routes h10, starts_increase h10⟩
  · intro r hr t v hslot hvalid
    rcases eq_zero_or_pos t with rfl | ht
    · rw [hquiet v] at hvalid
      cases hvalid
    · rw [slotAt_of_pos hlen hreset ht] at hslot
      exact hrun.delivered himp hr ht hslot v
  · intro t v hvalid
    rcases eq_zero_or_pos t with rfl | ht
    · exact absurd hvalid (Bool.eq_false_iff.mp (hreset.valid v LOCAL))
    obtain ⟨s, rfl⟩ := Nat.exists_eq_add_of_le' ht
    rcases eq_zero_or_pos s with rfl | hs
    · exact absurd hvalid (hrun.quiet v LOCAL)
    rcases hrun.only himp hs hvalid with
      ⟨r, hr, t₀, ht₀, rfl, hslot, hval⟩ | ⟨r, hr, hleak, t₀, v₀, ht₀, hslot, hval⟩
    · refine ⟨r, hr, t₀, rfl, ?_, hval⟩
      rw [slotAt_of_pos hlen hreset ht₀]
      exact hslot
    · have hnone : (inj t₀ v₀).valid = false := by
        refine hsafe r hr hleak t₀ v₀ ?_
        rw [slotAt_of_pos hlen hreset ht₀]
        exact hslot
      have hsent : localOut sched (len n) y₀ inj (s + 1) v = inj t₀ v₀ := hval
      rw [hsent, hnone] at hvalid
      cases hvalid

end Iff

/-- **The S4NoC is faithful if and only if nothing enters in the first slot of a route that
    leaks**, when nothing enters before the schedule begins. -/
theorem faithful_iff (h2 : 2 ≤ n) (h10 : n ≤ 10) :
    ∃ sched, getSchedule n = some sched ∧
      ∀ {α : Type} (y₀ : Node n → Router α) (inj : ℕ → Node n → Chan α), IsReset 0 y₀ →
        (∀ v, (inj 0 v).valid = false) →
        (Faithful sched (len n) y₀ inj (routes n) ↔
          ∀ r ∈ routes n, Leaks (links n) (routes n) .n (len n) r →
            ∀ t v, slotAt sched (len n) y₀ inj t v = r.start → (inj t v).valid = false) := by
  refine ⟨_, getSchedule_eq h2 h10, ?_⟩
  intro α y₀ inj hreset hquiet
  have hlen := len_pos h2 h10
  have himp := implements_of_compatible n (compatible_routes h10) .n
  constructor
  · intro h r hr hleak t v hslot
    exact h.not_valid_of_leaks himp hlen hreset hquiet hr hleak t v hslot
  · exact faithful_of_not_leaks himp hlen hreset hquiet h10

/-! ### Single words -/

section Words

variable {n : ℕ}

/-- One word enters at `v` in cycle `t`. -/
def wordAt (t : ℕ) (v : Node n) (t' : ℕ) (v' : Node n) : Chan Unit :=
  ⟨(), decide (t' = t ∧ v' = v)⟩

/-- The routers after reset. -/
def resetNet : Node n → Router Unit := fun _ => ⟨0, 0, fun _ => ⟨(), false⟩⟩

theorem isReset_resetNet : IsReset 0 (resetNet : Node n → Router Unit) :=
  ⟨fun _ => rfl, fun _ => rfl, fun _ _ => rfl⟩

end Words

theorem two_le_three : 2 ≤ 3 := by decide

theorem three_le_ten : 3 ≤ 10 := by decide

/-- Two nodes of three by three, the second one to the south of the first. -/
def sender : Node 3 := (0, 0)

@[inherit_doc sender]
def receiver : Node 3 := (1, 0)

/-- A word in the first slot of the schedule, whose route goes north and east, arrives and leaves
    nowhere else. -/
theorem northEast_faithful :
    ∃ sched, getSchedule 3 = some sched ∧
      slotAt sched (len 3) resetNet (wordAt 1 sender) 1 sender = 0 ∧
      Faithful sched (len 3) resetNet (wordAt 1 sender) (routes 3) := by
  obtain ⟨sched, hsched, hiff⟩ := @faithful_iff 3 (by decide) (by decide)
  refine ⟨sched, hsched, rfl, (hiff _ _ isReset_resetNet fun _ => rfl).mpr ?_⟩
  have hfirst : ∀ r ∈ routes 3, Leaks (links 3) (routes 3) .n (len 3) r → r.start ≠ 0 := by
    decide +kernel
  intro r hr hleak t v hslot
  refine decide_eq_false fun ⟨ht, _⟩ => hfirst r hr hleak ?_
  rw [← hslot, ht]
  exact slotAt_succ (len_pos (by decide) (by decide)) isReset_resetNet 0 v

/-- A word that enters in slot 7 for the node to the south arrives there in cycle 10.  The local
    ports have no source in slots 0 and 1, so they show what the ports to the south have passed on:
    the word leaves at its sender in cycle 12 and at its receiver again in cycle 13. -/
theorem south_leaves_thrice :
    ∃ sched, getSchedule 3 = some sched ∧
      slotAt sched (len 3) resetNet (wordAt 8 sender) 8 sender = 7 ∧
      (localOut sched (len 3) resetNet (wordAt 8 sender) 10 receiver).valid = true ∧
      (localOut sched (len 3) resetNet (wordAt 8 sender) 12 sender).valid = true ∧
      (localOut sched (len 3) resetNet (wordAt 8 sender) 13 receiver).valid = true ∧
      ¬ Faithful sched (len 3) resetNet (wordAt 8 sender) (routes 3) := by
  have hback : (localOut (placeAll (fun _ _ => NORTH) (routes 3)) (len 3) resetNet
      (wordAt 8 sender) 12 sender).valid = true := by decide +kernel
  refine ⟨_, getSchedule_eq (by decide) (by decide), by decide +kernel, by decide +kernel, hback,
    by decide +kernel, fun h => ?_⟩
  obtain ⟨r, hr, t₀, hsum, hslot, hval⟩ := h.only 12 sender hback
  rw [hval] at hback
  obtain ⟨rfl, -⟩ := of_decide_eq_true hback
  -- no route that begins in slot 7 takes three hops
  have hnone : ∀ r ∈ routes 3, r.start = 7 → 12 ≠ 8 + r.path.length + 1 := by decide +kernel
  rw [slotAt_succ (len_pos (by decide) (by decide)) isReset_resetNet 7] at hslot
  exact hnone r hr hslot.symm hsum

end BuiltIn

end Patmos.S4Noc
