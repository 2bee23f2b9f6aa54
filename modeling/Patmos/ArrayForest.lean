import Mathlib.Data.Finset.Card
import Mathlib.Data.Finset.Range

/-!
# Binary trees in arrays

A forest of binary trees over the nodes `0, …, n - 1`, kept in arrays: two children and the parent
of each node, where `n` stands for nothing.  The numbers above `n` are roots; the tree of a root
hangs on its right child.  A node is in the forest if it has a parent.

`Inv` says that the slots for children that are in use and the nodes of the forest correspond, that
nodes carry the key of their root, and that there are no cycles.  The operations are what insertions
and deletions are made of: a node is put into an empty slot, it takes the place of another one, or a
node with one child leaves its place to it.
-/

namespace Patmos.ArrayForest

/-- `child false` and `child true` are the arrays of the left and of the right children. -/
structure Forest where
  child : Bool → Nat → Nat
  parent : Nat → Nat

variable {κ : Type*} {n : Nat} {key : Nat → κ} {f g : Forest} {b c : Bool} {p q r x y : Nat}

/-- `x` is a node of the forest. -/
def Node (n : Nat) (f : Forest) (x : Nat) : Prop := x < n ∧ f.parent x ≠ n

/-- The slots for children: both of a node, and the right one of a root. -/
def Slot (n : Nat) (f : Forest) (b : Bool) (q : Nat) : Prop := Node n f q ∨ b = true ∧ n < q

structure Inv (n : Nat) (key : Nat → κ) (f : Forest) : Prop where
  up : ∀ x, Node n f x → ∃ b, Slot n f b (f.parent x) ∧ f.child b (f.parent x) = x
  down : ∀ b q, Slot n f b q → f.child b q ≠ n →
    Node n f (f.child b q) ∧ f.parent (f.child b q) = q
  apart : ∀ q, Node n f q → f.child true q ≠ n → f.child false q ≠ f.child true q
  key_eq : ∀ x, Node n f x → key (f.parent x) = key x
  depth : ∃ d : Nat → Nat, ∀ x, Node n f x → d (f.parent x) < d x

/-! ### Consequences -/

theorem Inv.parent_ne (h : Inv n key f) (hx : Node n f x) : f.parent x ≠ x := by
  obtain ⟨d, hd⟩ := h.depth
  intro heq
  have hlt := hd x hx
  rw [heq] at hlt
  exact lt_irrefl _ hlt

theorem Inv.child_ne (h : Inv n key f) (hx : Node n f x) (b : Bool) : f.child b x ≠ x := by
  intro heq
  have hne : f.child b x ≠ n := by
    rw [heq]
    exact hx.1.ne
  obtain ⟨-, hparent⟩ := h.down b x (Or.inl hx) hne
  rw [heq] at hparent
  exact h.parent_ne hx hparent

theorem Inv.side (h : Inv n key f) (hb : Slot n f b q) (hc : Slot n f c q)
    (heq : f.child b q = f.child c q) (hne : f.child b q ≠ n) : b = c := by
  rcases hb with hq | ⟨rfl, hq⟩
  · have hapart := h.apart q hq
    cases b <;> cases c <;> grind
  · rcases hc with hq' | ⟨rfl, -⟩
    · exact absurd hq'.1 (by omega)
    · rfl

theorem Slot.ne (h : Slot n f b q) : q ≠ n := by
  rcases h with h | h
  · exact h.1.ne
  · exact h.2.ne'

/-- Every slot has fewer nodes below it than the one above, so a walk down the children ends. -/
theorem Inv.exists_rank (h : Inv n key f) :
    ∃ rank : Nat → Nat, (∀ x, rank x ≤ n) ∧ ∀ x, Node n f x → rank x < rank (f.parent x) := by
  obtain ⟨d, hd⟩ := h.depth
  refine ⟨fun x => ((Finset.range n).filter fun y => d x < d y).card, fun x => ?_, fun x hx => ?_⟩
  · exact (Finset.card_filter_le _ _).trans (Finset.card_range n).le
  · refine Finset.card_lt_card (Finset.ssubset_iff_of_subset ?_ |>.mpr ⟨x, ?_, ?_⟩)
    · intro y hy
      rw [Finset.mem_filter] at hy ⊢
      exact ⟨hy.1, (hd x hx).trans hy.2⟩
    · exact Finset.mem_filter.mpr ⟨Finset.mem_range.mpr hx.1, hd x hx⟩
    · exact fun hmem => lt_irrefl _ (Finset.mem_filter.mp hmem).2

/-- Only the parents of nodes and the contents of slots matter. -/
theorem Inv.congr (h : Inv n key f) (hparent : ∀ x, x < n → g.parent x = f.parent x)
    (hchild : ∀ b q, Slot n f b q → g.child b q = f.child b q) :
    Inv n key g ∧ ∀ x, Node n g x ↔ Node n f x := by
  have hnode : ∀ x, Node n g x ↔ Node n f x := by
    intro x
    unfold Node
    constructor
    · rintro ⟨hx, hne⟩
      exact ⟨hx, hparent x hx ▸ hne⟩
    · rintro ⟨hx, hne⟩
      exact ⟨hx, (hparent x hx).symm ▸ hne⟩
  have hslot : ∀ b q, Slot n g b q ↔ Slot n f b q := by
    intro b q
    unfold Slot
    rw [hnode]
  refine ⟨⟨?_, ?_, ?_, ?_, ?_⟩, hnode⟩
  · intro x hx
    have hx := (hnode x).mp hx
    obtain ⟨b, hs, hb⟩ := h.up x hx
    rw [hparent x hx.1]
    exact ⟨b, (hslot _ _).mpr hs, (hchild _ _ hs).trans hb⟩
  · intro b q hs hne
    have hs := (hslot b q).mp hs
    rw [hchild b q hs] at hne ⊢
    obtain ⟨hx, heq⟩ := h.down b q hs hne
    exact ⟨(hnode _).mpr hx, (hparent _ hx.1).trans heq⟩
  · intro q hq hne
    have hq := (hnode q).mp hq
    rw [hchild _ _ (Or.inl hq)] at hne ⊢
    rw [hchild _ _ (Or.inl hq)]
    exact h.apart q hq hne
  · intro x hx
    have hx := (hnode x).mp hx
    rw [hparent x hx.1]
    exact h.key_eq x hx
  · obtain ⟨d, hd⟩ := h.depth
    refine ⟨d, fun x hx => ?_⟩
    have hx := (hnode x).mp hx
    rw [hparent x hx.1]
    exact hd x hx

/-! ### A node is put into an empty slot -/

def attach (n : Nat) (f : Forest) (b : Bool) (p r : Nat) : Forest where
  child c y := if y = r then n else if c = b ∧ y = p then r else f.child c y
  parent x := if x = r then p else f.parent x

theorem Inv.attach (h : Inv n key f) (hr : r < n) (hnew : f.parent r = n) (hslot : Slot n f b p)
    (hfree : f.child b p = n) (hkey : key p = key r) :
    Inv n key (attach n f b p r) ∧
      ∀ x, Node n (ArrayForest.attach n f b p r) x ↔ Node n f x ∨ x = r := by
  have hpn := hslot.ne
  have hpr : p ≠ r := by
    rintro rfl
    rcases hslot with hp | hp
    · exact hp.2 hnew
    · omega
  have hnode : ∀ x, Node n (ArrayForest.attach n f b p r) x ↔ Node n f x ∨ x = r := by
    intro x
    unfold Node ArrayForest.attach
    grind
  have hslots : ∀ c y, Slot n (ArrayForest.attach n f b p r) c y ↔ Slot n f c y ∨ y = r := by
    intro c y
    unfold Slot
    rw [hnode]
    grind
  have hold : ∀ c y, Slot n f c y → y ≠ r := by
    rintro c y (hy | hy) rfl
    · exact hy.2 hnew
    · omega
  refine ⟨⟨?_, ?_, ?_, ?_, ?_⟩, hnode⟩
  · intro x hx
    rcases (hnode x).mp hx with hx | rfl
    · obtain ⟨c, hs, hc⟩ := h.up x hx
      have hxr : x ≠ r := hold true x (Or.inl hx)
      refine ⟨c, ?_⟩
      simp only [hslots]
      simp only [ArrayForest.attach, if_neg hxr]
      grind [Node]
    · refine ⟨b, ?_⟩
      simp only [hslots]
      simp only [ArrayForest.attach, if_true]
      grind
  · intro c y hs
    have hd := h.down c y
    simp only [hslots, hnode] at hs ⊢
    simp only [ArrayForest.attach]
    grind [Node]
  · intro y hy
    have hd := h.down true y
    have hd' := h.down false y
    have ha := h.apart y
    rw [hnode] at hy
    simp only [ArrayForest.attach]
    grind [Slot, Node]
  · intro x hx
    have hk := h.key_eq x
    rw [hnode] at hx
    simp only [ArrayForest.attach]
    grind
  · obtain ⟨d, hd⟩ := h.depth
    refine ⟨fun x => if x = r then d p + 1 else d x, fun x hx => ?_⟩
    rcases (hnode x).mp hx with hx | rfl
    · obtain ⟨c, hs, -⟩ := h.up x hx
      have hlt := hd x hx
      have hxr := hold true x (Or.inl hx)
      have hparent := hold c _ hs
      simp only [ArrayForest.attach, if_neg hxr, if_neg hparent]
      exact hlt
    · simp only [ArrayForest.attach, if_true, if_neg hpr]
      exact Nat.lt_succ_self _

/-! ### A node leaves its place to its only child -/

/-- `q` comes to slot `b` of the parent of `p`. -/
def splice (n : Nat) (f : Forest) (b : Bool) (p q : Nat) : Forest where
  child c y := if c = b ∧ y = f.parent p then q else f.child c y
  parent x := if x = p then n else if x = q then f.parent p else f.parent x

theorem Inv.splice (h : Inv n key f) (hp : Node n f p) (hslot : Slot n f b (f.parent p))
    (hchild : f.child b (f.parent p) = p) (hq : f.child c p = q) (hnone : f.child (!c) p = n) :
    Inv n key (splice n f b p q) ∧
      ∀ x, Node n (ArrayForest.splice n f b p q) x ↔ Node n f x ∧ x ≠ p := by
  have hpp : f.parent p ≠ p := h.parent_ne hp
  have hdown : q ≠ n → Node n f q ∧ f.parent q = p := hq ▸ h.down c p (Or.inl hp)
  have honly : ∀ x, Node n f x → f.parent x = p → x = q := by
    intro x hx hparent
    obtain ⟨b', hs, hb'⟩ := h.up x hx
    rw [hparent] at hb'
    rcases Bool.eq_or_eq_not b' c with rfl | rfl
    · exact hb'.symm.trans hq
    · exact absurd (hb'.symm.trans hnone) hx.1.ne
  have hnode : ∀ x, Node n (ArrayForest.splice n f b p q) x ↔ Node n f x ∧ x ≠ p := by
    intro x
    unfold Node ArrayForest.splice
    constructor
    · rintro ⟨hx, hparent⟩
      grind [Node]
    · rintro ⟨⟨hx, hparent⟩, hne⟩
      grind [Node]
  have hslots : ∀ c y, Slot n (ArrayForest.splice n f b p q) c y ↔ Slot n f c y ∧ y ≠ p := by
    intro c y
    have hlt := hp.1
    unfold Slot
    rw [hnode]
    grind
  refine ⟨⟨?_, ?_, ?_, ?_, ?_⟩, hnode⟩
  · intro x hx
    obtain ⟨hx, hxp⟩ := (hnode x).mp hx
    obtain ⟨b', hs, hb'⟩ := h.up x hx
    simp only [hslots]
    by_cases hxq : x = q
    · refine ⟨b, ?_⟩
      simp only [ArrayForest.splice, if_neg hxp, if_pos hxq]
      grind
    · refine ⟨b', ?_⟩
      simp only [ArrayForest.splice, if_neg hxp, if_neg hxq]
      grind
  · intro c y hs
    obtain ⟨hs, hyp⟩ := (hslots c y).mp hs
    have hd := h.down c y hs
    have hside : Slot n f b y → f.child c y = f.child b y → f.child c y ≠ n → c = b := h.side hs
    simp only [ArrayForest.splice]
    grind [Node]
  · intro y hy
    obtain ⟨hy, hyp⟩ := (hnode y).mp hy
    have ha := h.apart y hy
    have hd := h.down true y (Or.inl hy)
    have hd' := h.down false y (Or.inl hy)
    simp only [ArrayForest.splice]
    grind
  · intro x hx
    obtain ⟨hx, hxp⟩ := (hnode x).mp hx
    have hk := h.key_eq x hx
    have hk' := h.key_eq p hp
    simp only [ArrayForest.splice]
    grind [Node]
  · obtain ⟨d, hd⟩ := h.depth
    refine ⟨d, fun x hx => ?_⟩
    obtain ⟨hx, hxp⟩ := (hnode x).mp hx
    have hlt := hd x hx
    have hlt' := hd p hp
    simp only [ArrayForest.splice]
    grind [Node]

/-! ### A node takes the place of another one -/

/-- `r` comes to slot `b` of the parent of `p`, with the children of `p`. -/
def replace (n : Nat) (f : Forest) (b : Bool) (p r : Nat) : Forest where
  child c y := if y = r then f.child c p else if c = b ∧ y = f.parent p then r else f.child c y
  parent x := if x = p then n else if x = f.child true p ∨ x = f.child false p then r
    else if x = r then f.parent p else f.parent x

theorem Inv.replace (h : Inv n key f) (hp : Node n f p) (hslot : Slot n f b (f.parent p))
    (hchild : f.child b (f.parent p) = p) (hr : r < n) (hnew : f.parent r = n)
    (hkey : key r = key p) :
    Inv n key (replace n f b p r) ∧
      ∀ x, Node n (ArrayForest.replace n f b p r) x ↔ Node n f x ∧ x ≠ p ∨ x = r := by
  have hpp : f.parent p ≠ p := h.parent_ne hp
  have hpr : p ≠ r := fun heq => hp.2 (heq ▸ hnew)
  have hdown : ∀ c, f.child c p ≠ n → Node n f (f.child c p) ∧ f.parent (f.child c p) = p :=
    fun c => h.down c p (Or.inl hp)
  have hold : ∀ c y, Slot n f c y → y ≠ r := by
    rintro c y (hy | hy) rfl
    · exact hy.2 hnew
    · omega
  have hnoChild : ∀ c, f.child c p ≠ r := by
    intro c heq
    have hne : f.child c p ≠ n := by omega
    exact (hdown c hne).1.2 (heq ▸ hnew)
  have hbelow : ∀ x, Node n f x → f.parent x = p → x = f.child true p ∨ x = f.child false p := by
    intro x hx hparent
    obtain ⟨c, -, hc⟩ := h.up x hx
    rw [hparent] at hc
    cases c with
    | false => exact Or.inr hc.symm
    | true => exact Or.inl hc.symm
  have hnode : ∀ x, Node n (ArrayForest.replace n f b p r) x ↔ Node n f x ∧ x ≠ p ∨ x = r := by
    intro x
    have hd := hdown true
    have hd' := hdown false
    have hc := hnoChild true
    have hc' := hnoChild false
    have hpar := hslot.ne
    unfold Node ArrayForest.replace
    grind [Node]
  have hslots : ∀ c y, Slot n (ArrayForest.replace n f b p r) c y ↔
      Slot n f c y ∧ y ≠ p ∨ y = r := by
    intro c y
    have hlt := hp.1
    unfold Slot
    rw [hnode]
    grind
  refine ⟨⟨?_, ?_, ?_, ?_, ?_⟩, hnode⟩
  · intro x hx
    rcases (hnode x).mp hx with ⟨hx, hxp⟩ | rfl
    · obtain ⟨c, hs, hc⟩ := h.up x hx
      have hxr : x ≠ r := hold true x (Or.inl hx)
      have hxn : x ≠ n := hx.1.ne
      refine ⟨c, ?_⟩
      simp only [hslots]
      by_cases hmine : x = f.child true p ∨ x = f.child false p
      · -- a child of `p` hangs on `r` now
        have hparent : f.parent x = p := by
          rcases hmine with rfl | rfl
          · exact (hdown true hxn).2
          · exact (hdown false hxn).2
        simp only [ArrayForest.replace, if_neg hxp, if_pos hmine, if_true]
        exact ⟨Or.inr trivial, hparent ▸ hc⟩
      · have hparent : f.parent x ≠ p := fun heq => hmine (hbelow x hx heq)
        have hparent' := hold c _ hs
        simp only [ArrayForest.replace, if_neg hxp, if_neg hmine, if_neg hxr, if_neg hparent']
        grind
    · refine ⟨b, ?_⟩
      have hc := hnoChild true
      have hc' := hnoChild false
      have hne := hold b _ hslot
      simp only [hslots]
      simp only [ArrayForest.replace]
      grind
  · intro c y hs
    rcases (hslots c y).mp hs with ⟨hs, hyp⟩ | rfl
    · have hd := h.down c y hs
      have hyr := hold c y hs
      have hside : Slot n f b y → f.child c y = f.child b y → f.child c y ≠ n → c = b := h.side hs
      have hc := hnoChild true
      have hc' := hnoChild false
      have hdt := hdown true
      have hdf := hdown false
      simp only [hnode]
      simp only [ArrayForest.replace, if_neg hyr]
      grind [Node]
    · have hd := hdown c
      have hne := hnoChild c
      have hself := h.child_ne hp c
      simp only [hnode]
      simp only [ArrayForest.replace, if_true]
      cases c <;> grind
  · intro y hy
    have ha := h.apart y
    have hd := h.down true y
    have hd' := h.down false y
    have hap := h.apart p hp
    rw [hnode] at hy
    simp only [ArrayForest.replace]
    grind [Slot, Node]
  · intro x hx
    have hk := h.key_eq x
    have hk' := h.key_eq p hp
    have hd := hdown true
    have hd' := hdown false
    have hc := hnoChild true
    have hc' := hnoChild false
    rw [hnode] at hx
    simp only [ArrayForest.replace]
    grind [Node]
  · obtain ⟨d, hd⟩ := h.depth
    refine ⟨fun x => if x = r then d p else d x, fun x hx => ?_⟩
    have hlt := hd x
    have hlt' := hd p hp
    have hdt := hdown true
    have hdf := hdown false
    have hc := hnoChild true
    have hc' := hnoChild false
    have hpar := hold b _ hslot
    have hparx : Node n f x → f.parent x ≠ r := by
      intro hx'
      obtain ⟨c, hs, -⟩ := h.up x hx'
      exact hold c _ hs
    rw [hnode] at hx
    simp only [ArrayForest.replace]
    grind [Node]

/-- A node with at most one child is taken out of its slot `c`, and takes the place of `p` in slot
    `b`. -/
theorem Inv.promote {z : Nat} {e : Bool} (h : Inv n key f) (hp : Node n f p)
    (hslot : Slot n f b (f.parent p)) (hchild : f.child b (f.parent p) = p) (hq : Node n f q)
    (hslotq : Slot n f c (f.parent q)) (hchildq : f.child c (f.parent q) = q) (hz : f.child e q = z)
    (hnone : f.child (!e) q = n) (hpq : p ≠ q) (hpz : p ≠ z) (hkey : key q = key p) :
    Inv n key (ArrayForest.replace n (ArrayForest.splice n f c q z) b p q) ∧
      ∀ x, Node n (ArrayForest.replace n (ArrayForest.splice n f c q z) b p q) x ↔
        Node n f x ∧ x ≠ p := by
  obtain ⟨hinv, hnode⟩ := h.splice hq hslotq hchildq hz hnone
  have hparent : (ArrayForest.splice n f c q z).parent p = f.parent p := by
    simp only [ArrayForest.splice, if_neg hpq, if_neg hpz]
  have hqn : (ArrayForest.splice n f c q z).parent q = n := if_pos rfl
  have hne : f.parent p ≠ q := by
    intro heq
    have hchild' := hchild
    rw [heq] at hchild'
    rcases Bool.eq_or_eq_not b e with rfl | rfl
    · exact hpz (hchild'.symm.trans hz)
    · exact hp.1.ne (hchild'.symm.trans hnone)
  have hslot' : Slot n (ArrayForest.splice n f c q z) b
      ((ArrayForest.splice n f c q z).parent p) := by
    rw [hparent]
    rcases hslot with hs | hs
    · exact Or.inl ((hnode _).mpr ⟨hs, hne⟩)
    · exact Or.inr hs
  have hchild' : (ArrayForest.splice n f c q z).child b
      ((ArrayForest.splice n f c q z).parent p) = p := by
    rw [hparent]
    refine (if_neg fun hsame => hpq ?_).trans hchild
    rw [← hchild, ← hchildq, hsame.1, hsame.2]
  obtain ⟨hinv', hnode'⟩ := hinv.replace ((hnode p).mpr ⟨hp, hpq⟩) hslot' hchild' hq.1 hqn hkey
  refine ⟨hinv', fun x => (hnode' x).trans ?_⟩
  rw [hnode]
  constructor
  · rintro (⟨⟨hx, -⟩, hxp⟩ | rfl)
    · exact ⟨hx, hxp⟩
    · exact ⟨hq, hpq.symm⟩
  · rintro ⟨hx, hxp⟩
    by_cases hxq : x = q
    · exact Or.inr hxq
    · exact Or.inl ⟨⟨hx, hxq⟩, hxp⟩

end Patmos.ArrayForest
