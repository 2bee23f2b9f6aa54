import Patmos.ArrayForest
import Patmos.Compression

/-!
# The search trees of the compression

Insertion and deletion end, they keep the trees a forest, and the match that an insertion finds is
one.
-/

namespace Patmos.Compression

open ArrayForest

variable {textBuf : Nat → Byte} {t : Trees} {p q r x y : Nat} {b c : Bool}

/-! ### The arrays -/

theorem child_setChild :
    (t.setChild b p x).child c y = if c = b ∧ y = p then x else t.child c y := by
  cases b <;> cases c <;> simp [Trees.setChild, Trees.child, Function.update_apply]

theorem parent_setChild : (t.setChild b p x).parent = t.parent := by cases b <;> rfl

theorem child_setParent : (t.setParent x p).child = t.child := rfl

theorem parent_setParent : (t.setParent x p).parent y = if y = x then p else t.parent y :=
  Function.update_apply _ _ _ _

theorem rchild_eq : t.rchild p = t.child true p := rfl

theorem lchild_eq : t.lchild p = t.child false p := rfl

/-- The trees as a forest. -/
def Trees.forest (t : Trees) : Forest := ⟨t.child, t.parent⟩

/-- The byte of a root, and the first byte of the string at a node. -/
def key (textBuf : Nat → Byte) (x : Nat) : Nat := if x < N then (textBuf x).toNat else x - (N + 1)

/-- The arrays are a forest whose trees have one first byte each. -/
def Ok (textBuf : Nat → Byte) (t : Trees) : Prop := ArrayForest.Inv N (key textBuf) t.forest

/-- The string at `x` is in a tree. -/
def In (t : Trees) (x : Nat) : Prop := ArrayForest.Node N t.forest x

theorem Ok.slot (h : Ok textBuf t) (hp : In t p) :
    Slot N t.forest (t.rchild (t.parent p) == p) (t.parent p) ∧
      t.child (t.rchild (t.parent p) == p) (t.parent p) = p := by
  obtain ⟨b, hs, hb⟩ := h.up p hp
  by_cases hright : t.rchild (t.parent p) = p
  · rw [beq_iff_eq.mpr hright]
    refine ⟨?_, hright⟩
    rcases hs with hs | hs
    · exact Or.inl hs
    · exact Or.inr ⟨rfl, hs.2⟩
  · have hleft : b = false := by
      cases b with
      | false => rfl
      | true => exact absurd hb hright
    rw [beq_eq_false_iff_ne.mpr hright, ← hleft]
    exact ⟨hs, hb⟩

theorem Ok.down_right (h : Ok textBuf t) (hs : Slot N t.forest true q) (hne : t.rchild q ≠ NIL) :
    In t (t.rchild q) ∧ t.parent (t.rchild q) = q :=
  h.down true q hs hne

theorem Ok.down_left (h : Ok textBuf t) (hq : In t q) (hne : t.lchild q ≠ NIL) :
    In t (t.lchild q) ∧ t.parent (t.lchild q) = q :=
  h.down false q (Or.inl hq) hne

/-- Two children of `p` change into a forest without `p`. -/
theorem ok_of_agree {f : Forest} (h : ArrayForest.Inv N (key textBuf) f)
    (hnode : ∀ x, Node N f x ↔ In t x ∧ x ≠ p) (hp : In t p) {t' : Trees}
    (hparent : ∀ y, y < N → t'.parent y = f.parent y)
    (hchild : ∀ c y, y ≠ p → t'.child c y = f.child c y) :
    Ok textBuf t' ∧ ∀ x, In t' x ↔ In t x ∧ x ≠ p := by
  have hagree : ∀ c y, Slot N f c y → t'.forest.child c y = f.child c y := by
    intro c y hs
    refine hchild c y ?_
    rintro rfl
    rcases hs with hs | hs
    · exact ((hnode y).mp hs).2 rfl
    · exact absurd hp.1 (by omega)
  obtain ⟨hinv, hin⟩ := h.congr hparent hagree
  exact ⟨hinv, fun x => (hin x).trans (hnode x)⟩

/-! ### Deletion -/

theorem forest_moveUp : (t.moveUp p q).forest =
    ArrayForest.splice N t.forest (t.rchild (t.parent p) == p) p q := by
  have hparent : (t.setParent q (t.parent p)).parent p = t.parent p := by
    rw [parent_setParent, ite_eq_right_iff]
    exact fun _ => rfl
  unfold Trees.moveUp Trees.forest ArrayForest.splice
  congr 1
  · funext c y
    rw [child_setParent, child_setChild, child_setParent, hparent]
    rfl
  · funext y
    rw [parent_setParent, parent_setChild, parent_setParent]
    rfl

/-- A node with at most one child leaves its place to it. -/
theorem Ok.moveUp (h : Ok textBuf t) (hp : In t p) (hnone : t.child (!c) p = N) :
    Ok textBuf (t.moveUp p (t.child c p)) ∧
      ∀ x, In (t.moveUp p (t.child c p)) x ↔ In t x ∧ x ≠ p := by
  obtain ⟨hs, hb⟩ := h.slot hp
  unfold Ok In
  rw [forest_moveUp]
  exact ArrayForest.Inv.splice h hp hs hb rfl hnone

theorem rightmost_spec {rank : Nat → Nat} (h : Ok textBuf t)
    (hrank : ∀ x, In t x → rank x < rank (t.parent x)) {fuel : Nat} (hq : In t q)
    (hright : t.rchild q ≠ NIL) (hfuel : rank q ≤ fuel) :
    ∃ m, rightmost t fuel q = some m ∧ In t m ∧ t.rchild m = NIL ∧ In t (t.parent m) ∧
      t.rchild (t.parent m) = m ∧ rank (t.parent m) ≤ rank q ∧ key textBuf m = key textBuf q := by
  induction fuel generalizing q with
  | zero =>
    obtain ⟨hx, hparent⟩ := h.down_right (Or.inl hq) hright
    have hlt := hrank _ hx
    rw [hparent] at hlt
    omega
  | succ fuel ih =>
    obtain ⟨hx, hparent⟩ := h.down_right (Or.inl hq) hright
    have hlt := hrank _ hx
    rw [hparent] at hlt
    have hkey : key textBuf (t.rchild q) = key textBuf q :=
      (h.key_eq _ hx).symm.trans (congrArg (key textBuf) hparent)
    rw [rightmost]
    by_cases hmore : t.rchild (t.rchild q) ≠ NIL
    · rw [if_pos hmore]
      obtain ⟨m, hm, hin, hend, hup, hlink, hle, hkey'⟩ := ih hx hmore (by omega)
      exact ⟨m, hm, hin, hend, hup, hlink, by omega, hkey'.trans hkey⟩
    · rw [if_neg hmore]
      exact ⟨_, rfl, hx, not_not.mp hmore, hparent.symm ▸ hq, congrArg t.rchild hparent,
        (congrArg rank hparent).le, hkey⟩

/-- Nodes with different parents have different children. -/
theorem Ok.child_ne_child (h : Ok textBuf t) (hp : In t p) (hq : In t q) (hpq : p ≠ q)
    (hne : t.child b q ≠ NIL) : t.child c p ≠ t.child b q := by
  intro heq
  obtain ⟨-, hparent⟩ := h.down b q (Or.inl hq) hne
  have hne' : t.child c p ≠ NIL := fun hnil => hne (heq.symm.trans hnil)
  obtain ⟨-, hparent'⟩ := h.down c p (Or.inl hp) hne'
  exact hpq (hparent'.symm.trans ((congrArg t.parent heq).trans hparent))

/-- The rightmost node of the left subtree takes the place of `p`. -/
theorem Ok.deleteDeep {rank : Nat → Nat} (h : Ok textBuf t)
    (hrank : ∀ x, In t x → rank x < rank (t.parent x)) (hp : In t p) (hq : In t q)
    (hend : t.rchild q = NIL) (hup : In t (t.parent q)) (hlink : t.rchild (t.parent q) = q)
    (hbelow : rank (t.parent q) < rank p) (hkey : key textBuf q = key textBuf p) :
    Ok textBuf (((t.takeOut p q).giveRight p q).moveUp p q) ∧
      ∀ x, In (((t.takeOut p q).giveRight p q).moveUp p q) x ↔ In t x ∧ x ≠ p := by
  obtain ⟨hs, hb⟩ := h.slot hp
  have hqp := hrank q hq
  have hpq : p ≠ q := by
    rintro rfl
    omega
  have hpp : p ≠ t.parent q := by
    intro heq
    rw [← heq] at hbelow
    omega
  have hpz : p ≠ t.lchild q := by
    intro heq
    have hne : t.lchild q ≠ NIL := heq ▸ hp.1.ne
    have hlt := hrank _ (h.down_left hq hne).1
    rw [(h.down_left hq hne).2, ← heq] at hlt
    omega
  have hself : ∀ c, t.child c p ≠ p := h.child_ne hp
  have hqself : t.child false q ≠ q := h.child_ne hq false
  have hnot : ∀ c, t.child c p ≠ q := by
    intro c heq
    have hne : t.child c p ≠ NIL := heq ▸ hq.1.ne
    exact hpp ((h.down c p (Or.inl hp) hne).2.symm.trans (congrArg t.parent heq))
  have hother : ∀ c, t.child false q ≠ NIL → t.child c p ≠ t.child false q :=
    fun c hne => h.child_ne_child hp hq hpq hne
  have ht := hself true
  have hf := hself false
  obtain ⟨hinv, hnode⟩ :=
    ArrayForest.Inv.promote (c := true) (e := false) h hp hs hb hq (Or.inl hup)
    hlink rfl hend hpq hpz hkey
  refine ok_of_agree hinv hnode hp ?_ ?_ <;> clear hinv hnode
  · intro y hy
    simp only [Trees.moveUp, Trees.giveRight, Trees.takeOut, rchild_eq, lchild_eq, child_setChild,
      parent_setChild, child_setParent, parent_setParent, ArrayForest.replace, ArrayForest.splice,
      Trees.forest] at *
    grind [NIL]
  · intro c y hy
    simp only [Trees.moveUp, Trees.giveRight, Trees.takeOut, rchild_eq, lchild_eq, child_setChild,
      parent_setChild, child_setParent, parent_setParent, ArrayForest.replace, ArrayForest.splice,
      Trees.forest] at *
    grind [NIL]

/-- The left child of `p` takes its place. -/
theorem Ok.deleteShallow (h : Ok textBuf t) (hp : In t p) (hleft : t.lchild p ≠ NIL)
    (hend : t.rchild (t.lchild p) = NIL) :
    Ok textBuf ((t.giveRight p (t.lchild p)).moveUp p (t.lchild p)) ∧
      ∀ x, In ((t.giveRight p (t.lchild p)).moveUp p (t.lchild p)) x ↔ In t x ∧ x ≠ p := by
  obtain ⟨hs, hb⟩ := h.slot hp
  obtain ⟨hq, hup⟩ := h.down_left hp hleft
  have hself : ∀ c, t.child c p ≠ p := h.child_ne hp
  have hqself : t.child false (t.child false p) ≠ t.child false p := h.child_ne hq false
  have hpq : p ≠ t.lchild p := (hself false).symm
  have hkey : key textBuf (t.lchild p) = key textBuf p :=
    (h.key_eq _ hq).symm.trans (congrArg (key textBuf) hup)
  have hloop : t.parent p ≠ t.child false p := by
    obtain ⟨rank, -, hrank⟩ := ArrayForest.Inv.exists_rank h
    have hlt : rank (t.lchild p) < rank (t.parent (t.lchild p)) := hrank _ hq
    have hlt' : rank p < rank (t.parent p) := hrank _ hp
    rw [hup] at hlt
    intro heq
    rw [heq] at hlt'
    exact absurd hlt' (Nat.lt_asymm hlt)
  have hpz : p ≠ t.lchild (t.lchild p) := by
    intro heq
    have hne : t.lchild (t.lchild p) ≠ NIL := heq ▸ hp.1.ne
    exact hloop ((congrArg t.parent heq).trans (h.down_left hq hne).2)
  have hapart : t.child true p ≠ NIL → t.child false p ≠ t.child true p := h.apart p hp
  have hother : ∀ c, t.child false (t.child false p) ≠ NIL →
      t.child c p ≠ t.child false (t.child false p) :=
    fun c hne => h.child_ne_child hp hq hpq hne
  have hchildq : t.child false (t.parent (t.lchild p)) = t.lchild p := congrArg (t.child false) hup
  have hslotq : Slot N t.forest false (t.parent (t.lchild p)) := by
    rw [hup]
    exact Or.inl hp
  obtain ⟨hinv, hnode⟩ := ArrayForest.Inv.promote (c := false) (e := false) h hp hs hb hq
    hslotq hchildq rfl hend hpq hpz hkey
  have ht := hself true
  have hf := hself false
  refine ok_of_agree hinv hnode hp ?_ ?_ <;> clear hinv hnode
  · intro y hy
    have hzup : t.child false (t.child false p) ≠ NIL →
      t.parent (t.child false (t.child false p)) = t.child false p :=
        fun hne => (h.down_left hq hne).2
    simp only [Trees.moveUp, Trees.giveRight, rchild_eq, lchild_eq, child_setChild,
      parent_setChild, child_setParent, parent_setParent, ArrayForest.replace, ArrayForest.splice,
      Trees.forest] at *
    grind [NIL]
  · intro c y hy
    simp only [Trees.moveUp, Trees.giveRight, rchild_eq, lchild_eq, child_setChild,
      parent_setChild, child_setParent, parent_setParent, ArrayForest.replace, ArrayForest.splice,
      Trees.forest] at *
    grind [NIL]

/-- **Deletion ends and takes out exactly the node.** -/
theorem Ok.deleteNode (h : Ok textBuf t) (p : Nat) (hlt : p < N) :
    ∃ t', deleteNode t p = some t' ∧ Ok textBuf t' ∧ ∀ x, In t' x ↔ In t x ∧ x ≠ p := by
  unfold Compression.deleteNode
  by_cases hout : t.parent p = NIL
  · rw [if_pos hout]
    refine ⟨t, rfl, h, fun x => ⟨fun hx => ⟨hx, ?_⟩, fun hx => hx.1⟩⟩
    rintro rfl
    exact hx.2 hout
  · have hp : In t p := ⟨hlt, hout⟩
    rw [if_neg hout]
    by_cases hright : t.rchild p = NIL
    · rw [if_pos hright]
      exact ⟨_, rfl, h.moveUp (c := false) hp hright⟩
    · rw [if_neg hright]
      by_cases hleft : t.lchild p = NIL
      · rw [if_pos hleft]
        exact ⟨_, rfl, h.moveUp (c := true) hp hleft⟩
      · rw [if_neg hleft]
        by_cases hdeep : t.rchild (t.lchild p) ≠ NIL
        · rw [if_pos hdeep]
          obtain ⟨rank, hbound, hrank⟩ := ArrayForest.Inv.exists_rank h
          obtain ⟨hq, hparent⟩ := h.down_left hp hleft
          obtain ⟨m, hm, hin, hend, hup, hlink, hle, hkey⟩ :=
            rightmost_spec h hrank hq hdeep (hbound _)
          have hlt' : rank (t.lchild p) < rank (t.parent (t.lchild p)) := hrank _ hq
          rw [hparent] at hlt'
          have hkey' : key textBuf m = key textBuf p :=
            hkey.trans ((h.key_eq _ hq).symm.trans (congrArg (key textBuf) hparent))
          rw [hm]
          exact ⟨_, rfl, h.deleteDeep hrank hp hin hend hup hlink (lt_of_le_of_lt hle hlt') hkey'⟩
        · rw [if_neg hdeep]
          exact ⟨_, rfl, h.deleteShallow hp hleft (not_not.mp hdeep)⟩

/-! ### Insertion -/

theorem compare_spec (textBuf : Nat → Byte) (keyPos p fuel i : Nat) :
    i ≤ (compare textBuf keyPos p fuel i).1 ∧ (compare textBuf keyPos p fuel i).1 ≤ i + fuel ∧
      ∀ j, i ≤ j → j < (compare textBuf keyPos p fuel i).1 →
        textBuf (keyPos + j) = textBuf (p + j) := by
  induction fuel generalizing i with
  | zero => exact ⟨le_refl i, le_refl i, fun j hij hj => absurd hij (Nat.not_le.mpr hj)⟩
  | succ fuel ih =>
    rw [compare]
    by_cases hcmp : (textBuf (keyPos + i)).toInt - (textBuf (p + i)).toInt ≠ 0
    · simp only [if_pos hcmp]
      exact ⟨le_refl i, by omega, fun j hij hj => absurd hij (Nat.not_le.mpr hj)⟩
    · simp only [if_neg hcmp]
      obtain ⟨hlow, hhigh, hequal⟩ := ih (i + 1)
      refine ⟨by omega, by omega, fun j hij hj => ?_⟩
      rcases eq_or_lt_of_le hij with rfl | hlt
      · exact BitVec.eq_of_toInt_eq (by omega)
      · exact hequal j hlt hj

/-- The match is one of the strings in `P`, and it is equal to the string at `r`. -/
def Found (textBuf : Nat → Byte) (P : Nat → Prop) (r : Nat) (t : Trees) : Prop :=
  t.matchLength = 0 ∨ P t.matchPosition ∧ t.matchLength ≤ F ∧
    ∀ i, i < t.matchLength → textBuf (r + i) = textBuf (t.matchPosition + i)

/-- `r` is a new node without children. -/
structure Fresh (t : Trees) (r : Nat) : Prop where
  lt : r < N
  out : t.parent r = NIL
  none : ∀ c, t.child c r = NIL

theorem Fresh.slot_ne (h : Fresh t r) (hs : Slot N t.forest b p) : p ≠ r := by
  have hlt := h.lt
  rintro rfl
  rcases hs with hs | hs
  · exact hs.2 h.out
  · omega

/-- The end of the search: `r` is put into an empty slot. -/
theorem Ok.attach (h : Ok textBuf t) (hr : Fresh t r) (hs : Slot N t.forest b p)
    (hfree : t.child b p = NIL) (hkey : key textBuf p = key textBuf r) :
    Ok textBuf ((t.setChild b p r).setParent r p) ∧
      ∀ x, In ((t.setChild b p r).setParent r p) x ↔ In t x ∨ x = r := by
  have hforest : ((t.setChild b p r).setParent r p).forest =
      ArrayForest.attach N t.forest b p r := by
    have hpr := hr.slot_ne hs
    unfold Trees.forest ArrayForest.attach
    congr 1
    · funext c y
      have hnone := hr.none c
      rw [child_setParent, child_setChild]
      grind [NIL]
    · funext y
      rw [parent_setParent, parent_setChild]
  unfold Ok In
  rw [hforest]
  exact ArrayForest.Inv.attach h hr.lt hr.out hs hfree hkey

/-- The end of the search with a full match: `r` takes the place of `p`. -/
theorem Ok.replaceNode (h : Ok textBuf t) (hr : Fresh t r) (hp : In t p)
    (hkey : key textBuf p = key textBuf r) :
    Ok textBuf (t.replaceNode p r) ∧ ∀ x, In (t.replaceNode p r) x ↔ In t x ∧ x ≠ p ∨ x = r := by
  obtain ⟨hs, hb⟩ := h.slot hp
  have hpr : p ≠ r := fun heq => hp.2 (heq ▸ hr.out)
  have hup : t.parent p ≠ r := hr.slot_ne hs
  have ht : t.child true p ≠ p := h.child_ne hp true
  have hf : t.child false p ≠ p := h.child_ne hp false
  have hforest : (t.replaceNode p r).forest =
      ArrayForest.replace N t.forest (t.rchild (t.parent p) == p) p r := by
    have hnot : ∀ c, t.child c p ≠ r := by
      intro c heq
      have hne : t.child c p ≠ NIL := heq ▸ hr.lt.ne
      have hin := (h.down c p (Or.inl hp) hne).1
      exact hin.2 ((congrArg t.parent heq).trans hr.out)
    have hnt := hnot true
    have hnf := hnot false
    unfold Trees.forest ArrayForest.replace
    congr 1
    · funext c y
      simp only [Trees.replaceNode, rchild_eq, lchild_eq, child_setChild, parent_setChild,
        child_setParent, parent_setParent] at *
      grind
    · funext y
      simp only [Trees.replaceNode, rchild_eq, lchild_eq, child_setChild, parent_setChild,
        child_setParent, parent_setParent] at *
      grind [NIL]
  unfold Ok In
  rw [hforest]
  exact ArrayForest.Inv.replace h hp hs hb hr.lt hr.out hkey.symm

theorem key_of_lt (hx : x < N) : key textBuf x = (textBuf x).toNat := if_pos hx

/-- The links have no part in the match. -/
theorem Found.congr {P : Nat → Prop} {t' : Trees} (h : Found textBuf P r t)
    (hposition : t'.matchPosition = t.matchPosition) (hlength : t'.matchLength = t.matchLength) :
    Found textBuf P r t' := by
  unfold Found
  rw [hposition, hlength]
  exact h

@[simp] theorem matchPosition_setChild : (t.setChild b p x).matchPosition = t.matchPosition := by
  cases b <;> rfl

@[simp] theorem matchLength_setChild : (t.setChild b p x).matchLength = t.matchLength := by
  cases b <;> rfl

@[simp] theorem matchPosition_setParent : (t.setParent x p).matchPosition = t.matchPosition := rfl

@[simp] theorem matchLength_setParent : (t.setParent x p).matchLength = t.matchLength := rfl

/-- A node of the tree of `r` has the same first byte, so the comparison finds a match. -/
theorem found_of_compare (hp : In t p) (hr : r < N) (hkey : key textBuf p = key textBuf r)
    {t' : Trees}
    (hposition : t'.matchPosition = p)
    (hlength : t'.matchLength = (compare textBuf r p (F - 1) 1).1) : Found textBuf (In t) r t' := by
  obtain ⟨hlow, hhigh, hequal⟩ := compare_spec textBuf r p (F - 1) 1
  refine Or.inr ⟨hposition ▸ hp, hlength ▸ hhigh, fun i hi => ?_⟩
  rw [hposition]
  rw [hlength] at hi
  rcases Nat.eq_zero_or_pos i with rfl | hpos
  · rw [key_of_lt hp.1, key_of_lt hr] at hkey
    exact (BitVec.eq_of_toNat_eq hkey).symm
  · exact hequal i hpos hi

theorem Ok.insertLoop {rank : Nat → Nat} {fuel : Nat} {cmp : Int} (h : Ok textBuf t)
    (hr : Fresh t r)
    (hrank : ∀ x, In t x → rank x < rank (t.parent x)) (hs : Slot N t.forest (decide (cmp ≥ 0)) p)
    (hkey : key textBuf p = key textBuf r) (hfuel : rank p < fuel)
    (hfound : Found textBuf (In t) r t) :
    ∃ t', insertLoop textBuf r fuel t p cmp = some t' ∧ Ok textBuf t' ∧
      (∀ x, In t' x → In t x ∨ x = r) ∧ Found textBuf (In t) r t' := by
  induction fuel generalizing t p cmp with
  | zero => exact absurd hfuel (Nat.not_lt_zero _)
  | succ fuel ih =>
    rw [Compression.insertLoop]
    by_cases hfree : t.child (decide (cmp ≥ 0)) p = NIL
    · simp only [if_pos hfree]
      obtain ⟨hok, hin⟩ := h.attach hr hs hfree hkey
      exact ⟨_, rfl, hok, fun x hx => (hin x).mp hx, hfound.congr (by simp) (by simp)⟩
    · simp only [if_neg hfree]
      obtain ⟨hin, hparent⟩ : In t (t.child (decide (cmp ≥ 0)) p) ∧
          t.parent (t.child (decide (cmp ≥ 0)) p) = p := h.down _ p hs hfree
      have hlt := hrank _ hin
      have hkey' : key textBuf (t.child (decide (cmp ≥ 0)) p) = key textBuf r :=
        (h.key_eq _ hin).symm.trans ((congrArg (key textBuf) hparent).trans hkey)
      rw [hparent] at hlt
      by_cases hlonger : (compare textBuf r (t.child (decide (cmp ≥ 0)) p) (F - 1) 1).1 >
        t.matchLength
      · simp only [if_pos hlonger]
        by_cases hfull : (compare textBuf r (t.child (decide (cmp ≥ 0)) p) (F - 1) 1).1 ≥ F
        · simp only [if_pos hfull]
          have hok : Ok textBuf { t with
              matchPosition := t.child (decide (cmp ≥ 0)) p
              matchLength := (compare textBuf r (t.child (decide (cmp ≥ 0)) p) (F - 1) 1).1 } := h
          obtain ⟨hok', hin'⟩ := hok.replaceNode ⟨hr.lt, hr.out, hr.none⟩ hin hkey'
          refine ⟨_, rfl, hok', fun x hx => ?_, found_of_compare hin hr.lt hkey' ?_ ?_⟩
          · rcases (hin' x).mp hx with hx | hx
            · exact Or.inl hx.1
            · exact Or.inr hx
          · simp [Trees.replaceNode]
          · simp [Trees.replaceNode]
        · simp only [if_neg hfull]
          refine ih (t := { t with
              matchPosition := t.child (decide (cmp ≥ 0)) p
              matchLength := (compare textBuf r (t.child (decide (cmp ≥ 0)) p) (F - 1) 1).1 })
            h ⟨hr.lt, hr.out, hr.none⟩ hrank (Or.inl hin) hkey' (by omega)
            (found_of_compare hin hr.lt hkey' rfl rfl)
      · simp only [if_neg hlonger]
        exact ih h hr hrank (Or.inl hin) hkey' (by omega) hfound

/-- **Insertion ends, it puts in exactly the string at `r`, and the match is one.** -/
theorem Ok.insertNode (h : Ok textBuf t) (hr : r < N) (hout : t.parent r = NIL) :
    ∃ t', insertNode textBuf t r = some t' ∧ Ok textBuf t' ∧ (∀ x, In t' x → In t x ∨ x = r) ∧
      Found textBuf (In t) r t' := by
  obtain ⟨rank, hbound, hrank⟩ := ArrayForest.Inv.exists_rank h
  -- the links of `r` do not belong to the forest yet
  have hagree : ∀ c y, Slot N t.forest c y →
      ((t.setChild true r NIL).setChild false r NIL).child c y = t.child c y := by
    intro c y hs
    have hne : y ≠ r := by
      rintro rfl
      rcases hs with hs | hs
      · exact hs.2 hout
      · omega
    rw [child_setChild, child_setChild, if_neg fun heq => hne heq.2, if_neg fun heq => hne heq.2]
  have hparent : ∀ y, ((t.setChild true r NIL).setChild false r NIL).parent y = t.parent y := by
    intro y
    rw [parent_setChild, parent_setChild]
  generalize ht : { (t.setChild true r NIL).setChild false r NIL with matchLength := 0 } = t₁
  have hchild₁ : ∀ c y, t₁.child c y =
      ((t.setChild true r NIL).setChild false r NIL).child c y := by
    subst ht
    exact fun _ _ => rfl
  have hparent₁ : ∀ y, t₁.parent y = t.parent y := by
    subst ht
    exact hparent
  obtain ⟨hok, hin⟩ : Ok textBuf t₁ ∧ ∀ x, In t₁ x ↔ In t x :=
    ArrayForest.Inv.congr h (fun y _ => hparent₁ y) fun c y hs =>
      (hchild₁ c y).trans (hagree c y hs)
  have hfresh : Fresh t₁ r := by
    refine ⟨hr, (hparent₁ r).trans hout, fun c => ?_⟩
    rw [hchild₁, child_setChild, child_setChild]
    cases c <;> simp
  have hrank₁ : ∀ x, In t₁ x → rank x < rank (t₁.parent x) := by
    intro x hx
    rw [hparent₁]
    exact hrank x ((hin x).mp hx)
  have hroot : key textBuf (N + 1 + (textBuf r).toNat) = key textBuf r := by
    rw [key_of_lt hr, key, if_neg (by omega)]
    omega
  have hslot : Slot N t₁.forest (decide ((1 : Int) ≥ 0)) (N + 1 + (textBuf r).toNat) :=
    Or.inr ⟨rfl, by omega⟩
  have hnone : Found textBuf (In t₁) r t₁ := by
    subst ht
    exact Or.inl rfl
  obtain ⟨t', hloop, hok', hin', hfound⟩ := hok.insertLoop hfresh hrank₁ hslot hroot
    (Nat.lt_succ_of_le (hbound _)) hnone
  refine ⟨t', ?_, hok', fun x hx => ?_, ?_⟩
  · rw [Compression.insertNode]
    simp only [ht]
    exact hloop
  · rcases hin' x hx with hx | hx
    · exact Or.inl ((hin x).mp hx)
    · exact Or.inr hx
  · rcases hfound with hzero | ⟨hposition, hmatch⟩
    · exact Or.inl hzero
    · exact Or.inr ⟨(hin _).mp hposition, hmatch⟩

end Patmos.Compression
