import Patmos.MCacheTags
import Patmos.MCacheTransfer
import Patmos.Ring

/-!
# Calls and the contents of the method cache

The core calls a method when the cache lets the pipeline go on, and a tag is written while the
pipeline waits.  So no call comes in the one cycle in which the tag of a method can be found: every
lookup misses, and the method is fetched again.  What the cache then gives to the core is the
method that was fetched last, and it is there, word for word, from the position that the lookup has
set: `Stored` says so between two fetches and `Fetching` during one.
-/

namespace Patmos.MCache.Sys

open Ocp MemBlock Clocked BurstRead

section

variable (sizeWidth methodCount : Nat) (mem : Memory)

/-- The method at `b` is in the cache from place `p` on. -/
def Words (y : Sys) (b p : Nat) : Prop :=
  ∀ k, k < sizeOf sizeWidth mem b →
    y.cache.mem.get ((p + k) % 2 ^ sizeWidth) = mem ((b + k) % 2 ^ 30)

/-- What lookups have found is there. -/
def Genuine (y : Sys) : Prop := ∀ b p, (b, p) ∈ y.hits → y.Words sizeWidth mem b p

/-- When the core runs from the cache, the method that it has called last is there. -/
def Loaded (y : Sys) : Prop :=
  y.cache.ctrl.stateReg = .idle → y.cache.repl.hitReg = true →
    ∀ b ∈ y.called, y.Words sizeWidth mem b y.cache.repl.posReg

/-- A method that has a word and leaves one of the cache. -/
def Fits (b : Nat) : Prop := 1 ≤ sizeOf sizeWidth mem b ∧ sizeOf sizeWidth mem b < 2 ^ sizeWidth

/-- The method that is looked up fits. -/
def Callable (c : Cycle) : Prop :=
  Repl.lookup c.core = true → Fits sizeWidth mem c.core.callRetBase

/-- Unless the last lookup has missed, its method is in the cache. -/
structure Stored (y : Sys) : Prop where
  small : y.cache.ctrl.stateReg = .transfer → y.cache.ctrl.transferSizeReg + 1 < 2 ^ sizeWidth
  hit : y.cache.repl.hitReg = true → ∀ b ∈ y.called, y.Words sizeWidth mem b y.cache.repl.posReg
  miss : y.cache.repl.hitReg = false →
    y.called = some y.cache.ctrl.callRetBaseReg ∧ Fits sizeWidth mem y.cache.ctrl.callRetBaseReg

/-- The method that was looked up is being fetched. -/
structure Fetching (y : Sys) : Prop where
  called : y.called = some y.cache.ctrl.callRetBaseReg
  hit : y.cache.repl.hitReg = true
  wrPos : y.cache.repl.wrPosReg = y.cache.repl.posReg
  fits : Fits sizeWidth mem y.cache.ctrl.callRetBaseReg
  words : ∀ k, k < y.cache.ctrl.fetchCntReg →
    y.cache.mem.get ((y.cache.repl.posReg + k) % 2 ^ sizeWidth) =
      mem ((y.cache.ctrl.callRetBaseReg + k) % 2 ^ 30)

/-- There has been no error, a size is asked for after a miss, and methods begin at even
    places. -/
structure Clean (y : Sys) : Prop where
  resp : y.cache.ctrl.ocpSlaveReg.resp ≠ .err
  state : y.cache.ctrl.stateReg = .idle ∨ y.cache.ctrl.stateReg = .size ∨
    y.cache.ctrl.stateReg = .transfer
  miss : y.cache.ctrl.stateReg = .size → y.cache.repl.hitReg = false
  blank : y.cache.repl.Blank sizeWidth methodCount
  nextPos : y.cache.repl.nextPosReg % 2 = 0
  pos : y.cache.repl.posReg % 2 = 0

end

/-! ### Lookups -/

section Lookup

variable {sizeWidth burstWidth methodCount : Nat} {mem : Memory} {y : Sys} {c : Cycle}

theorem lookup_doCallRet (h : Repl.lookup c.core = true) : c.core.doCallRet = true := by
  simp only [Repl.lookup, Bool.and_eq_true] at h
  exact h.1.1

theorem noLookup_of_stall (hleg : Legal burstWidth y c) (h : enaOut burstWidth y.cache = false) :
    Repl.lookup c.core = false := by
  rw [Bool.eq_false_iff]
  intro hlook
  rw [hleg.call (lookup_doCallRet hlook)] at h
  cases h

theorem state_of_gotSize (h : y.cache.ctrl.gotSize burstWidth = true) :
    y.cache.ctrl.stateReg = .size := by
  simp only [Ctrl.gotSize, Bool.and_eq_true, beq_iff_eq] at h
  exact h.1.1

theorem state_of_gotWord (h : y.cache.ctrl.gotWord = true) :
    y.cache.ctrl.stateReg = .transfer := by
  simp only [Ctrl.gotWord, Bool.and_eq_true, beq_iff_eq] at h
  exact h.1.1

theorem gotSize_of_transfer (hstate : y.cache.ctrl.stateReg = .transfer) :
    y.cache.ctrl.gotSize burstWidth = false := by
  simp [Ctrl.gotSize, hstate]

theorem tag_of_noSize (h : y.cache.ctrl.gotSize burstWidth = false) :
    y.tag sizeWidth burstWidth = none := by
  rw [tag, tagWrite, h]
  rfl

/-- The pipeline waits while a tag is written. -/
theorem stall_of_gotSize (h : y.cache.ctrl.gotSize burstWidth = true) :
    enaOut burstWidth y.cache = false := by
  simp [enaOut, Ctrl.fetchEna, state_of_gotSize h]

/-- No lookup of a legal cycle hits. -/
theorem found_of_legal (hblank : y.cache.repl.Blank sizeWidth methodCount)
    (hleg : Legal burstWidth y c) : y.found sizeWidth burstWidth methodCount c = [] := by
  refine if_neg ?_
  rw [Bool.and_eq_true]
  rintro ⟨hlook, hhit⟩
  cases hgot : y.cache.ctrl.gotSize burstWidth with
  | true =>
    rw [noLookup_of_stall hleg (stall_of_gotSize hgot)] at hlook
    cases hlook
  | false =>
    rw [tag_of_noSize hgot, hblank.hit_of_noTag] at hhit
    cases hhit

theorem hits_of_legal {cs : List Cycle} (hN : 0 < methodCount) (hreset : IsReset sizeWidth mem y)
    (hrun : Along (next sizeWidth burstWidth methodCount) (Legal burstWidth) y cs) :
    (run (next sizeWidth burstWidth methodCount) y cs).hits = [] := by
  have hstep : ∀ y c, y.cache.repl.Blank sizeWidth methodCount ∧ y.hits = [] →
      Legal burstWidth y c →
      (next sizeWidth burstWidth methodCount y c).cache.repl.Blank sizeWidth methodCount ∧
        (next sizeWidth burstWidth methodCount y c).hits = [] := by
    rintro y c ⟨hblank, hhits⟩ hleg
    refine ⟨hblank.next c.core, ?_⟩
    change y.found sizeWidth burstWidth methodCount c ++
      (if y.cache.ctrl.gotSize burstWidth then [] else y.hits) = []
    rw [found_of_legal hblank hleg, hhits, ite_self, List.append_nil]
  exact (inv_run (I := fun y => y.cache.repl.Blank sizeWidth methodCount ∧ y.hits = []) hstep
    ⟨.of_reset hN hreset.cache, hreset.hits⟩ hrun).2

/-- **Hits are genuine**, for want of any: in every legal run, with a memory of any speed, no
    lookup hits. -/
theorem genuine_of_legal {cs : List Cycle} (hN : 0 < methodCount)
    (hreset : IsReset sizeWidth mem y)
    (hrun : Along (next sizeWidth burstWidth methodCount) (Legal burstWidth) y cs) :
    (run (next sizeWidth burstWidth methodCount) y cs).Genuine sizeWidth mem ∧
      (run (next sizeWidth burstWidth methodCount) y cs).hits = [] := by
  have hnone := hits_of_legal hN hreset hrun
  refine ⟨?_, hnone⟩
  intro b p hmem
  rw [hnone] at hmem
  exact absurd hmem List.not_mem_nil

end Lookup

/-! ### The registers after a cycle -/

section After

variable {sizeWidth burstWidth methodCount : Nat} {mem : Memory} {y : Sys} {c : Cycle}

variable (sizeWidth) in
theorem tag_isSome : (y.tag sizeWidth burstWidth).isSome = y.cache.ctrl.gotSize burstWidth := by
  cases hgot : y.cache.ctrl.gotSize burstWidth <;> simp [tag, tagWrite, hgot]

/-- The size in a tag is rounded to double words. -/
theorem tag_even {t : TagWrite} (h : y.tag sizeWidth burstWidth = some t) : t.size % 2 = 0 := by
  have hdvd : 2 ∣ 2 ^ (sizeWidth + 1) := dvd_pow_self 2 (Nat.succ_ne_zero sizeWidth)
  rw [tag, tagWrite] at h
  split at h
  · obtain ⟨rfl⟩ := h
    dsimp only
    rw [Nat.mod_mod_of_dvd _ hdvd]
    omega
  · cases h

variable {y' : Sys} (hy : y' = Sys.next sizeWidth burstWidth methodCount y c)
include hy

theorem next_called :
    y'.called = if Repl.lookup c.core then some c.core.callRetBase else y.called := by
  rw [hy]
  rfl

theorem next_wrPos : y'.cache.repl.wrPosReg =
    if y.cache.ctrl.gotSize burstWidth then y.cache.repl.posReg else y.cache.repl.wrPosReg := by
  rw [hy, ← tag_isSome sizeWidth]
  rfl

theorem next_transferSize (hgot : y.cache.ctrl.gotSize burstWidth = false) :
    y'.cache.ctrl.transferSizeReg = y.cache.ctrl.transferSizeReg := by
  rw [hy]
  exact if_neg (by simp [hgot])

theorem next_fetchCnt (hgot : y.cache.ctrl.gotSize burstWidth = false) :
    y'.cache.ctrl.fetchCntReg = if y.cache.ctrl.gotWord then
      (y.cache.ctrl.fetchCntReg + 1) % 2 ^ sizeWidth else y.cache.ctrl.fetchCntReg := by
  rw [hy]
  exact if_neg (by simp [hgot])

theorem next_callRetBase (hlook : Repl.lookup c.core = true) :
    y'.cache.ctrl.callRetBaseReg = c.core.callRetBase := by
  rw [hy]
  exact if_pos (lookup_doCallRet hlook)

theorem next_mem : y'.cache.mem = y.cache.mem.write y.cache.ctrl.gotWord
    (writeAddr sizeWidth y.cache) y.cache.ctrl.ocpSlaveReg.data := by
  rw [hy]
  rfl

variable (hclean : Clean sizeWidth methodCount y)
include hclean

theorem next_pos : y'.cache.repl.posReg =
    if Repl.lookup c.core then y.cache.repl.nextPosReg else y.cache.repl.posReg := by
  rw [hy]
  change (if Repl.lookup c.core then y.cache.repl.pos methodCount _ _ _ else _) = _
  rw [hclean.blank.pos_eq]

/-- Every lookup misses, and the tag write makes up for it. -/
theorem next_hit : y'.cache.repl.hitReg =
    if y.cache.ctrl.gotSize burstWidth then true
    else if Repl.lookup c.core then false else y.cache.repl.hitReg := by
  rw [hy, ← tag_isSome sizeWidth]
  change (if (y.tag sizeWidth burstWidth).isSome then true
    else if Repl.lookup c.core then y.cache.repl.hit methodCount (y.tag sizeWidth burstWidth) _ _
    else y.cache.repl.hitReg) = _
  cases htag : y.tag sizeWidth burstWidth with
  | none => rw [hclean.blank.hit_of_noTag]
  | some t => rfl

omit hy in
theorem Clean.forceHit : y.cache.ctrl.forceHit burstWidth = false := by
  rcases hclean.state with hs | hs | hs <;> simp [Ctrl.forceHit, Ctrl.illMem, hs]

omit hy in
/-- After a miss the pipeline waits. -/
theorem Clean.stall (hmiss : y.cache.repl.hitReg = false) : enaOut burstWidth y.cache = false := by
  simp [enaOut, hmiss, hclean.forceHit]

theorem next_nextPos (hwidth : 1 ≤ sizeWidth) : y'.cache.repl.nextPosReg % 2 = 0 := by
  have hrepl : y'.cache.repl = y.cache.repl.next sizeWidth methodCount (y.tag sizeWidth burstWidth)
      c.core (y.invalidate burstWidth c) := by
    rw [hy]
    rfl
  rw [hrepl]
  cases htag : y.tag sizeWidth burstWidth with
  | none => exact hclean.nextPos
  | some t =>
    have hdvd : 2 ∣ 2 ^ sizeWidth := dvd_pow_self 2 (ne_of_gt hwidth)
    change (y.cache.repl.nextPosReg + t.size % 2 ^ sizeWidth) % 2 ^ sizeWidth % 2 = 0
    rw [Nat.mod_mod_of_dvd _ hdvd, Nat.add_mod, hclean.nextPos, Nat.mod_mod_of_dvd _ hdvd,
      tag_even htag]

theorem Clean.next (hwidth : 1 ≤ sizeWidth) (hleg : Legal burstWidth y c)
    (herr : c.mem.err = false) : Clean sizeWidth methodCount y' := by
  have hstate := next_state hy
  -- a miss stays until the size arrives
  have hmiss : y.cache.repl.hitReg = false → y.cache.ctrl.gotSize burstWidth = false →
      y'.cache.repl.hitReg = false := by
    intro hhit hgot
    rw [next_hit hy hclean, hgot, noLookup_of_stall hleg (hclean.stall hhit)]
    exact hhit
  refine ⟨?_, ?_, ?_, ?_, next_nextPos hy hclean hwidth, ?_⟩
  · rw [hy]
    exact Slave.resp_ne_err herr
  · rw [hstate]
    rcases hclean.state with hs | hs | hs
    · cases hhit : y.cache.repl.hitReg <;> simp [Ctrl.stateNext, hs, hclean.resp]
    · cases hgot : y.cache.ctrl.gotSize burstWidth <;> simp [Ctrl.stateNext, hs, hclean.resp, hgot]
    · cases hfin : y.cache.ctrl.finish burstWidth <;> simp [Ctrl.stateNext, hs, hclean.resp, hfin]
  · intro hsize
    rw [hstate] at hsize
    rcases hclean.state with hs | hs | hs
    · cases hhit : y.cache.repl.hitReg with
      | true => simp [Ctrl.stateNext, hs, hclean.resp, hhit] at hsize
      | false => exact hmiss hhit (by simp [Ctrl.gotSize, hs])
    · cases hgot : y.cache.ctrl.gotSize burstWidth with
      | true => simp [Ctrl.stateNext, hs, hclean.resp, hgot] at hsize
      | false => exact hmiss (hclean.miss hs) hgot
    · cases hfin : y.cache.ctrl.finish burstWidth <;>
        simp [Ctrl.stateNext, hs, hclean.resp, hfin] at hsize
  · rw [hy]
    exact hclean.blank.next c.core
  · rw [next_pos hy hclean]
    split
    · exact hclean.nextPos
    · exact hclean.pos

end After

/-! ### The words -/

section Store

variable {sizeWidth burstWidth methodCount : Nat} {mem : Memory} {y : Sys} {c : Cycle}
  {y' : Sys} (hy : y' = Sys.next sizeWidth burstWidth methodCount y c)

/-- The number of the last word of a method that fits. -/
theorem lastWord_of_fits {b : Nat} (h : Fits sizeWidth mem b) :
    lastWord sizeWidth mem b + 1 = sizeOf sizeWidth mem b := by
  obtain ⟨hpos, hlt⟩ := h
  have hsub : sizeOf sizeWidth mem b + 2 ^ sizeWidth - 1 =
      sizeOf sizeWidth mem b - 1 + 2 ^ sizeWidth := by omega
  rw [lastWord, hsub, Nat.add_mod_right, Nat.mod_eq_of_lt (by omega), Nat.sub_add_cancel hpos]

include hy

theorem get_of_noWrite (hword : y.cache.ctrl.gotWord = false) (a : Nat) :
    y'.cache.mem.get a = y.cache.mem.get a := by
  rw [next_mem hy, hword, Banks.write_false]

section Write

variable (hclean : Clean sizeWidth methodCount y) (h : y.Fetching sizeWidth mem)
include hclean h

omit hy in
/-- The place of the next word of the method that is fetched. -/
theorem Fetching.writeAddr (hwidth : 1 ≤ sizeWidth) : MCache.writeAddr sizeWidth y.cache =
    (y.cache.repl.posReg + y.cache.ctrl.fetchCntReg) % 2 ^ sizeWidth := by
  have hdvd : 2 ∣ 2 ^ sizeWidth := dvd_pow_self 2 (ne_of_gt hwidth)
  have hparity : (y.cache.repl.posReg + y.cache.ctrl.fetchCntReg) % 2 ^ sizeWidth % 2 =
      y.cache.ctrl.fetchCntReg % 2 := by
    rw [Nat.mod_mod_of_dvd _ hdvd, Nat.add_mod, hclean.pos, zero_add, Nat.mod_mod]
  rw [MCache.writeAddr, h.wrPos, ← hparity]
  exact Nat.div_add_mod' _ 2

/-- The word that arrives is written behind the words before it. -/
theorem Fetching.words_of_write (hwidth : 1 ≤ sizeWidth) (hword : y.cache.ctrl.gotWord = true)
    (hdata : y.cache.ctrl.ocpSlaveReg.data =
      mem ((y.cache.ctrl.callRetBaseReg + y.cache.ctrl.fetchCntReg) % 2 ^ 30))
    (hlt : y.cache.ctrl.fetchCntReg < 2 ^ sizeWidth) {k : Nat}
    (hk : k ≤ y.cache.ctrl.fetchCntReg) :
    y'.cache.mem.get ((y.cache.repl.posReg + k) % 2 ^ sizeWidth) =
      mem ((y.cache.ctrl.callRetBaseReg + k) % 2 ^ 30) := by
  rw [next_mem hy, hword, h.writeAddr hclean hwidth]
  rcases lt_or_eq_of_le hk with hbefore | rfl
  · rw [Banks.get_write_of_ne _ _ (Ring.offset_ne (by omega) hlt (ne_of_lt hbefore))]
    exact h.words k hbefore
  · rw [Banks.get_write_self, hdata]

end Write

/-! ### One cycle -/

section Step

variable (hclean : Clean sizeWidth methodCount y) (hleg : Legal burstWidth y c)
  (hcall : Callable sizeWidth mem c)
include hclean hleg hcall

/-- A cycle without a tag write keeps the method that is there, or its lookup misses. -/
theorem Stored.of_words (hgot : y.cache.ctrl.gotSize burstWidth = false)
    (hsmall : y.cache.ctrl.stateReg = .transfer →
      y.cache.ctrl.transferSizeReg + 1 < 2 ^ sizeWidth)
    (hhit : y.cache.repl.hitReg = true →
      ∀ b ∈ y.called, y'.Words sizeWidth mem b y.cache.repl.posReg)
    (hmiss : y.cache.repl.hitReg = false → y.called = some y.cache.ctrl.callRetBaseReg ∧
      Fits sizeWidth mem y.cache.ctrl.callRetBaseReg) : y'.Stored sizeWidth mem := by
  have hhit' := next_hit hy hclean
  rw [hgot] at hhit'
  refine ⟨?_, ?_, ?_⟩
  · intro htransfer
    rw [next_transferSize hy hgot]
    rw [next_state hy] at htransfer
    apply hsmall
    rcases hclean.state with hs | hs | hs
    · cases hhit : y.cache.repl.hitReg <;>
        simp [Ctrl.stateNext, hs, hclean.resp, hhit] at htransfer
    · simp [Ctrl.stateNext, hs, hclean.resp, hgot] at htransfer
    · exact hs
  · cases hlook : Repl.lookup c.core with
    | true =>
      intro hset
      rw [hhit', hlook] at hset
      cases hset
    | false =>
      rw [hhit', next_called hy, next_pos hy hclean, hlook]
      exact hhit
  · cases hlook : Repl.lookup c.core with
    | true =>
      intro _
      rw [next_called hy, next_callRetBase hy hlook, hlook]
      exact ⟨rfl, hcall hlook⟩
    | false =>
      rw [hhit', next_called hy, hlook]
      intro hclear
      rw [base_of_stall hy hleg (hclean.stall hclear)]
      exact hmiss hclear

omit hcall in
/-- The tag of the method that was missed is written. -/
theorem Fetching.of_tag (hgot : y.cache.ctrl.gotSize burstWidth = true)
    (h : y.Stored sizeWidth mem) : y'.Fetching sizeWidth mem := by
  have hstall : enaOut burstWidth y.cache = false := stall_of_gotSize hgot
  have hlook := noLookup_of_stall hleg hstall
  obtain ⟨hcalled, hfits⟩ := h.miss (hclean.miss (state_of_gotSize hgot))
  rw [← base_of_stall hy hleg hstall] at hcalled hfits
  refine ⟨?_, ?_, ?_, hfits, ?_⟩
  · rw [next_called hy, hlook]
    exact hcalled
  · rw [next_hit hy hclean, if_pos hgot]
  · rw [next_wrPos hy, if_pos hgot, next_pos hy hclean, hlook]
    rfl
  · have hzero : y'.cache.ctrl.fetchCntReg = 0 := by
      rw [hy]
      exact if_pos hgot
    intro k hk
    rw [hzero] at hk
    exact absurd hk (Nat.not_lt_zero k)

omit hcall in
/-- The transfer goes on. -/
theorem Fetching.next (hstate : y.cache.ctrl.stateReg = .transfer)
    (hstall : enaOut burstWidth y.cache = false) (h : y.Fetching sizeWidth mem)
    (hwords : ∀ k, k < y'.cache.ctrl.fetchCntReg →
      y'.cache.mem.get ((y.cache.repl.posReg + k) % 2 ^ sizeWidth) =
        mem ((y.cache.ctrl.callRetBaseReg + k) % 2 ^ 30)) : y'.Fetching sizeWidth mem := by
  have hgot : y.cache.ctrl.gotSize burstWidth = false := gotSize_of_transfer hstate
  have hlook := noLookup_of_stall hleg hstall
  have hbase := base_of_stall hy hleg hstall
  have hpos : y'.cache.repl.posReg = y.cache.repl.posReg := by
    rw [next_pos hy hclean, hlook]
    rfl
  refine ⟨?_, ?_, ?_, ?_, ?_⟩
  · rw [next_called hy, hlook, hbase]
    exact h.called
  · rw [next_hit hy hclean, hgot, hlook]
    exact h.hit
  · rw [next_wrPos hy, hgot, hpos]
    exact h.wrPos
  · rw [hbase]
    exact h.fits
  · rw [hbase, hpos]
    exact hwords

theorem carries_stored (hsized : Sized sizeWidth burstWidth) :
    Carries sizeWidth burstWidth mem y (y.Stored sizeWidth mem) (y.Fetching sizeWidth mem)
      (y'.Stored sizeWidth mem) (y'.Fetching sizeWidth mem) where
  keep h hgot hwrap := by
    -- the count of the words does not wrap
    have hword : y.cache.ctrl.gotWord = false := by
      rw [Bool.eq_false_iff]
      intro hword
      exact absurd (hwrap hword) (ne_of_lt (h.small (state_of_gotWord hword)))
    refine Stored.of_words hy hclean hleg hcall hgot h.small ?_ h.miss
    intro hhit b hb k hk
    rw [get_of_noWrite hy hword]
    exact h.hit hhit b hb k hk
  size h hgot _ := Fetching.of_tag hy hclean hleg hgot h
  wait h hstate hstall hword := by
    refine h.next hy hclean hleg hstate hstall ?_
    intro k hk
    rw [next_fetchCnt hy (gotSize_of_transfer hstate), hword] at hk
    rw [get_of_noWrite hy hword]
    exact h.words k hk
  word h hstall hword htotal hmore hdata := by
    have hstate := state_of_gotWord hword
    have hlast := lastWord_of_fits h.fits
    have hlt := h.fits.2
    refine h.next hy hclean hleg hstate hstall ?_
    intro k hk
    rw [next_fetchCnt hy (gotSize_of_transfer hstate), if_pos hword,
      Nat.mod_eq_of_lt (by omega)] at hk
    exact h.words_of_write hy hclean (Nat.le_of_succ_le hsized.size) hword hdata (by omega)
      (Nat.le_of_lt_succ hk)
  last h hword htotal hdone hdata := by
    have hlast := lastWord_of_fits h.fits
    have hlt := h.fits.2
    refine Stored.of_words hy hclean hleg hcall (gotSize_of_transfer (state_of_gotWord hword))
      (fun _ => by omega) ?_ ?_
    · intro _ b hb k hk
      rw [h.called, Option.mem_some_iff] at hb
      rw [← hb] at hk ⊢
      exact h.words_of_write hy hclean (Nat.le_of_succ_le hsized.size) hword hdata (by omega)
        (by omega)
    · intro hmiss
      rw [h.hit] at hmiss
      cases hmiss

end Step

end Store

/-! ### Runs -/

section Run

variable {sizeWidth burstWidth methodCount : Nat} {mem : Memory} {y : Sys}

theorem IsReset.stored (h : IsReset sizeWidth mem y) : y.Stored sizeWidth mem := by
  refine ⟨?_, ?_, ?_⟩
  · intro hstate
    exact absurd (h.cache.stateReg.symm.trans hstate) Fsm.noConfusion
  · intro _ b hb
    rw [h.called] at hb
    cases hb
  · intro hmiss
    rw [h.cache.hitReg] at hmiss
    cases hmiss

theorem IsReset.clean (hN : 0 < methodCount) (h : IsReset sizeWidth mem y) :
    Clean sizeWidth methodCount y where
  resp := by
    rw [h.ocpSlaveReg]
    exact OcpResp.noConfusion
  state := .inl h.cache.stateReg
  miss hstate := absurd (h.cache.stateReg.symm.trans hstate) Fsm.noConfusion
  blank := .of_reset hN h.cache
  nextPos := by rw [h.cache.nextPosReg]
  pos := by rw [h.cache.posReg]

/-- The environment in which the method that runs is there: the memory answers without errors, the
    methods fit, and the beat behind a method is not late. -/
structure Safe (sizeWidth burstWidth : Nat) (mem : Memory) (y : Sys) (c : Cycle) : Prop where
  legal : Legal burstWidth y c
  noErr : c.mem.err = false
  fits : Callable sizeWidth mem c
  drained : Drained burstWidth y

/-- **The method that runs is in the cache**, word for word, in every safe run. -/
theorem loaded_of_safe {cs : List Cycle} (hN : 0 < methodCount)
    (hsized : Sized sizeWidth burstWidth) (hreset : IsReset sizeWidth mem y)
    (hrun : Along (next sizeWidth burstWidth methodCount) (Safe sizeWidth burstWidth mem) y cs) :
    (run (next sizeWidth burstWidth methodCount) y cs).Loaded sizeWidth mem := by
  have hstep : ∀ y c, Clean sizeWidth methodCount y ∧ Inv sizeWidth burstWidth
      (y.Stored sizeWidth mem) (y.Fetching sizeWidth mem) mem y →
      Safe sizeWidth burstWidth mem y c →
      Clean sizeWidth methodCount (next sizeWidth burstWidth methodCount y c) ∧
        Inv sizeWidth burstWidth
          ((next sizeWidth burstWidth methodCount y c).Stored sizeWidth mem)
          ((next sizeWidth burstWidth methodCount y c).Fetching sizeWidth mem) mem
          (next sizeWidth burstWidth methodCount y c) := by
    rintro y c ⟨hclean, hinv⟩ hsafe
    exact ⟨hclean.next rfl (Nat.le_of_succ_le hsized.size) hsafe.legal hsafe.noErr,
      hinv.next hsized hsafe.legal hclean.resp hsafe.drained
        (carries_stored rfl hclean hsafe.legal hsafe.fits hsized)⟩
  obtain ⟨-, hinv⟩ := inv_run
    (I := fun y => Clean sizeWidth methodCount y ∧ Inv sizeWidth burstWidth
    (y.Stored sizeWidth mem) (y.Fetching sizeWidth mem) mem y) hstep
    ⟨hreset.clean hN, hreset.inv hreset.stored⟩ hrun
  intro hidle
  cases hinv.link with
  | rest _ _ _ _ hall => exact hall.hit
  | sizing hstate _ _ _ | fetching _ hstate _ _ _ _ _ _ _ | draining _ hstate _ _ _ _ =>
    exact absurd (hidle.symm.trans hstate) Fsm.noConfusion

end Run

/-! ### A run -/

instance (sizeWidth : Nat) (mem : Memory) (c : Cycle) : Decidable (Callable sizeWidth mem c) :=
  inferInstanceAs (Decidable (_ → _ ∧ _))

instance (sizeWidth burstWidth : Nat) (mem : Memory) (y : Sys) (c : Cycle) :
    Decidable (Safe sizeWidth burstWidth mem y c) :=
  decidable_of_iff (_ ∧ _ ∧ _ ∧ _)
    ⟨fun ⟨a, b, c, d⟩ => ⟨a, b, c, d⟩, fun ⟨a, b, c, d⟩ => ⟨a, b, c, d⟩⟩

/-- Methods of eight bytes at 0x8001 and of twelve at 0x8005. -/
def library : Memory := fun a =>
  if a = 0x8000 then word 8 else if a = 0x8004 then word 12 else word a

/-- `n` cycles without a call, with answers of the memory. -/
def fetch (n : Nat) : List Cycle := List.replicate n (call none true false)

/-- Two methods are called and then the first one again. -/
def back : List Cycle :=
  call (some 0x8001) true false :: fetch 7 ++ call (some 0x8005) true false :: fetch 7 ++
    call (some 0x8001) true false :: fetch 7

theorem back_genuine :
    (run (next 2 1 2) (powerUp 2 library) (back.take 17)).called = some 0x8001 ∧
      (run (next 2 1 2) (powerUp 2 library) (back.take 17)).cache.repl.hitReg = false ∧
      (run (next 2 1 2) (powerUp 2 library) (back.take 17)).Genuine 2 library :=
  ⟨by decide +kernel, by decide +kernel,
    (genuine_of_legal (by decide) (powerUp_isReset 2 library) (by decide +kernel)).1⟩

theorem back_loaded :
    (run (next 2 1 2) (powerUp 2 library) back).called = some 0x8001 ∧
      (run (next 2 1 2) (powerUp 2 library) back).Words 2 library 0x8001 2 :=
  ⟨by decide +kernel, loaded_of_safe (by decide) ⟨by decide, by decide, by decide⟩
    (powerUp_isReset 2 library) (by decide +kernel) (by decide +kernel) (by decide +kernel) 0x8001
    (by decide +kernel)⟩

end Patmos.MCache.Sys
