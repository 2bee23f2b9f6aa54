import Patmos.ICacheFetch
import Patmos.MCacheHits

/-!
# Errors during a fetch

Both instruction caches mark what they are about to fetch as valid before its words are there,
and both have a state in which they wait for the end of a burst after an error answer.  The
method cache drops all its methods when it leaves this state, and keeps no tag anyway.  The
instruction cache does not: the line stays valid, unless the core invalidates the cache in just
this cycle.
-/

namespace Patmos

open Ocp MemBlock Clocked BurstRead

/-! ### The instruction cache -/

namespace ICache.Sys

/-- The words of all valid lines were delivered since the lines were marked. -/
def Delivered (lineWidth countWidth : Nat) (y : Sys) : Prop :=
  y.cache.ctrl.stateReg = .idle → ∀ l, l < 2 ^ countWidth → y.cache.repl.validVec l = true →
    ∀ k, k < 2 ^ lineWidth → y.got (y.lineAt countWidth l * 2 ^ lineWidth + k) = true

/-- The core invalidates the cache when a fetch has failed. -/
def Dropped (lineWidth : Nat) (y : Sys) (c : Cycle) : Prop :=
  illMem lineWidth y.cache.ctrl = true → c.core.invalidate = true

instance (lineWidth : Nat) (y : Sys) (c : Cycle) : Decidable (Dropped lineWidth y c) :=
  inferInstanceAs (Decidable (_ → _))

variable {lineWidth countWidth : Nat} {mem : Memory} {y : Sys}

theorem Inv.delivered (hinv : Inv lineWidth countWidth mem y) :
    y.Delivered lineWidth countWidth := by
  intro hidle l hl hvalid k hk
  cases hinv.stage with
  | ready _ hall => exact (hall l hl hvalid k hk).2
  | waiting hstate _ _ _ | filling hstate _ _ _ | failed hstate =>
    exact absurd (hidle.symm.trans hstate) Fsm.noConfusion

theorem inv_of_dropped (hsize : Sized lineWidth countWidth) (hreset : IsReset mem y)
    {cs : List Cycle}
    (hrun : Along (Sys.next lineWidth countWidth)
      (fun y c => Adjacent c.core.addrEven c.core.addrOdd ∧ Dropped lineWidth y c) y cs) :
    Inv lineWidth countWidth mem (run (Sys.next lineWidth countWidth) y cs) := by
  refine inv_run ?_ hreset.inv hrun
  rintro y c hinv ⟨hadj, hdrop⟩
  exact hinv.next hsize hadj hdrop

end ICache.Sys

/-! ### The method cache -/

namespace MCache.Sys

/-- The words of all valid methods were delivered since their tags were written. -/
def Delivered (sizeWidth burstWidth : Nat) (mem : Memory) (y : Sys) (c : Cycle) : Prop :=
  y.cache.ctrl.stateReg = .idle → ∀ i, y.cache.repl.validVec (y.tag sizeWidth burstWidth)
      (y.invalidate burstWidth c) i = true →
    ∀ k, k ≤ lastWord sizeWidth mem (y.cache.repl.addrVec (y.tag sizeWidth burstWidth) i) →
      y.got i ((y.cache.repl.addrVec (y.tag sizeWidth burstWidth) i + k) % 2 ^ 30) = true

variable {sizeWidth burstWidth methodCount : Nat} {mem : Memory} {y : Sys}

/-- No tag is valid while the controller is idle. -/
theorem delivered_of_blank (h : y.cache.repl.Blank sizeWidth methodCount) (c : Cycle) :
    y.Delivered sizeWidth burstWidth mem c := by
  intro hidle i hvalid
  obtain ⟨-, htag, -⟩ := h.validVec_eq_true_iff.mp hvalid
  rw [tag_isSome] at htag
  exact absurd ((state_of_gotSize htag).symm.trans hidle) Fsm.noConfusion

theorem delivered_run (hN : 0 < methodCount) (hreset : IsReset sizeWidth mem y) (cs : List Cycle)
    (c : Cycle) :
    (run (next sizeWidth burstWidth methodCount) y cs).Delivered sizeWidth burstWidth mem c := by
  have hblank : (run (next sizeWidth burstWidth methodCount) y cs).cache.repl.Blank sizeWidth
      methodCount :=
    inv_run (I := fun y : Sys => y.cache.repl.Blank sizeWidth methodCount) (P := fun _ _ => True)
      (fun _ c h _ => h.next c.core) (.of_reset hN hreset.cache)
      (along_of_forall fun _ _ => trivial)
  exact delivered_of_blank hblank c

end MCache.Sys

/-! ### Both caches -/

namespace FetchErrors

/-- In every run in which a failed fetch is dropped, an idle instruction cache has no valid line
    with a word that was not delivered; and in every run an idle method cache has no such method. -/
theorem delivered_of_dropped {lineWidth countWidth : Nat} {mem : Memory} {y : ICache.Sys}
    {cs : List ICache.Cycle} {sizeWidth burstWidth methodCount : Nat} {m : Memory}
    {z : MCache.Sys} (hsize : ICache.Sized lineWidth countWidth) (hreset : y.IsReset mem)
    (hrun : Along (ICache.Sys.next lineWidth countWidth)
      (fun y c => ICache.Adjacent c.core.addrEven c.core.addrOdd ∧ y.Dropped lineWidth c) y cs)
    (hN : 0 < methodCount) (hreset' : z.IsReset sizeWidth m) (ds : List MCache.Cycle)
    (d : MCache.Cycle) :
    (run (ICache.Sys.next lineWidth countWidth) y cs).Delivered lineWidth countWidth ∧
      (run (MCache.Sys.next sizeWidth burstWidth methodCount) z ds).Delivered sizeWidth burstWidth m
        d :=
  ⟨(ICache.Sys.inv_of_dropped hsize hreset hrun).delivered,
    MCache.Sys.delivered_run hN hreset' ds d⟩

/-- A line is fetched after a call, with an error at its first word. -/
def failedFetch (invalidate : Bool) : List ICache.Cycle :=
  [fetch true false false, fetch false false false, fetch false false false,
    fetch false true false, fetch false false false, fetch false false invalidate]
where
  fetch (call err invalidate : Bool) : ICache.Cycle :=
    ⟨⟨0x8000, 0x8001, call, 0x8000, true, invalidate⟩, ⟨true, true, err, fun _ => 0⟩⟩

/-- A method is fetched, after an error at its size. -/
def failedCall : List MCache.Cycle :=
  [MCache.Sys.call (some 0x8001) true false, MCache.Sys.call none true false,
    MCache.Sys.call none true true] ++ List.replicate 11 (MCache.Sys.call none true false)

theorem failed_delivered :
    (run (ICache.Sys.next 1 2) ICache.Sys.powerUp (failedFetch true ++
        List.replicate 5 (failedFetch.fetch false false false))).cache.repl.validVec 0 = true ∧
      (run (ICache.Sys.next 1 2) ICache.Sys.powerUp (failedFetch true ++
        List.replicate 5 (failedFetch.fetch false false false))).Delivered 1 2 ∧
      (run (MCache.Sys.next 2 1 2) (MCache.Sys.powerUp 2 MCache.Sys.library)
        failedCall).Delivered 2 1 MCache.Sys.library (MCache.Sys.call none true false) :=
  ⟨by decide +kernel,
    delivered_of_dropped ⟨by decide, by decide, by decide⟩ ICache.Sys.powerUp_isReset
      (by decide +kernel) (by decide)
        (MCache.Sys.powerUp_isReset 2 MCache.Sys.library) failedCall _⟩

/-- The line whose fetch has failed is valid. -/
theorem failed_not_delivered :
    Along (ICache.Sys.next 1 2) (fun _ c => ICache.Adjacent c.core.addrEven c.core.addrOdd)
        ICache.Sys.powerUp (failedFetch false) ∧
      ¬(run (ICache.Sys.next 1 2) ICache.Sys.powerUp (failedFetch false)).Delivered 1 2 := by
  refine ⟨by decide +kernel, ?_⟩
  intro h
  have hword := h (by decide +kernel) 0 (by decide) (by decide +kernel) 0 (by decide)
  revert hword
  decide +kernel

end FetchErrors

end Patmos
