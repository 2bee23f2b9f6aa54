import Patmos.Select
import Patmos.TransactionalMemory

/-!
# Committed transactions are serializable

The buffer of a core holds its transaction: entry `k` is the `k`-th address that it touched,
with the word it has written there, or else the word it has read.  A core whose conflict flag
is clear has read what the shared memory still holds.  Both are kept in every cycle but one kind:
when a commit of another core writes a word in the very cycle in which the core samples it, the
core has the old word and its entry is not there yet to be found in conflict.
-/

namespace Patmos.TransactionalMemory

open Ocp Clocked
open Function (update update_apply update_of_ne update_self)

/-! ### The buffer -/

/-- The buffer of a core holds a transaction. -/
structure Buf (cfg : Config) (x : Core) (t : Txn) : Prop where
  nxt : x.bufnxt = t.touched.length
  few : t.touched.length ≤ cfg.bufsize - 1
  nodup : t.touched.Nodup
  addr : ∀ k, k < t.touched.length → t.touched[k]? = some (x.bufaddrs k)
  free : ∀ k, t.touched.length ≤ k → x.bufrds k = false ∧ x.bufwrs k = false
  rds : ∀ k, k < t.touched.length → x.bufrds k = (t.reads (x.bufaddrs k)).isSome
  wrs : ∀ k, k < t.touched.length → x.bufwrs k = (t.writes (x.bufaddrs k)).isSome
  data : ∀ k, k < t.touched.length → t.own (x.bufaddrs k) = some (x.bufmem k)
  reads : ∀ a, t.reads a ≠ none → a ∈ t.touched
  writes : ∀ a, t.writes a ≠ none → a ∈ t.touched
  overflow : x.overflowReg = false

theorem Txn.reads_read (t : Txn) (a b : Nat) (w : Word) :
    (t.read a w).reads b = if b = a then some w else t.reads b := update_apply _ _ _ _

/-- The registers that the buffer consists of. -/
def Core.buffer (x : Core) :
    (Nat → Nat) × (Nat → Bool) × (Nat → Bool) × Nat × (Nat → Word) × Bool :=
  (x.bufaddrs, x.bufrds, x.bufwrs, x.bufnxt, x.bufmem, x.overflowReg)

section Buffer

variable {cfg : Config} {x x' : Core} {t t' : Txn} {m : CacheMaster} {k : Nat}

theorem Buf.congr (h : Buf cfg x t) (hsame : x'.buffer = x.buffer) : Buf cfg x' t := by
  obtain ⟨⟩ := x
  obtain ⟨⟩ := x'
  simp only [Core.buffer, Prod.mk.injEq] at hsame
  obtain ⟨rfl, rfl, rfl, rfl, rfl, rfl⟩ := hsame
  exact ⟨h.nxt, h.few, h.nodup, h.addr, h.free, h.rds, h.wrs, h.data, h.reads, h.writes, h.overflow⟩

theorem buf_empty (hnxt : x.bufnxt = 0) (hrds : ∀ k, x.bufrds k = false)
    (hwrs : ∀ k, x.bufwrs k = false) (hover : x.overflowReg = false) : Buf cfg x Txn.empty where
  nxt := hnxt
  few := Nat.zero_le _
  nodup := List.nodup_nil
  addr k hk := absurd hk (Nat.not_lt_zero k)
  free k _ := ⟨hrds k, hwrs k⟩
  rds k hk := absurd hk (Nat.not_lt_zero k)
  wrs k hk := absurd hk (Nat.not_lt_zero k)
  data k hk := absurd hk (Nat.not_lt_zero k)
  reads _ ha := absurd rfl ha
  writes _ ha := absurd rfl ha
  overflow := hover

theorem Buf.used (h : Buf cfg x t) (hk : k < t.touched.length) :
    (x.bufrds k || x.bufwrs k) = true := by
  have hown := h.data k hk
  rw [h.rds k hk, h.wrs k hk]
  unfold Txn.own at hown
  cases hw : t.writes (x.bufaddrs k) with
  | some w => simp
  | none =>
    rw [hw, Option.none_or] at hown
    simp [hown]

/-- The encoder of a word with one bit. -/
theorem foldl_or_of_one {p : Nat → Bool} {n : Nat} (hk : p k = true) (hlt : k < n)
    (hone : ∀ j < n, p j = true → j = k) :
    (List.range n).foldl (fun b j => if p j then b ||| j else b) 0 = k := by
  have hor : (fun b j => if p j then b ||| j else b) = fun b j => b ||| (if p j then j else 0) := by
    funext b j
    split <;> simp
  rw [hor, ← List.map_coe_finRange_eq_range, List.foldl_map]
  refine (Select.foldl_of_one (k := ⟨k, hlt⟩) Nat.zero_or Nat.or_zero fun j hj => ?_).trans
    (if_pos hk)
  exact if_neg fun hp => hj (Fin.ext (hone j j.isLt hp))

theorem bufaddr_mod (h : bufaddr cfg m < cfg.memsize) :
    bufaddr cfg m % 2 ^ memaddrwidth cfg = bufaddr cfg m :=
  Nat.mod_eq_of_lt (lt_of_lt_of_le h (MemBlock.le_pow_log2Up cfg.memsize))

section Entries

variable {a j : Nat} {w : Word} (h : Buf cfg x t)
include h

theorem Buf.matches_iff : bufmatches cfg x m k = true ↔ t.touched[k]? = some (bufaddr cfg m) := by
  by_cases hk : k < t.touched.length
  · rw [h.addr k hk, Option.some.injEq, bufmatches, h.used hk, Bool.and_true, beq_iff_eq]
  · have hge := Nat.le_of_not_lt hk
    obtain ⟨hrds, hwrs⟩ := h.free k hge
    rw [List.getElem?_eq_none hge]
    simp [bufmatches, hrds, hwrs]

theorem Buf.lt_bufsize (hk : k < t.touched.length) : k < cfg.bufsize := by
  have hfew := h.few
  omega

theorem Buf.bufmatched_iff : bufmatched cfg x m = true ↔ bufaddr cfg m ∈ t.touched := by
  rw [bufmatched, List.any_eq_true]
  constructor
  · rintro ⟨k, _, hk⟩
    exact List.mem_of_getElem? (h.matches_iff.mp hk)
  · intro hmem
    obtain ⟨k, hk⟩ := List.mem_iff_getElem?.mp hmem
    have hlt : k < t.touched.length := (List.getElem?_eq_some_iff.mp hk).1
    exact ⟨k, List.mem_range.mpr (h.lt_bufsize hlt), h.matches_iff.mpr hk⟩

theorem Buf.bufmatch_eq (hk : t.touched[k]? = some (bufaddr cfg m)) : bufmatch cfg x m = k := by
  have hlt : k < t.touched.length := (List.getElem?_eq_some_iff.mp hk).1
  have hone : ∀ j < cfg.bufsize, bufmatches cfg x m j = true → j = k := by
    intro j _ hj
    have hsame : t.touched[j]? = t.touched[k]? := (h.matches_iff.mp hj).trans hk.symm
    exact ((List.getElem?_inj hlt h.nodup).mp hsame.symm).symm
  exact foldl_or_of_one (h.matches_iff.mpr hk) (h.lt_bufsize hlt) hone

/-- Two entries do not have the same address. -/
theorem Buf.addr_inj (hj : j < t.touched.length) (hk : k < t.touched.length)
    (heq : x.bufaddrs j = x.bufaddrs k) : j = k := by
  have hsame : t.touched[j]? = t.touched[k]? := by rw [h.addr j hj, h.addr k hk, heq]
  exact (List.getElem?_inj hj h.nodup).mp hsame

theorem Buf.write_matched (hk : t.touched[k]? = some a)
    (htouched : t'.touched = t.touched) (hreads : t'.reads = t.reads)
    (hwrites : t'.writes = update t.writes a (some w)) (hx : x'.buffer = (x.bufaddrs, x.bufrds,
      update x.bufwrs k true, x.bufnxt, update x.bufmem k w, x.overflowReg)) : Buf cfg x' t' := by
  simp only [Core.buffer, Prod.mk.injEq] at hx
  obtain ⟨haddrs, hrds, hwrs, hnxt, hmem, hover⟩ := hx
  have hlt : k < t.touched.length := (List.getElem?_eq_some_iff.mp hk).1
  have hak : x.bufaddrs k = a := Option.some.inj ((h.addr k hlt).symm.trans hk)
  have hentry : ∀ j, j < t.touched.length → x'.bufwrs j = (t'.writes (x.bufaddrs j)).isSome ∧
      t'.own (x.bufaddrs j) = some (x'.bufmem j) := by
    intro j hj
    rw [hwrs, hmem, Txn.own, hwrites, hreads]
    by_cases hjk : j = k
    · rw [hjk, hak, update_self, update_self, update_self]
      exact ⟨rfl, Option.some_or⟩
    · have hother : x.bufaddrs j ≠ a := fun heq => hjk (h.addr_inj hj hlt (heq.trans hak.symm))
      rw [update_of_ne hjk, update_of_ne hjk, update_of_ne hother]
      exact ⟨h.wrs j hj, h.data j hj⟩
  refine ⟨?_, ?_, ?_, ?_, ?_, ?_, ?_, ?_, ?_, ?_, hover.trans h.overflow⟩
  · rw [hnxt, h.nxt, htouched]
  · rw [htouched]
    exact h.few
  · rw [htouched]
    exact h.nodup
  · rw [haddrs, htouched]
    exact h.addr
  · intro j hj
    rw [htouched] at hj
    have hne : j ≠ k := by
      rintro rfl
      exact absurd hlt (Nat.not_lt.mpr hj)
    rw [hrds, hwrs, update_of_ne hne]
    exact h.free j hj
  · rw [hrds, haddrs, hreads, htouched]
    exact h.rds
  · rw [haddrs, htouched]
    exact fun j hj => (hentry j hj).1
  · rw [haddrs, htouched]
    exact fun j hj => (hentry j hj).2
  · rw [hreads, htouched]
    exact h.reads
  · intro b hb
    rw [htouched]
    by_cases hba : b = a
    · rw [hba]
      exact List.mem_of_getElem? hk
    · rw [hwrites, update_of_ne hba] at hb
      exact h.writes b hb

/-- An address comes into the buffer, as one that was read or as one that was written. -/
theorem Buf.append (hnew : a ∉ t.touched) (hfew : t.touched.length + 1 ≤ cfg.bufsize - 1)
    (htouched : t'.touched = t.touched ++ [a]) (hreads : ∀ b, b ≠ a → t'.reads b = t.reads b)
    (hwrites : ∀ b, b ≠ a → t'.writes b = t.writes b) (hown : t'.own a = some w)
    (hx : x'.buffer = (update x.bufaddrs x.bufnxt a, update x.bufrds x.bufnxt (t'.reads a).isSome,
      update x.bufwrs x.bufnxt (t'.writes a).isSome, x.bufnxt + 1, update x.bufmem x.bufnxt w,
      x.overflowReg)) : Buf cfg x' t' := by
  simp only [Core.buffer, Prod.mk.injEq] at hx
  obtain ⟨haddrs, hrds, hwrs, hnxt, hmem, hover⟩ := hx
  have hlen : t'.touched.length = t.touched.length + 1 := by rw [htouched]; simp
  have hself : x'.bufaddrs x.bufnxt = a := by rw [haddrs, update_self]
  have hold : ∀ j, j < t.touched.length → x'.bufaddrs j = x.bufaddrs j ∧ x.bufaddrs j ≠ a := by
    intro j hj
    constructor
    · rw [haddrs, update_of_ne (by rw [h.nxt]; exact ne_of_lt hj)]
    · rintro rfl
      exact hnew (List.mem_of_getElem? (h.addr j hj))
  have hsplit : ∀ j, j < t'.touched.length → j < t.touched.length ∨ j = x.bufnxt := by
    intro j hj
    rw [hlen, Nat.lt_succ_iff_lt_or_eq] at hj
    rwa [h.nxt]
  have hentry : ∀ j, j < t'.touched.length → x'.bufrds j = (t'.reads (x'.bufaddrs j)).isSome ∧
      x'.bufwrs j = (t'.writes (x'.bufaddrs j)).isSome ∧
      t'.own (x'.bufaddrs j) = some (x'.bufmem j) := by
    intro j hj
    rw [hrds, hwrs, hmem]
    rcases hsplit j hj with hlt | rfl
    · obtain ⟨hsame, hne⟩ := hold j hlt
      have hjn : j ≠ x.bufnxt := h.nxt ▸ ne_of_lt hlt
      rw [update_of_ne hjn, update_of_ne hjn, update_of_ne hjn, hsame, Txn.own, hreads _ hne,
        hwrites _ hne]
      exact ⟨h.rds j hlt, h.wrs j hlt, h.data j hlt⟩
    · rw [update_self, update_self, update_self, hself]
      exact ⟨rfl, rfl, hown⟩
  refine ⟨?_, ?_, ?_, ?_, ?_, fun j hj => (hentry j hj).1, fun j hj => (hentry j hj).2.1,
    fun j hj => (hentry j hj).2.2, ?_, ?_, hover.trans h.overflow⟩
  · rw [hnxt, hlen, h.nxt]
  · rw [hlen]
    exact hfew
  · rw [htouched]
    exact List.nodup_append.mpr ⟨h.nodup, List.nodup_singleton a, by
      rintro b hb c hc rfl
      exact hnew (List.mem_singleton.mp hc ▸ hb)⟩
  · intro j hj
    rw [htouched]
    rcases hsplit j hj with hlt | rfl
    · rw [List.getElem?_append_left hlt, (hold j hlt).1, h.addr j hlt]
    · rw [hself, h.nxt, List.getElem?_concat_length]
  · intro j hj
    have hne : j ≠ x.bufnxt := by
      rw [h.nxt]
      omega
    rw [hrds, hwrs, update_of_ne hne, update_of_ne hne]
    exact h.free j (by omega)
  · intro b hb
    rw [htouched, List.mem_append, List.mem_singleton]
    by_cases hba : b = a
    · exact Or.inr hba
    · rw [hreads b hba] at hb
      exact Or.inl (h.reads b hb)
  · intro b hb
    rw [htouched, List.mem_append, List.mem_singleton]
    by_cases hba : b = a
    · exact Or.inr hba
    · rw [hwrites b hba] at hb
      exact Or.inl (h.writes b hb)

theorem bufnxtInc_of_few (hfew : t.touched.length + 1 ≤ cfg.bufsize - 1) :
    bufnxtInc cfg x = x.bufnxt + 1 := by
  have hne : x.bufnxt ≠ cfg.bufsize := by
    rw [h.nxt]
    omega
  exact if_neg hne

theorem Buf.reads_of_new (hnew : a ∉ t.touched) : t.reads a = none := by
  by_contra hreads
  exact hnew (h.reads a hreads)

theorem Buf.writes_of_new (hnew : a ∉ t.touched) : t.writes a = none := by
  by_contra hwrites
  exact hnew (h.writes a hwrites)

/-- An address that was not touched is written. -/
theorem Buf.write_new (hnew : a ∉ t.touched) (hfew : t.touched.length + 1 ≤ cfg.bufsize - 1)
    (hx : x'.buffer = (update x.bufaddrs x.bufnxt a, x.bufrds, update x.bufwrs x.bufnxt true,
      bufnxtInc cfg x, update x.bufmem x.bufnxt w, x.overflowReg)) : Buf cfg x' (t.write a w) := by
  have hfree := (h.free x.bufnxt h.nxt.ge).1
  refine h.append (w := w) hnew hfew (if_neg hnew) (fun _ _ => rfl)
    (fun b hb => update_of_ne hb _ _) ?_
    (hx.trans ?_)
  · simp [Txn.own, Txn.write]
  · simp [Txn.write, h.reads_of_new hnew, ← hfree, bufnxtInc_of_few h hfew]

/-- The word of an address that was not touched comes into the buffer. -/
theorem Buf.sharedRead (hnew : a ∉ t.touched)
    (hfew : t.touched.length + 1 ≤ cfg.bufsize - 1) (haddr : x.memrdaddrReg = a) (w : Word) :
    Buf cfg (TransactionalMemory.sharedRead cfg x w) (t.read a w) := by
  have hfree := (h.free x.bufnxt h.nxt.ge).2
  refine h.append (w := w) hnew hfew (if_neg hnew) (fun b hb => update_of_ne hb _ _)
    (fun _ _ => rfl) ?_ ?_
  · simp [Txn.own, Txn.read, h.writes_of_new hnew]
  · simp [Core.buffer, TransactionalMemory.sharedRead, Txn.read, h.writes_of_new hnew, ← hfree,
      bufnxtInc_of_few h hfew, haddr]

/-- An entry of the buffer is next. -/
theorem Buf.mem_take_succ (hj : j < t.touched.length) (a : Nat) :
    a ∈ t.touched.take (j + 1) ↔ a ∈ t.touched.take j ∨ a = x.bufaddrs j := by
  have hentry : t.touched[j]? = some (x.bufaddrs j) := h.addr j hj
  rw [List.take_add_one, hentry, List.mem_append]
  simp

theorem Buf.written (hwrs : x.bufwrs j = true) :
    j < t.touched.length ∧ t.writes (x.bufaddrs j) = some (x.bufmem j) := by
  have hlt : j < t.touched.length := by
    by_contra hge
    rw [(h.free j (Nat.le_of_not_lt hge)).2] at hwrs
    cases hwrs
  refine ⟨hlt, ?_⟩
  obtain ⟨w, hw⟩ := Option.isSome_iff_exists.mp ((h.wrs j hlt).symm.trans hwrs)
  have hown := h.data j hlt
  rw [Txn.own, hw, Option.some_or] at hown
  rw [hw, hown]

end Entries

/-- The memory `b` with what was written to the first `j` addresses. -/
def Txn.progress (t : Txn) (b : Memory) (j : Nat) : Memory := fun a =>
  if a ∈ t.touched.take j then (t.writes a).getD (b a) else b a

theorem Txn.progress_of_none {b : Memory} {j : Nat}
    (h : ∀ a ∈ t.touched.take j, t.writes a = none) : t.progress b j = b := by
  funext a
  unfold Txn.progress
  split
  · rename_i ha
    rw [h a ha, Option.getD_none]
  · rfl

theorem Buf.progress_succ (h : Buf cfg x t) {j : Nat} (hj : j < t.touched.length) (b : Memory) :
    t.progress b (j + 1) =
      if x.bufwrs j then update (t.progress b j) (x.bufaddrs j) (x.bufmem j)
      else t.progress b j := by
  funext a
  have hmem := h.mem_take_succ hj a
  by_cases ha : a = x.bufaddrs j
  · have hin : a ∈ t.touched.take (j + 1) := hmem.mpr (Or.inr ha)
    cases hwrs : x.bufwrs j with
    | true =>
      rw [if_pos rfl, ha, update_self, Txn.progress, if_pos (ha ▸ hin),
        (h.written hwrs).2, Option.getD_some]
    | false =>
      have hnone : t.writes a = none := by
        have hisSome := h.wrs j hj
        rw [hwrs, ← ha] at hisSome
        exact Option.isNone_iff_eq_none.mp (Option.isSome_eq_false_iff.mp hisSome.symm)
      rw [if_neg Bool.false_ne_true, Txn.progress, if_pos hin, hnone, Option.getD_none,
        Txn.progress, hnone, Option.getD_none, ite_self]
  · have hsame : t.progress b (j + 1) a = t.progress b j a := by
      have hiff : a ∈ t.touched.take (j + 1) ↔ a ∈ t.touched.take j :=
        hmem.trans (or_iff_left ha)
      simp only [Txn.progress, hiff]
    rw [hsame]
    split
    · rw [update_of_ne ha]
    · rfl

theorem Buf.progress_all (h : Buf cfg x t) (b : Memory) :
    t.progress b t.touched.length = t.apply b := by
  funext a
  unfold Txn.progress Txn.apply
  rw [List.take_length]
  split
  · rfl
  · rename_i ha
    rw [h.writes_of_new ha, Option.getD_none]

end Buffer

namespace Sys

variable {corecnt : Nat}

/-! ### What a core is doing -/

section Stages

variable (cfg : Config) (y : Sys corecnt) (i : Fin corecnt)

/-- An access may be made. -/
structure Allowed (m : CacheMaster) : Prop where
  inside : isCommit m = false → bufaddr cfg m < cfg.memsize
  few : isCommit m = false → ((y.txn i).touch (bufaddr cfg m)).length ≤ cfg.bufsize - 1

/-- A command is outstanding, and nothing else comes. -/
structure Waiting (m : CacheMaster) : Prop where
  pend : y.pend i = some m
  resp : (y.tm.core i).slaveReg.resp = .null
  reg : cfg.pipeline = true → (y.tm.core i).ioMReg.cmd = .idle

/-- A read of an address that was not touched. -/
structure Fresh (m : CacheMaster) : Prop where
  rd : m.cmd = .rd
  commit : isCommit m = false
  new : bufaddr cfg m ∉ (y.txn i).touched
  few : (y.txn i).touched.length + 1 ≤ cfg.bufsize - 1
  addr : (y.tm.core i).memrdaddrReg = bufaddr cfg m

/-- A commit has gone through `bufmemrdaddrReg` entries. -/
structure Moving : Prop where
  le : (y.tm.core i).bufmemrdaddrReg ≤ (y.tm.core i).bufnxt
  turn : (y.tm.core i).bufmemrdaddrReg ≠ 0 →
    y.tm.corecur = i ∧ (y.tm.core i).bufconflict = false
  before : y.start i = none →
    ∀ a ∈ (y.txn i).touched.take (y.tm.core i).bufmemrdaddrReg, (y.txn i).writes a = none
  since : ∀ b, y.start i = some b →
    y.tm.sharedmem = (y.txn i).progress b (y.tm.core i).bufmemrdaddrReg

inductive Stage : Prop where
  | free (hs : (y.tm.core i).sReg = .sIdle)
      (hreg : cfg.pipeline = true → (y.tm.core i).ioMReg.cmd = .idle)
      (hpend : y.pend i = none ∨ (y.tm.core i).slaveReg.resp ≠ .null)
  | sent (m : CacheMaster) (hs : (y.tm.core i).sReg = .sIdle) (hpipe : cfg.pipeline = true)
      (hreg : (y.tm.core i).ioMReg = m) (hcmd : m.cmd ≠ .idle) (hpend : y.pend i = some m)
      (hresp : (y.tm.core i).slaveReg.resp = .null) (hallowed : Allowed cfg y i m)
  | read (m : CacheMaster) (hs : (y.tm.core i).sReg = .sRead) (hwait : Waiting cfg y i m)
      (hrd : m.cmd = .rd) (hcommit : isCommit m = false)
      (htouched : bufaddr cfg m ∈ (y.txn i).touched)
  | pre (m : CacheMaster) (hs : (y.tm.core i).sReg = .sPreSharedRead)
      (hwait : Waiting cfg y i m) (hfresh : Fresh cfg y i m)
  | shared (m : CacheMaster) (hs : (y.tm.core i).sReg = .sSharedRead)
      (hwait : Waiting cfg y i m) (hfresh : Fresh cfg y i m)
      (haddr : y.tm.sharedmemrdaddrReg = bufaddr cfg m)
  | commit (m : CacheMaster) (hs : (y.tm.core i).sReg = .sCommit) (hwait : Waiting cfg y i m)
      (hcommit : isCommit m = true) (hmoving : Moving y i)

structure CoreInv : Prop where
  buf : Buf cfg (y.tm.core i) (y.txn i)
  agree : (y.tm.core i).bufconflict = false → (y.txn i).Reads (y.base i)
  begun : y.start i ≠ none →
    (y.tm.core i).sReg = .sCommit ∧ (y.tm.core i).bufmemrdaddrReg ≠ 0
  stage : Stage cfg y i

end Stages

/-- What a commit returns, and what it has done. -/
def Outcome (cfg : Config) (y : Sys corecnt) (c : Cycle corecnt) (i : Fin corecnt)
    (data : Word) : Prop :=
  (data = zero ∧ (y.txn i).Reads (y.base i) ∧
      (y.next cfg c).tm.sharedmem = (y.txn i).apply (y.base i)) ∨
    (data = minusOne ∧ y.start i = none ∧ y.writes i = false)

/-- What a cycle does to a core. -/
structure Step (cfg : Config) (y : Sys corecnt) (c : Cycle corecnt) (i : Fin corecnt) : Prop where
  inv : CoreInv cfg (y.next cfg c) i
  outcome : ∀ m data, y.answered cfg c i = some (m, data) → isCommit m = true →
    Outcome cfg y c i data

section Cycle

variable {cfg : Config} {y : Sys corecnt} {c : Cycle corecnt} {i k : Fin corecnt}
  {m : CacheMaster}

/-! ### Writes into the shared memory -/

theorem writes_iff : y.writes i = true ↔ y.tm.corecur = i ∧ (y.tm.core i).sReg = .sCommit ∧
    (y.tm.core i).bufconflict = false ∧
    (y.tm.core i).bufwrs (y.tm.core i).bufmemrdaddrReg = true := by
  unfold writes applied sharedmemwr current
  constructor
  · intro h
    split at h
    · rename_i hwr
      have hcur : y.tm.corecur = i := by simpa using h
      simp only [Bool.and_eq_true, beq_iff_eq, Bool.not_eq_true'] at hwr
      rw [hcur] at hwr
      exact ⟨hcur, hwr.1.1, hwr.1.2, hwr.2⟩
    · simp at h
  · rintro ⟨hcur, hs, hconflict, hwrs⟩
    simp [hcur, hs, hconflict, hwrs]

theorem applied_of_writes (h : y.writes i = true) : applied y.tm =
    some (i, (y.tm.core i).bufaddrs (y.tm.core i).bufmemrdaddrReg,
      (y.tm.core i).bufmem (y.tm.core i).bufmemrdaddrReg) := by
  obtain ⟨hcur, hs, hconflict, hwrs⟩ := writes_iff.mp h
  simp [applied, sharedmemwr, current, hcur, hs, hconflict, hwrs]

theorem not_writes (h : y.tm.corecur = i → (y.tm.core i).sReg = .sCommit →
    (y.tm.core i).bufconflict = false →
    (y.tm.core i).bufwrs (y.tm.core i).bufmemrdaddrReg = false) : y.writes i = false := by
  by_contra hw
  obtain ⟨hcur, hs, hconflict, hwrs⟩ := writes_iff.mp (Bool.eq_true_of_not_eq_false hw)
  exact Bool.false_ne_true ((h hcur hs hconflict).symm.trans hwrs)

theorem not_writes_of_sReg (h : (y.tm.core i).sReg ≠ .sCommit) : y.writes i = false :=
  not_writes fun _ hs => absurd hs h

theorem CoreInv.start_of_sReg (h : CoreInv cfg y i) (hs : (y.tm.core i).sReg ≠ .sCommit) :
    y.start i = none := by
  by_contra hstart
  exact hs (h.begun hstart).1

theorem CoreInv.begun_of_sReg (h : CoreInv cfg y i) (hs : (y.tm.core i).sReg ≠ .sCommit) :
    (if y.writes i then some (y.base i) else y.start i) = none := by
  rw [not_writes_of_sReg hs, if_neg Bool.false_ne_true, h.start_of_sReg hs]

theorem conflicts_of_reads (hbuf : Buf cfg (y.tm.core i) (y.txn i)) {a : Nat} {w : Word}
    (happlied : applied y.tm = some (k, a, w)) (hne : k ≠ i) (hreads : (y.txn i).reads a ≠ none) :
    conflicts cfg y.tm i = true := by
  obtain ⟨j, hj⟩ := List.mem_iff_getElem?.mp (hbuf.reads a hreads)
  have hlt : j < (y.txn i).touched.length := (List.getElem?_eq_some_iff.mp hj).1
  have haddr : (y.tm.core i).bufaddrs j = a :=
    Option.some.inj ((hbuf.addr j hlt).symm.trans hj)
  have hrds : (y.tm.core i).bufrds j = true := by
    rw [hbuf.rds j hlt, haddr]
    exact Option.isSome_iff_ne_none.mpr hreads
  simp only [conflicts, happlied, Bool.and_eq_true, bne_iff_ne]
  refine ⟨hne, List.any_eq_true.mpr ⟨j, List.mem_range.mpr (hbuf.lt_bufsize hlt), ?_⟩⟩
  simp [hrds, haddr]

/-- Another core writes no word that was read, unless it is a conflict. -/
theorem memNext_of_noConflict (hbuf : Buf cfg (y.tm.core i) (y.txn i))
    (hconflict : conflicts cfg y.tm i = false) (hwrites : y.writes i = false) {a : Nat}
    (hreads : (y.txn i).reads a ≠ none) : memNext y.tm a = y.tm.sharedmem a := by
  cases happlied : applied y.tm with
  | none => simp [memNext, happlied]
  | some p =>
    obtain ⟨k, b, w⟩ := p
    have hne : k ≠ i := by
      rintro rfl
      simp [writes, happlied] at hwrites
    have hab : a ≠ b := by
      rintro rfl
      rw [conflicts_of_reads hbuf happlied hne hreads] at hconflict
      cases hconflict
    simp [memNext, happlied, hab]

/-! ### The ledgers -/

theorem answered_of_null (h : (coreNext cfg y.tm i (c i)).slaveReg.resp = .null) :
    y.answered cfg c i = none := if_pos h

theorem answered_of_dva (h : (coreNext cfg y.tm i (c i)).slaveReg.resp = .dva)
    (hpend : y.pendNext c i = some m) : y.answered cfg c i =
      some (m, (coreNext cfg y.tm i (c i)).slaveReg.data) := by
  rw [answered, h, if_neg OcpResp.noConfusion, hpend, Option.map_some]

theorem txn_of_answered {data : Word} (h : y.answered cfg c i = some (m, data)) :
    (y.next cfg c).txn i = (y.txn i).access cfg m data := by
  simp [next, h]

theorem txn_of_noAnswer (h : y.answered cfg c i = none) : (y.next cfg c).txn i = y.txn i := by
  simp [next, h]

/-- While a transaction goes on, its first write is kept. -/
theorem start_of_keep (h : ∀ m data, y.answered cfg c i = some (m, data) → isCommit m = false) :
    (y.next cfg c).start i = if y.writes i then some (y.base i) else y.start i := by
  have hany : ((y.answered cfg c i).any fun p => isCommit p.1) = false := by
    cases hans : y.answered cfg c i with
    | none => rfl
    | some p => simpa using h p.1 p.2 hans
  simp only [next, hany, Bool.false_eq_true, if_false, base]

theorem start_of_commit {data : Word} (h : y.answered cfg c i = some (m, data))
    (hcommit : isCommit m = true) : (y.next cfg c).start i = none := by
  simp [next, h, hcommit]

/-- A transaction that goes on agrees with the memory as long as there is no conflict. -/
theorem CoreInv.agree_next (h : CoreInv cfg y i)
    (hreads : ((y.next cfg c).txn i).reads = (y.txn i).reads)
    (hstart : (y.next cfg c).start i = if y.writes i then some (y.base i) else y.start i)
    (hflag : ((y.next cfg c).tm.core i).bufconflict =
      ((y.tm.core i).bufconflict || conflicts cfg y.tm i)) :
    ((y.next cfg c).tm.core i).bufconflict = false →
      ((y.next cfg c).txn i).Reads ((y.next cfg c).base i) := by
  intro hfalse a v hav
  rw [hflag, Bool.or_eq_false_iff] at hfalse
  rw [hreads] at hav
  have hold := h.agree hfalse.1 a v hav
  cases hwrites : y.writes i with
  | true =>
    rw [base, hstart, hwrites, if_pos rfl, Option.getD_some]
    exact hold
  | false =>
    rw [base, hstart, hwrites, if_neg Bool.false_ne_true]
    cases hs : y.start i with
    | some b =>
      rw [base, hs, Option.getD_some] at hold
      exact hold
    | none =>
      rw [base, hs, Option.getD_none] at hold
      rw [Option.getD_none, ← hold]
      exact memNext_of_noConflict h.buf hfalse.2 hwrites (by simp [hav])

/-! ### Waiting cores -/

theorem Waiting.silent (h : Waiting cfg y i m) (hlegal : Legal cfg y c) : (c i).cmd = .idle :=
  hlegal.single.silent h.pend h.resp

theorem Waiting.pendNext (h : Waiting cfg y i m) (hlegal : Legal cfg y c) :
    y.pendNext c i = some m :=
  hlegal.single.pendNext h.pend h.resp

theorem Waiting.next (h : Waiting cfg y i m) (hlegal : Legal cfg y c)
    (hnull : (coreNext cfg y.tm i (c i)).slaveReg.resp = .null) :
    Waiting cfg (y.next cfg c) i m := by
  refine ⟨h.pendNext hlegal, hnull, fun _ => ?_⟩
  exact h.silent hlegal

theorem Fresh.next (h : Fresh cfg y i m) (htxn : (y.next cfg c).txn i = y.txn i)
    (haddr : ((y.next cfg c).tm.core i).memrdaddrReg = (y.tm.core i).memrdaddrReg) :
    Fresh cfg (y.next cfg c) i m :=
  ⟨h.rd, h.commit, htxn ▸ h.new, htxn ▸ h.few, haddr.trans h.addr⟩

/-! ### Kinds of cycles -/

/-- The registers of a core that its state machine leaves. -/
def fsm (cfg : Config) (y : Sys corecnt) (c : Cycle corecnt) (i : Fin corecnt) : Core :=
  fsmNext cfg y.tm i (ioM cfg (y.tm.core i) (c i))

theorem core_next {x : Core} (hfsm : y.fsm cfg c i = x) :
    coreNext cfg y.tm i (c i) = { x with ioMReg := c i } :=
  congrArg (fun x : Core => { x with ioMReg := c i }) hfsm

theorem CoreInv.step_of_quiet (h : CoreInv cfg y i) {x : Core}
    (hfsm : y.fsm cfg c i = x)
    (hbuffer : x.buffer = (y.tm.core i).buffer) (hresp : x.slaveReg.resp = .null)
    (hflag : x.bufconflict = ((y.tm.core i).bufconflict || conflicts cfg y.tm i))
    (hbegun : (if y.writes i then some (y.base i) else y.start i) ≠ none →
      x.sReg = .sCommit ∧ x.bufmemrdaddrReg ≠ 0)
    (hstage : (y.next cfg c).tm.core i = { x with ioMReg := c i } →
      (coreNext cfg y.tm i (c i)).slaveReg.resp = .null → (y.next cfg c).txn i = y.txn i →
      (y.next cfg c).start i = (if y.writes i then some (y.base i) else y.start i) →
      Stage cfg (y.next cfg c) i) : Step cfg y c i := by
  have hnext : (y.next cfg c).tm.core i = { x with ioMReg := c i } := core_next hfsm
  have hnull : (coreNext cfg y.tm i (c i)).slaveReg.resp = .null := by
    rw [core_next hfsm]
    exact hresp
  have hnone : y.answered cfg c i = none := answered_of_null hnull
  have htxn := txn_of_noAnswer hnone
  have hstart : (y.next cfg c).start i = if y.writes i then some (y.base i) else y.start i := by
    apply start_of_keep
    intro m data hans
    rw [hnone] at hans
    cases hans
  refine ⟨⟨?_, ?_, ?_, hstage hnext hnull htxn hstart⟩, ?_⟩
  · rw [htxn, hnext]
    exact h.buf.congr hbuffer
  · exact h.agree_next (by rw [htxn]) hstart (by rw [hnext]; exact hflag)
  · rw [hstart, hnext]
    exact hbegun
  · intro m data hans
    rw [hnone] at hans
    cases hans

theorem CoreInv.step_of_access (h : CoreInv cfg y i) {x : Core} {t : Txn}
    (hfsm : y.fsm cfg c i = x)
    (hs : (y.tm.core i).sReg ≠ .sCommit) (hpend : y.pendNext c i = some m)
    (hcommit : isCommit m = false) (hreg : cfg.pipeline = true → (c i).cmd = .idle)
    (hresp : x.slaveReg.resp = .dva) (hidle : x.sReg = .sIdle)
    (hflag : x.bufconflict = ((y.tm.core i).bufconflict || conflicts cfg y.tm i))
    (hbuf : Buf cfg x t) (haccess : (y.txn i).access cfg m x.slaveReg.data = t)
    (hreads : t.reads = (y.txn i).reads ∨ (x.bufconflict = false → t.Reads (memNext y.tm))) :
    Step cfg y c i := by
  have hcore := core_next hfsm
  have hnext : (y.next cfg c).tm.core i = { x with ioMReg := c i } := hcore
  have hans : y.answered cfg c i = some (m, x.slaveReg.data) := by
    rw [answered_of_dva (by rw [hcore]; exact hresp) hpend, hcore]
  have htxn : (y.next cfg c).txn i = t := (txn_of_answered hans).trans haccess
  have hkeep : ∀ m' data, y.answered cfg c i = some (m', data) → isCommit m' = false := by
    intro m' data hans'
    rw [hans] at hans'
    cases hans'
    exact hcommit
  have hwrites := not_writes_of_sReg hs
  have hstart : (y.next cfg c).start i = none := by
    rw [start_of_keep hkeep, hwrites, if_neg Bool.false_ne_true, h.start_of_sReg hs]
  refine ⟨⟨?_, ?_, fun hne => absurd hstart hne, ?_⟩, ?_⟩
  · rw [htxn, hnext]
    exact hbuf.congr rfl
  · rcases hreads with hsame | hagree
    · exact h.agree_next (by rw [htxn, hsame]) (start_of_keep hkeep) (by rw [hnext]; exact hflag)
    · rw [htxn, hnext, base, hstart, Option.getD_none]
      exact hagree
  · refine .free ?_ ?_ (Or.inr ?_)
    · rw [hnext]
      exact hidle
    · rw [hnext]
      exact hreg
    · rw [hnext, hresp]
      exact OcpResp.noConfusion
  · intro m' data hans' hcommit'
    rw [hkeep m' data hans'] at hcommit'
    cases hcommit'

/-- A commit is answered, and the transaction ends. -/
theorem step_of_finished {x : Core} {data : Word}
    (hfsm : y.fsm cfg c i = finished x data)
    (hpend : y.pendNext c i = some m) (hcommit : isCommit m = true)
    (hreg : cfg.pipeline = true → (c i).cmd = .idle) (hidle : x.sReg = .sIdle)
    (houtcome : Outcome cfg y c i data) : Step cfg y c i := by
  have hcore := core_next hfsm
  have hnext : (y.next cfg c).tm.core i = { finished x data with ioMReg := c i } := hcore
  have hans : y.answered cfg c i = some (m, data) := by
    rw [answered_of_dva (by rw [hcore]; rfl) hpend, hcore]
    rfl
  have htxn : (y.next cfg c).txn i = Txn.empty := by
    rw [txn_of_answered hans, Txn.access, if_pos hcommit]
  have hstart : (y.next cfg c).start i = none := start_of_commit hans hcommit
  refine ⟨⟨?_, ?_, fun hne => absurd hstart hne, ?_⟩, ?_⟩
  · rw [htxn, hnext]
    exact buf_empty rfl (fun _ => rfl) (fun _ => rfl) rfl
  · intro _ a v hav
    rw [htxn] at hav
    cases hav
  · refine .free ?_ ?_ (Or.inr ?_)
    · rw [hnext]
      exact hidle
    · rw [hnext]
      exact hreg
    · rw [hnext]
      exact OcpResp.noConfusion
  · intro m' data' hans' _
    rw [hans] at hans'
    cases hans'
    exact houtcome

/-! ### Reads -/

theorem CoreInv.step_of_read (h : CoreInv cfg y i) (hs : (y.tm.core i).sReg = .sRead)
    (hlegal : Legal cfg y c) (hwait : Waiting cfg y i m) (hrd : m.cmd = .rd)
    (hcommit : isCommit m = false) (htouched : bufaddr cfg m ∈ (y.txn i).touched) :
    Step cfg y c i := by
  have hfsm : y.fsm cfg c i =
      { defaults cfg y.tm i with
        slaveReg := ⟨.dva, (y.tm.core i).bufmem (y.tm.core i).bufmemrdaddrReg⟩
        sReg := .sIdle } := by simp only [fsm, fsmNext, hs]
  refine h.step_of_access hfsm (by simp [hs]) (hwait.pendNext hlegal) hcommit
    (fun _ => hwait.silent hlegal) rfl rfl rfl (h.buf.congr rfl) ?_ (Or.inl rfl)
  simp [Txn.access, hcommit, hrd, htouched]

/-- A core whose turn has come addresses the shared memory, and samples the word in the next
    cycle. -/
theorem CoreInv.step_of_pre (h : CoreInv cfg y i) (hs : (y.tm.core i).sReg = .sPreSharedRead)
    (hlegal : Legal cfg y c) (hwait : Waiting cfg y i m) (hfresh : Fresh cfg y i m) :
    Step cfg y c i := by
  have hbegun := h.begun_of_sReg (by simp [hs])
  by_cases hcur : y.tm.corecur = i
  · have hfsm : y.fsm cfg c i =
        { defaults cfg y.tm i with sReg := .sSharedRead } := by simp [fsm, fsmNext, hs, hcur]
    refine h.step_of_quiet hfsm rfl rfl rfl (fun hne => absurd hbegun hne) ?_
    intro hnext hnull htxn _
    refine .shared m (by rw [hnext]) (hwait.next hlegal hnull)
      (hfresh.next htxn (by rw [hnext]; rfl)) ?_
    change (current y.tm).memrdaddrReg = _
    rw [current, hcur, hfresh.addr]
  · have hfsm : y.fsm cfg c i = defaults cfg y.tm i := by
      simp [fsm, fsmNext, hs, hcur]
    refine h.step_of_quiet hfsm rfl rfl rfl (fun hne => absurd hbegun hne) ?_
    intro hnext hnull htxn _
    exact .pre m (by rw [hnext]; exact hs) (hwait.next hlegal hnull)
      (hfresh.next htxn (by rw [hnext]; rfl))

/-- The word that is sampled is the one that the memory has after the cycle. -/
theorem CoreInv.step_of_shared (h : CoreInv cfg y i) (hs : (y.tm.core i).sReg = .sSharedRead)
    (hlegal : Legal cfg y c) (hapart : y.Apart) (hwait : Waiting cfg y i m)
    (hfresh : Fresh cfg y i m) (haddr : y.tm.sharedmemrdaddrReg = bufaddr cfg m) :
    Step cfg y c i := by
  have hbuf : Buf cfg (defaults cfg y.tm i) (y.txn i) := h.buf.congr rfl
  have hkept : memNext y.tm (bufaddr cfg m) = sharedmemrddata y.tm := by
    rw [sharedmemrddata, haddr]
    cases happlied : applied y.tm with
    | none => simp [memNext, happlied]
    | some p =>
      obtain ⟨k, a, w⟩ := p
      have hne := hapart i hs k a w happlied
      rw [hfresh.addr] at hne
      simp [memNext, happlied, hne.symm]
  have haccess : (y.txn i).access cfg m (sharedmemrddata y.tm) =
      (y.txn i).read (bufaddr cfg m) (sharedmemrddata y.tm) := by
    simp [Txn.access, hfresh.commit, hfresh.rd, hfresh.new]
  have hfsm : y.fsm cfg c i =
      sharedRead cfg (defaults cfg y.tm i) (sharedmemrddata y.tm) := by simp only [fsm, fsmNext, hs]
  refine h.step_of_access hfsm (by simp [hs]) (hwait.pendNext hlegal) hfresh.commit
    (fun _ => hwait.silent hlegal) rfl rfl rfl
    (hbuf.sharedRead hfresh.new hfresh.few hfresh.addr _) haccess (Or.inr ?_)
  intro hfalse a v hav
  have hno : ((y.tm.core i).bufconflict || conflicts cfg y.tm i) = false := hfalse
  rw [Bool.or_eq_false_iff] at hno
  by_cases ha : a = bufaddr cfg m
  · rw [ha, Txn.reads_read, if_pos rfl, Option.some.injEq] at hav
    rw [ha, hkept, hav]
  · rw [Txn.reads_read, if_neg ha] at hav
    have hold := h.agree hno.1 a v hav
    rw [base, h.start_of_sReg (by simp [hs]), Option.getD_none] at hold
    rw [← hold]
    exact memNext_of_noConflict h.buf hno.2 (not_writes_of_sReg (by simp [hs])) (by simp [hav])

/-! ### Commits -/

theorem moving_of_zero (hzero : (y.tm.core i).bufmemrdaddrReg = 0) (hstart : y.start i = none) :
    Moving y i := by
  constructor
  · rw [hzero]
    exact Nat.zero_le _
  · exact fun hne => absurd hzero hne
  · intro _ a ha
    rw [hzero] at ha
    simp at ha
  · intro b hb
    rw [hstart] at hb
    cases hb

theorem applied_of_not_writes (hcur : y.tm.corecur = i) (h : y.writes i = false) :
    applied y.tm = none := by
  cases happlied : applied y.tm with
  | none => rfl
  | some p =>
    have hcore : p.1 = y.tm.corecur := by
      unfold applied at happlied
      split at happlied
      · cases happlied
        rfl
      · cases happlied
    rw [writes, happlied, Option.any_some, hcore, hcur, beq_self_eq_true] at h
    cases h

theorem not_conflicts_of_turn (hcur : y.tm.corecur = i) : conflicts cfg y.tm i = false := by
  cases hwrites : y.writes i with
  | false => simp [conflicts, applied_of_not_writes hcur hwrites]
  | true => simp [conflicts, applied_of_writes hwrites]

/-- How far a commit has come. -/
theorem Moving.mem (h : Moving y i) : y.tm.sharedmem =
    (y.txn i).progress (y.base i) (y.tm.core i).bufmemrdaddrReg := by
  cases hs : y.start i with
  | some b => rw [base, hs, Option.getD_some, h.since b hs]
  | none => rw [base, hs, Option.getD_none, Txn.progress_of_none (h.before hs)]

theorem Moving.mem_next (h : Moving y i) (hbuf : Buf cfg (y.tm.core i) (y.txn i))
    (hs : (y.tm.core i).sReg = .sCommit) (hcur : y.tm.corecur = i)
    (hflag : (y.tm.core i).bufconflict = false)
    (hlt : (y.tm.core i).bufmemrdaddrReg < (y.txn i).touched.length) : memNext y.tm =
    (y.txn i).progress (y.base i) ((y.tm.core i).bufmemrdaddrReg + 1) := by
  rw [hbuf.progress_succ hlt, ← h.mem]
  cases hwrs : (y.tm.core i).bufwrs (y.tm.core i).bufmemrdaddrReg with
  | true =>
    have hwrites : y.writes i = true := writes_iff.mpr ⟨hcur, hs, hflag, hwrs⟩
    rw [memNext, applied_of_writes hwrites, if_pos rfl]
  | false =>
    have hwrites : y.writes i = false := not_writes fun _ _ _ => hwrs
    rw [memNext, applied_of_not_writes hcur hwrites, if_neg Bool.false_ne_true]

section Commit

variable (h : CoreInv cfg y i) (hs : (y.tm.core i).sReg = .sCommit) (hlegal : Legal cfg y c)
  (hwait : Waiting cfg y i m) (hcommit : isCommit m = true) (hmoving : Moving y i)
include h hs hlegal hwait hcommit hmoving

theorem CoreInv.step_of_wait (hturn : ¬ (y.tm.corecur = i ∨ (y.tm.core i).bufconflict = true)) :
    Step cfg y c i := by
  have hfsm : y.fsm cfg c i = defaults cfg y.tm i := by
    simp [fsm, fsmNext, hs, hturn]
  have hcur : y.tm.corecur ≠ i := fun hcur => hturn (Or.inl hcur)
  have hwrites : y.writes i = false := not_writes fun h => absurd h hcur
  have hstart : y.start i = none := by
    by_contra hne
    exact hcur (hmoving.turn (h.begun hne).2).1
  have hbegun : (if y.writes i then some (y.base i) else y.start i) = none := by
    rw [hwrites, if_neg Bool.false_ne_true, hstart]
  refine h.step_of_quiet hfsm rfl rfl rfl (fun hne => absurd hbegun hne) ?_
  intro hnext hnull _ hstartNext
  exact .commit m (by rw [hnext]; exact hs) (hwait.next hlegal hnull)
    hcommit (moving_of_zero (by rw [hnext]; rfl) (hstartNext.trans hbegun))

theorem CoreInv.step_of_move (hcur : y.tm.corecur = i) (hflag : (y.tm.core i).bufconflict = false)
    (hmore : (y.tm.core i).bufmemrdaddrReg ≠ (y.tm.core i).bufnxt) : Step cfg y c i := by
  have hle := hmoving.le
  have hfew := h.buf.few
  have hnxt := h.buf.nxt
  have hlt : (y.tm.core i).bufmemrdaddrReg < (y.txn i).touched.length := by omega
  have hwidth : cfg.bufsize ≤ 2 ^ bufaddrwidth cfg :=
    (Nat.le_pow_clog Nat.one_lt_two cfg.bufsize).trans
      (Nat.pow_le_pow_right Nat.two_pos (le_max_right 1 _))
  have hinc : ((y.tm.core i).bufmemrdaddrReg + 1) % 2 ^ bufaddrwidth cfg =
      (y.tm.core i).bufmemrdaddrReg + 1 := Nat.mod_eq_of_lt (by omega)
  have hfsm : y.fsm cfg c i =
      { defaults cfg y.tm i with
        bufmemrdaddrReg := (y.tm.core i).bufmemrdaddrReg + 1 } := by
    simp [fsm, fsmNext, hs, hcur, hflag, hmore, hinc]
  have hturn : (y.next cfg c).tm.corecur = i := by
    simp [Sys.next, TransactionalMemory.next, sharedmemwr, sharedmemwrfin, current, hcur, hs,
      hflag, hmore]
  refine h.step_of_quiet hfsm rfl rfl rfl (fun _ => ⟨hs, Nat.succ_ne_zero _⟩) ?_
  intro hnext hnull htxn hstart
  refine .commit m (by rw [hnext]; exact hs) (hwait.next hlegal hnull)
    hcommit ⟨?_, ?_, ?_, ?_⟩
  · rw [hnext]
    change (y.tm.core i).bufmemrdaddrReg + 1 ≤ (y.tm.core i).bufnxt
    omega
  · intro _
    refine ⟨hturn, ?_⟩
    rw [hnext]
    change ((y.tm.core i).bufconflict || conflicts cfg y.tm i) = false
    rw [hflag, not_conflicts_of_turn hcur, Bool.or_false]
  · intro hnone a ha
    rw [hstart] at hnone
    rw [htxn, hnext] at ha
    rw [htxn]
    have hwrites : y.writes i = false := by
      by_contra hw
      rw [if_pos (Bool.eq_true_of_not_eq_false hw)] at hnone
      cases hnone
    rw [hwrites, if_neg Bool.false_ne_true] at hnone
    rcases (h.buf.mem_take_succ hlt a).mp ha with hold | rfl
    · exact hmoving.before hnone a hold
    · by_contra hne
      have hwrs : (y.tm.core i).bufwrs (y.tm.core i).bufmemrdaddrReg = true := by
        rw [h.buf.wrs _ hlt]
        exact Option.isSome_iff_ne_none.mpr hne
      rw [writes_iff.mpr ⟨hcur, hs, hflag, hwrs⟩] at hwrites
      cases hwrites
  · intro b hb
    have hbase : b = y.base i := by
      rw [hstart] at hb
      split at hb
      · exact (Option.some.inj hb).symm
      · rw [base, hb, Option.getD_some]
    rw [htxn, hnext, hbase]
    exact hmoving.mem_next h.buf hs hcur hflag hlt

/-- A commit has gone through the buffer, or has found a conflict. -/
theorem CoreInv.step_of_done (hturn : y.tm.corecur = i ∨ (y.tm.core i).bufconflict = true)
    (hdone : (y.tm.core i).bufmemrdaddrReg = (y.tm.core i).bufnxt ∨
      (y.tm.core i).bufconflict = true) : Step cfg y c i := by
  have hfsm : y.fsm cfg c i =
      finished { defaults cfg y.tm i with
          bufmemrdaddrReg := ((y.tm.core i).bufmemrdaddrReg + 1) % 2 ^ bufaddrwidth cfg
          sReg := .sIdle }
        (if (y.tm.core i).bufconflict then minusOne else zero) := by
    simp only [fsm, fsmNext, hs, hturn, hdone, if_true]
    rfl
  refine step_of_finished hfsm (hwait.pendNext hlegal) hcommit (fun _ => hwait.silent hlegal) rfl ?_
  cases hflag : (y.tm.core i).bufconflict with
  | true =>
    refine Or.inr ⟨if_pos rfl, ?_, ?_⟩
    · by_contra hstart
      rw [(hmoving.turn (h.begun hstart).2).2] at hflag
      cases hflag
    · exact not_writes fun _ _ hfalse => absurd (hfalse.symm.trans hflag) Bool.false_ne_true
  | false =>
    have hcur : y.tm.corecur = i := hturn.resolve_right (by simp [hflag])
    have hlast : (y.tm.core i).bufmemrdaddrReg = (y.txn i).touched.length :=
      (hdone.resolve_right (by simp [hflag])).trans h.buf.nxt
    have hwrites : y.writes i = false := not_writes fun _ _ _ => (h.buf.free _ hlast.ge).2
    refine Or.inl ⟨if_neg Bool.false_ne_true, h.agree hflag, ?_⟩
    change memNext y.tm = _
    rw [memNext, applied_of_not_writes hcur hwrites, ← h.buf.progress_all, ← hlast]
    exact hmoving.mem

theorem CoreInv.step_of_commit : Step cfg y c i := by
  by_cases hturn : y.tm.corecur = i ∨ (y.tm.core i).bufconflict = true
  · by_cases hdone : (y.tm.core i).bufmemrdaddrReg = (y.tm.core i).bufnxt ∨
        (y.tm.core i).bufconflict = true
    · exact h.step_of_done hs hlegal hwait hcommit hmoving hturn hdone
    · rw [not_or, Bool.not_eq_true] at hdone
      have hcur : y.tm.corecur = i := hturn.resolve_right (by simp [hdone.2])
      exact h.step_of_move hs hlegal hwait hcommit hmoving hcur hdone.2 hdone.1
  · exact h.step_of_wait hs hlegal hwait hcommit hmoving hturn

end Commit

/-! ### New commands -/

/-- A command is taken up in this cycle. -/
structure Taken (cfg : Config) (y : Sys corecnt) (c : Cycle corecnt) (i : Fin corecnt)
    (m : CacheMaster) : Prop where
  sReg : (y.tm.core i).sReg = .sIdle
  ioM : ioM cfg (y.tm.core i) (c i) = m
  pend : y.pendNext c i = some m
  reg : cfg.pipeline = true → (c i).cmd = .idle
  allowed : Allowed cfg y i m

section Take

variable (h : Taken cfg y c i m) (hinv : CoreInv cfg y i)
include h hinv

omit hinv in
theorem Taken.waiting (hnull : (coreNext cfg y.tm i (c i)).slaveReg.resp = .null) :
    Waiting cfg (y.next cfg c) i m := ⟨h.pend, hnull, h.reg⟩

omit hinv in
theorem Taken.room (hbuf : Buf cfg (defaults cfg y.tm i) (y.txn i)) (hcommit : isCommit m = false)
    (hnew : bufaddr cfg m ∉ (y.txn i).touched) :
    bufmatched cfg (defaults cfg y.tm i) m = false ∧
      (y.txn i).touched.length + 1 ≤ cfg.bufsize - 1 ∧
      (defaults cfg y.tm i).bufnxt ≠ cfg.bufsize := by
  have hfew := h.allowed.few hcommit
  rw [Txn.touch, if_neg hnew, List.length_append, List.length_singleton] at hfew
  refine ⟨?_, hfew, ?_⟩
  · rw [Bool.eq_false_iff]
    exact fun hmatched => hnew (hbuf.bufmatched_iff.mp hmatched)
  · rw [hbuf.nxt]
    omega

theorem Taken.step_of_wr (hwr : m.cmd = .wr) : Step cfg y c i := by
  have hcommit : isCommit m = false := by simp [isCommit, hwr]
  have hbuf : Buf cfg (defaults cfg y.tm i) (y.txn i) := hinv.buf.congr rfl
  have hfsm : y.fsm cfg c i =
      write cfg (defaults cfg y.tm i) m := by
    simp only [fsm, h.ioM, fsmNext, h.sReg, hwr]
  have haccess : ∀ data, (y.txn i).access cfg m data = (y.txn i).write (bufaddr cfg m) m.data := by
    intro data
    simp [Txn.access, hcommit, hwr]
  have hs : (y.tm.core i).sReg ≠ .sCommit := by simp [h.sReg]
  by_cases hmem : bufaddr cfg m ∈ (y.txn i).touched
  · obtain ⟨k, hk⟩ := List.mem_iff_getElem?.mp hmem
    rw [write, if_pos (hbuf.bufmatched_iff.mpr hmem), hbuf.bufmatch_eq hk] at hfsm
    refine hinv.step_of_access hfsm hs h.pend hcommit h.reg rfl h.sReg rfl ?_ (haccess _)
      (Or.inl rfl)
    exact hbuf.write_matched hk (if_pos hmem) rfl rfl rfl
  · obtain ⟨hunmatched, hfew, hroom⟩ := h.room hbuf hcommit hmem
    rw [write, hunmatched, if_neg Bool.false_ne_true, if_neg hroom] at hfsm
    refine hinv.step_of_access hfsm hs h.pend hcommit h.reg rfl h.sReg rfl ?_ (haccess _)
      (Or.inl rfl)
    have hinside : bufaddr cfg m % 2 ^ memaddrwidth cfg = bufaddr cfg m :=
      bufaddr_mod (h.allowed.inside hcommit)
    rw [hinside]
    exact hbuf.write_new hmem hfew rfl

theorem Taken.step_of_commit (hcommit : isCommit m = true) : Step cfg y c i := by
  have hrd : m.cmd = .rd := by
    simp only [isCommit, Bool.and_eq_true, beq_iff_eq] at hcommit
    exact hcommit.1
  have hs : (y.tm.core i).sReg ≠ .sCommit := by simp [h.sReg]
  by_cases hfail : (y.tm.core i).bufnxt = 0 ∨ (y.tm.core i).bufconflict = true ∨
      (y.tm.core i).overflowReg = true
  · have hfsm : y.fsm cfg c i =
        finished (defaults cfg y.tm i) minusOne := by
      simp [fsm, h.ioM, fsmNext, h.sReg, hrd, hcommit, hfail]
    exact step_of_finished hfsm h.pend hcommit h.reg h.sReg
      (Or.inr ⟨rfl, hinv.start_of_sReg hs, not_writes_of_sReg hs⟩)
  · have hfsm : y.fsm cfg c i =
        { defaults cfg y.tm i with sReg := .sCommit } := by
      simp [fsm, h.ioM, fsmNext, h.sReg, hrd, hcommit, hfail]
    have hbegun := hinv.begun_of_sReg (by simp [h.sReg])
    refine hinv.step_of_quiet hfsm rfl rfl rfl (fun hne => absurd hbegun hne) ?_
    intro hnext hnull _ hstart
    exact .commit m (by rw [hnext]) (h.waiting hnull) hcommit
      (moving_of_zero (by rw [hnext]; rfl) (hstart.trans hbegun))

theorem Taken.step_of_rd (hrd : m.cmd = .rd) (hcommit : isCommit m = false) : Step cfg y c i := by
  have hbuf : Buf cfg (defaults cfg y.tm i) (y.txn i) := hinv.buf.congr rfl
  have hbegun := hinv.begun_of_sReg (by simp [h.sReg])
  have hfsm : y.fsm cfg c i =
      read cfg (defaults cfg y.tm i) m := by
    simp [fsm, h.ioM, fsmNext, h.sReg, hrd, hcommit]
  by_cases hmem : bufaddr cfg m ∈ (y.txn i).touched
  · rw [read, if_pos (hbuf.bufmatched_iff.mpr hmem)] at hfsm
    refine hinv.step_of_quiet hfsm rfl rfl rfl (fun hne => absurd hbegun hne) ?_
    intro hnext hnull htxn _
    exact .read m (by rw [hnext]) (h.waiting hnull) hrd hcommit
      (by rw [htxn]; exact hmem)
  · obtain ⟨hunmatched, hfew, hroom⟩ := h.room hbuf hcommit hmem
    rw [read, hunmatched, if_neg Bool.false_ne_true, if_neg hroom,
      bufaddr_mod (h.allowed.inside hcommit)] at hfsm
    refine hinv.step_of_quiet hfsm rfl rfl rfl (fun hne => absurd hbegun hne) ?_
    intro hnext hnull htxn _
    refine .pre m (by rw [hnext]) (h.waiting hnull) ?_
    exact ⟨hrd, hcommit, by rw [htxn]; exact hmem, by rw [htxn]; exact hfew, by rw [hnext]⟩

theorem Taken.step (hcmd : m.cmd ≠ .idle) : Step cfg y c i := by
  cases hcommit : isCommit m with
  | true => exact h.step_of_commit hinv hcommit
  | false =>
    cases hm : m.cmd with
    | idle => exact absurd hm hcmd
    | wr => exact h.step_of_wr hinv hm
    | rd => exact h.step_of_rd hinv hm hcommit

end Take

theorem Legal.allowed (h : Legal cfg y c) (hcmd : (c i).cmd ≠ .idle) : Allowed cfg y i (c i) :=
  ⟨h.inside i hcmd, h.few i hcmd⟩

/-- A core that has nothing to do takes up a command, or with `pipeline` registers it. -/
theorem CoreInv.step_of_free (h : CoreInv cfg y i) (hlegal : Legal cfg y c)
    (hs : (y.tm.core i).sReg = .sIdle)
    (hreg : cfg.pipeline = true → (y.tm.core i).ioMReg.cmd = .idle)
    (hpend : y.pend i = none ∨ (y.tm.core i).slaveReg.resp ≠ .null) : Step cfg y c i := by
  have hfree : Ocp.pendNext y.pend (fun i => (y.tm.core i).slaveReg.resp) c i = _ :=
    pendNext_of_free hpend
  by_cases htake : cfg.pipeline = false ∧ (c i).cmd ≠ .idle
  · obtain ⟨hpipe, hcmd⟩ := htake
    have htaken : Taken cfg y c i (c i) := by
      refine ⟨hs, by simp [ioM, hpipe], hfree.trans (if_pos hcmd), ?_, hlegal.allowed hcmd⟩
      intro hp
      rw [hpipe] at hp
      cases hp
    exact htaken.step h hcmd
  · have hidle : (ioM cfg (y.tm.core i) (c i)).cmd = .idle := by
      cases hpipe : cfg.pipeline with
      | true =>
        rw [ioM, hpipe, if_pos rfl]
        exact hreg hpipe
      | false =>
        rw [ioM, hpipe, if_neg Bool.false_ne_true]
        by_contra hcmd
        exact htake ⟨hpipe, hcmd⟩
    have hfsm : y.fsm cfg c i = defaults cfg y.tm i := by
      simp only [fsm, fsmNext, hs, hidle]
    have hne : (y.tm.core i).sReg ≠ .sCommit := by simp [hs]
    have hbegun := h.begun_of_sReg hne
    refine h.step_of_quiet hfsm rfl rfl rfl (fun hne => absurd hbegun hne) ?_
    intro hnext hnull htxn _
    by_cases hcmd : (c i).cmd = .idle
    · refine .free (by rw [hnext]; exact hs) (fun _ => by rw [hnext]; exact hcmd) (Or.inl ?_)
      exact hfree.trans (by simp [hcmd])
    · have hpipe : cfg.pipeline = true := by
        by_contra hp
        exact htake ⟨Bool.eq_false_iff.mpr hp, hcmd⟩
      refine .sent (c i) (by rw [hnext]; exact hs) hpipe (by rw [hnext]) hcmd ?_
        (by rw [hnext]; rfl)
        ?_
      · exact hfree.trans (if_pos hcmd)
      · have hallowed := hlegal.allowed hcmd
        exact ⟨hallowed.inside, by rw [htxn]; exact hallowed.few⟩

theorem CoreInv.step (h : CoreInv cfg y i) (hlegal : Legal cfg y c) (hapart : y.Apart) :
    Step cfg y c i := by
  cases h.stage with
  | free hs hreg hpend => exact h.step_of_free hlegal hs hreg hpend
  | sent m hs hpipe hreg hcmd hpend hresp hallowed =>
    have hsilent := hlegal.single.silent hpend hresp
    have htaken : Taken cfg y c i m := by
      exact ⟨hs, by simp [ioM, hpipe, hreg], hlegal.single.pendNext hpend hresp, fun _ => hsilent,
        hallowed⟩
    exact htaken.step h hcmd
  | read m hs hwait hrd hcommit htouched =>
    exact h.step_of_read hs hlegal hwait hrd hcommit htouched
  | pre m hs hwait hfresh => exact h.step_of_pre hs hlegal hwait hfresh
  | shared m hs hwait hfresh haddr => exact h.step_of_shared hs hlegal hapart hwait hfresh haddr
  | commit m hs hwait hcommit hmoving => exact h.step_of_commit hs hlegal hwait hcommit hmoving

/-! ### What a cycle shows -/

theorem CoreInv.moving (h : CoreInv cfg y i) (hs : (y.tm.core i).sReg = .sCommit) :
    ∃ m, y.pend i = some m ∧ isCommit m = true ∧ Moving y i := by
  cases h.stage with
  | free hidle _ _ | sent m hidle _ _ _ _ _ _ => simp [hs] at hidle
  | read m hread _ _ _ _ => simp [hs] at hread
  | pre m hpre _ _ => simp [hs] at hpre
  | shared m hshared _ _ _ => simp [hs] at hshared
  | commit m _ hwait hcommit hmoving => exact ⟨m, hwait.pend, hcommit, hmoving⟩

theorem serializable_of_inv (h : ∀ i, CoreInv cfg y i) (hlegal : Legal cfg y c)
    (hapart : y.Apart) : Serializable cfg y c := by
  constructor
  · intro i m data hans hcommit
    exact ((h i).step hlegal hapart).outcome m data hans hcommit
  · intro i hw hstart
    have hagree := (h i).agree (writes_iff.mp hw).2.2.1
    rwa [base, hstart, Option.getD_none] at hagree
  · intro i k hstart hw
    obtain ⟨hs, hne⟩ := (h i).begun hstart
    obtain ⟨-, -, -, hmoving⟩ := (h i).moving hs
    exact (writes_iff.mp hw).1.symm.trans (hmoving.turn hne).1
  · intro i hw
    obtain ⟨m, hpend, hcommit, -⟩ := (h i).moving (writes_iff.mp hw).2.1
    exact ⟨m, hpend, hcommit⟩
  · intro hnone
    change memNext y.tm = _
    rw [memNext, hnone]

theorem IsReset.inv (h : IsReset y) (i : Fin corecnt) : CoreInv cfg y i := by
  refine ⟨?_, ?_, fun hne => absurd (h.start i) hne, ?_⟩
  · rw [h.txn i]
    exact buf_empty (h.bufnxt i) (h.bufrds i) (h.bufwrs i) (h.overflowReg i)
  · intro _ a v hav
    rw [h.txn i] at hav
    cases hav
  · exact .free (h.sReg i) (fun _ => h.ioMReg i) (Or.inl (h.pend i))

end Cycle

/-! ### Every run -/

/-- **Committed transactions are serializable** in every run in which no commit writes a word in
    the cycle in which another core samples it. -/
theorem serializable_of_apart {cfg : Config} {y : Sys corecnt} (hreset : y.IsReset)
    {cs : List (Cycle corecnt)}
    (hrun : Along (next cfg) (fun y c => Legal cfg y c ∧ y.Apart) y cs) :
    Along (next cfg) (Serializable cfg) y cs := by
  have hinv := hrun.with_inv (I := fun y => ∀ i, CoreInv cfg y i)
    (fun _ _ h hl i => ((h i).step hl.1 hl.2).inv) hreset.inv
  exact hinv.mono fun _ _ h => serializable_of_inv h.1 h.2.1 h.2.2

instance (cfg : Config) (y : Sys corecnt) (c : Cycle corecnt) : Decidable (Legal cfg y c) :=
  decidable_of_iff (_ ∧ _ ∧ _) ⟨fun ⟨a, b, c⟩ => ⟨a, b, c⟩, fun ⟨a, b, c⟩ => ⟨a, b, c⟩⟩

instance (y : Sys corecnt) : Decidable y.Apart :=
  decidable_of_iff
    (∀ i, (y.tm.core i).sReg = .sSharedRead →
      ∀ p ∈ applied y.tm, p.2.1 ≠ (y.tm.core i).memrdaddrReg)
    ⟨fun h i hs _ _ _ hp => h i hs _ hp, fun h i hs p hp => h i hs p.1 p.2.1 p.2.2 hp⟩

/-! Two cores, a memory of four words and buffers of four entries. -/

def small : Config := ⟨4, 4, false⟩

def powerUp [NeZero corecnt] : Sys corecnt where
  tm := {
    corecur := 0
    sharedmem := fun _ => zero
    sharedmemrdaddrReg := 0
    core := fun _ => {
      ioMReg := ⟨.idle, 0, zero, fun _ => false⟩
      memrdaddrReg := 0
      bufaddrs := fun _ => 0
      bufrds := fun _ => false
      bufwrs := fun _ => false
      bufnxt := 0
      bufmem := fun _ => zero
      bufmemrdaddrReg := 0
      bufconflict := false
      sReg := .sIdle
      slaveReg := ⟨.null, zero⟩
      overflowReg := false } }
  pend := fun _ => none
  txn := fun _ => Txn.empty
  start := fun _ => none

theorem isReset_powerUp [NeZero corecnt] : (powerUp : Sys corecnt).IsReset :=
  ⟨rfl, fun _ => rfl, fun _ _ => rfl, fun _ _ => rfl, fun _ => rfl, fun _ => rfl, fun _ => rfl,
    fun _ => rfl, fun _ => rfl, fun _ => rfl, fun _ => rfl, fun _ => rfl, fun _ => rfl⟩

def store (addr : Nat) (b : Byte) : CacheMaster := ⟨.wr, addr, fun _ => b, fun _ => true⟩

def load (addr : Nat) : CacheMaster := ⟨.rd, addr, zero, fun _ => true⟩

def tryCommit : CacheMaster := load 0xFFFC

def both (m m' : CacheMaster) : Cycle 2 := ![m, m']

/-- Core 1 reads word 1 before core 0 commits a new value of it, and then tries to commit. -/
def readBefore : List (Cycle 2) :=
  [both nothing (load 4), both nothing nothing, both nothing nothing, both (store 4 9) (store 8 7),
    both tryCommit nothing] ++ List.replicate 3 (both nothing nothing) ++
    [both nothing tryCommit, both nothing nothing]

/-- The commit of core 1 fails. -/
theorem readBefore_serializable :
    ((run (next small) powerUp (readBefore.take 9)).tm.core 1).slaveReg = ⟨.dva, minusOne⟩ ∧
      Along (next small) (Serializable small) powerUp readBefore :=
  ⟨by decide +kernel, serializable_of_apart isReset_powerUp (by decide +kernel)⟩

/-- Core 1 samples word 1 in the cycle in which core 0 commits a new value of it, and then
    commits. -/
def readDuring : List (Cycle 2) :=
  [both (store 4 9) (load 4), both tryCommit nothing, both nothing nothing,
    both nothing (store 8 7), both nothing tryCommit] ++ List.replicate 2 (both nothing nothing)

/-- Core 1 has read the old word 1 when it writes its first word, and its commit returns 0. -/
theorem readDuring_stale :
    Along (next small) (Legal small) powerUp
      (readDuring ++ List.replicate 2 (both nothing nothing)) ∧
      (run (next small) powerUp (readDuring ++ [both nothing nothing])).answered small
          (both nothing nothing) 1 = some (tryCommit, zero) ∧
      (run (next small) powerUp readDuring).writes 1 = true ∧
      ((run (next small) powerUp readDuring).txn 1).reads 1 = some zero ∧
      (run (next small) powerUp readDuring).tm.sharedmem 1 = (fun _ => 9) ∧
      ¬ Along (next small) (Serializable small) powerUp (readDuring ++ [both nothing nothing]) := by
  refine ⟨by decide +kernel, by decide +kernel, by decide +kernel, by decide +kernel,
    by decide +kernel, fun h => ?_⟩
  have hfirst := ((along_concat _ _ _).mp h).2.first 1 (by decide +kernel) (by decide +kernel)
  exact absurd (hfirst 1 zero (by decide +kernel)) (by decide +kernel)

end Sys

end Patmos.TransactionalMemory
