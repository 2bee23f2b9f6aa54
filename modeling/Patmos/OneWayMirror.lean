import Patmos.OneWayMem

/-!
# Mirrored blocks

Each node has a block in its transmit memory for every other node, and a block in its receive memory
for every other node.  If no word leaves the network that was not sent there, the receive blocks
mirror the transmit blocks.  The counter of the receiver counts every word that arrives, so a single
other word shifts all that follow, and this happens in every network but the smallest one.
-/

namespace Patmos.OneWay

open TdmRoutes S4Noc SlotCounter Clocked

/-! ### What is promised -/

section Promise

variable {n : ℕ} (cfg : Config n) (s₀ : Sys n) (ports : ℕ → S4Noc.Node n → DualPort)

/-- The inputs of the receive memory at `v` in cycle `t`. -/
def rxPortAt (t : ℕ) (v : S4Noc.Node n) : DualPort :=
  cfg.rxPort ((sysAt cfg s₀ ports t).nodes v) (received cfg s₀ ports t v) (ports t v)

/-- The receive memories mirror the transmit memories. -/
structure Mirrors : Prop where
  /-- Every node has one route to every other node, -/
  pairs : ∀ u v : S4Noc.Node n, u ≠ v → ∃ r ∈ routes n, u + r.total (links n) = v ∧
    ∀ r' ∈ routes n, u + r'.total (links n) = v → r' = r
  /-- which leads to another node, -/
  others : ∀ r ∈ routes n, r.total (links n) ≠ 0
  /-- and each route has a block of its own on both sides. -/
  blocks : ∀ r ∈ routes n, ∀ r' ∈ routes n,
    txBlock n r = txBlock n r' ∨ rxBlock n r = rxBlock n r' → r = r'
  /-- Only words that are for this node are written, to the block of the sender and at their own
      offset. -/
  only : ∀ t v, (rxPortAt cfg s₀ ports t v).wrEna = true →
    ∃ r ∈ routes n, ∃ o < 2 ^ cfg.blockAddrWidth,
      (rxPortAt cfg s₀ ports t v).wrAddr = cfg.memAddr ⟨rxBlock n r, o⟩ ∧
      (rxPortAt cfg s₀ ports t v).wrData = word cfg s₀ (v - r.total (links n)) (txBlock n r) o
  /-- After as many periods as a block has words all of them are stored.  The first word of a
      period can arrive in cycle 2. -/
  stored : ∀ t v, 2 + 2 ^ cfg.blockAddrWidth * len n ≤ t → ∀ r ∈ routes n,
    ∀ o < 2 ^ cfg.blockAddrWidth,
      ((sysAt cfg s₀ ports t).nodes v).memRx.mem (cfg.memAddr ⟨rxBlock n r, o⟩) =
        word cfg s₀ (v - r.total (links n)) (txBlock n r) o

end Promise

/-! ### Words that are sent and received -/

section Words

variable {n : ℕ} {cfg : Config n} {s₀ : Sys n} {ports : ℕ → S4Noc.Node n → DualPort}
  {r : Route Dir} {t : ℕ} {v : S4Noc.Node n} (hreset : s₀.IsReset)
  (hports : ∀ t v, (ports t v).wrEna = false)

include hports in
theorem memTx_sysAt (t : ℕ) (v : S4Noc.Node n) :
    ((sysAt cfg s₀ ports t).nodes v).memTx.mem = (s₀.nodes v).memTx.mem := by
  induction t with
  | zero => rfl
  | succ t ih =>
    rw [← ih]
    change (if (ports t v).wrEna then _ else _) = _
    rw [hports t v]
    rfl

include hreset in
theorem sent_zero (v : S4Noc.Node n) : (sent cfg s₀ ports 0 v).valid = false :=
  (hreset.nodes v).regValid

variable (cfg ports) in
include hreset in
theorem runs_sysAt : Runs (links n) cfg.sched (len n) (fun x : Chan ℕ => x.valid = true)
    (fun t => (0 + (t - 1)) % len n) (sent cfg s₀ ports)
    (fun t v p => ((sysAt cfg s₀ ports t).net v).out p) := by
  simp only [net_sysAt]
  exact runs_netAt cfg.sched cfg.len_pos hreset.net (sent_zero hreset)

include hreset in
theorem sent_valid (t : ℕ) (v : S4Noc.Node n) :
    (sent cfg s₀ ports (t + 1) v).valid = decide (Starts n (t % len n)) :=
  valid_sysAt hreset t v

include hreset hports

/-- In the start slot of a route a node sends the word of its block at the offset of the period. -/
theorem sent_of_start (hr : r ∈ routes n) (hslot : t % len n = r.start) (v : S4Noc.Node n) :
    sent cfg s₀ ports (t + 1) v =
      ⟨cfg.wire (word cfg s₀ v (txBlock n r) (t / len n % 2 ^ cfg.blockAddrWidth)), true⟩ := by
  have hstarts : Starts n (t % len n) := by
    rw [hslot]
    exact starts_of_mem hr
  have hblock := after_marks cfg.blockAddrWidth cfg.len_pos hstarts
  rw [count_starts cfg.two_le cfg.le_ten, hslot] at hblock
  have haddr : ((sysAt cfg s₀ ports t).nodes v).regTxAddr =
      ⟨txBlock n r, t / len n % 2 ^ cfg.blockAddrWidth⟩ :=
    (regTxAddr_sysAt hreset t v).trans hblock
  have hsent : sent cfg s₀ ports (t + 1) v =
      ⟨cfg.wire (((sysAt cfg s₀ ports (t + 1)).nodes v).memTx.mem
        (cfg.memAddr ((sysAt cfg s₀ ports t).nodes v).regTxAddr)),
        (sent cfg s₀ ports (t + 1) v).valid⟩ := rfl
  rw [hsent, memTx_sysAt hports, haddr, sent_valid hreset, decide_eq_true hstarts]
  rfl

theorem received_of_arrival (hr : r ∈ routes n) (hslot : t % len n = arrival r)
    (v : S4Noc.Node n) :
    received cfg s₀ ports (t + 2) v =
      ⟨cfg.wire (word cfg s₀ (v - r.total (links n)) (txBlock n r)
        (t / len n % 2 ^ cfg.blockAddrWidth)), true⟩ := by
  have hlen := cfg.len_pos
  -- the word was sent in the same period
  obtain ⟨t₀, rfl⟩ : ∃ t₀, t = t₀ + r.path.length := by
    refine Nat.exists_eq_add_of_le' ((Nat.le_add_left _ r.start).trans ?_)
    rw [← arrival, ← hslot]
    exact Nat.mod_le _ _
  have hstart : t₀ = r.start + len n * ((t₀ + r.path.length) / len n) := by
    have hdiv := Nat.mod_add_div (t₀ + r.path.length) (len n)
    rw [hslot, arrival] at hdiv
    omega
  have hmod : t₀ % len n = r.start := by
    rw [hstart, Nat.add_mul_mod_self_left, Nat.mod_eq_of_lt (start_lt hr)]
  have hdiv : t₀ / len n = (t₀ + r.path.length) / len n := by
    have hquot : t₀ / len n = (r.start + len n * ((t₀ + r.path.length) / len n)) / len n :=
      congrArg (· / len n) hstart
    rw [hquot, Nat.add_mul_div_left _ _ hlen, Nat.div_eq_of_lt (start_lt hr), Nat.zero_add]
  have hslot₀ : (0 + (t₀ + 1 - 1)) % len n = r.start := by
    rw [Nat.zero_add, Nat.add_sub_cancel, hmod]
  have hdelivered := (runs_sysAt cfg ports hreset).delivered cfg.implements hr
    (Nat.le_add_left 1 t₀) hslot₀
    (v - r.total (links n))
  rw [sub_add_cancel, sent_of_start hreset hports hr hmod, hdiv] at hdelivered
  rw [Nat.add_right_comm t₀ 1] at hdelivered
  exact hdelivered

end Words

/-! ### The counter of the receiver -/

section Rx

variable {n : ℕ} {cfg : Config n} {s₀ : Sys n} {ports : ℕ → S4Noc.Node n → DualPort}
  {r : Route Dir} {t : ℕ} {v : S4Noc.Node n} (hreset : s₀.IsReset)

include hreset

/-- Nothing is received in cycles 0 and 1. -/
theorem received_early (ht : t < 2) (v : S4Noc.Node n) :
    (received cfg s₀ ports t v).valid = false := by
  rcases eq_zero_or_pos t with rfl | hpos
  · exact hreset.net.valid v LOCAL
  · obtain rfl : t = 1 := by omega
    exact Bool.eq_false_iff.mpr ((runs_sysAt cfg ports hreset).quiet v LOCAL)

/-- The counter of the receiver counts the words. -/
theorem regRxAddr_sysAt (t : ℕ) (v : S4Noc.Node n) :
    ((sysAt cfg s₀ ports (t + 2)).nodes v).regRxAddr =
      BlockAddr.after (nrChannels n) cfg.blockAddrWidth
        (Nat.count (fun t => (received cfg s₀ ports (t + 2) v).valid = true) t) := by
  have hstep : ∀ t, ((sysAt cfg s₀ ports (t + 1)).nodes v).regRxAddr =
      if (received cfg s₀ ports t v).valid = true
      then cfg.advance ((sysAt cfg s₀ ports t).nodes v).regRxAddr
      else ((sysAt cfg s₀ ports t).nodes v).regRxAddr := fun t => rfl
  have hfirst : ((sysAt cfg s₀ ports 2).nodes v).regRxAddr = ⟨0, 0⟩ := by
    rw [hstep 1, received_early hreset one_lt_two, hstep 0, received_early hreset two_pos]
    exact (hreset.nodes v).regRxAddr
  exact eq_after_count (a := fun t => ((sysAt cfg s₀ ports (t + 2)).nodes v).regRxAddr)
    cfg.nrChannels_pos cfg.nrChannels_le hfirst (fun t => hstep (t + 2)) t

/-- What is written to the receive memory from cycle 2 on. -/
theorem rxPortAt_add_two (t : ℕ) (v : S4Noc.Node n) :
    rxPortAt cfg s₀ ports (t + 2) v =
      ⟨(ports (t + 2) v).rdAddr,
        cfg.memAddr (BlockAddr.after (nrChannels n) cfg.blockAddrWidth
          (Nat.count (fun t => (received cfg s₀ ports (t + 2) v).valid = true) t)),
        cfg.wire (received cfg s₀ ports (t + 2) v).data,
        (received cfg s₀ ports (t + 2) v).valid⟩ := by
  rw [← regRxAddr_sysAt hreset]
  rfl

end Rx

/-! ### Without leaks -/

section NoLeaks

variable {n : ℕ} {cfg : Config n} {s₀ : Sys n} {ports : ℕ → S4Noc.Node n → DualPort}
  {r : Route Dir} {t : ℕ} {v : S4Noc.Node n} (hreset : s₀.IsReset)
  (hports : ∀ t v, (ports t v).wrEna = false)
  (hleaks : ∀ r ∈ routes n, ¬ Leaks (links n) (routes n) .n (len n) r)

include hreset hports

theorem received_valid_of_arrives (harrives : Arrives n (t % len n)) (v : S4Noc.Node n) :
    (received cfg s₀ ports (t + 2) v).valid = true := by
  obtain ⟨r, hr, hslot⟩ := List.mem_map.mp harrives
  rw [received_of_arrival hreset hports hr hslot.symm]

include hleaks

theorem received_valid_iff (t : ℕ) (v : S4Noc.Node n) :
    (received cfg s₀ ports (t + 2) v).valid = true ↔ Arrives n (t % len n) := by
  constructor
  · intro hvalid
    have hrun := runs_sysAt cfg ports hreset
    rcases hrun.only cfg.implements (Nat.le_add_left 1 t) hvalid with
      ⟨r, hr, t₀, ht₀, hsum, hslot, -⟩ | ⟨r, hr, hleak, -⟩
    · have hlast := hrun.slot_add ht₀ r.path.length
      rw [← hsum, hslot, ← arrival, Nat.mod_eq_of_lt (arrival_lt hr), Nat.add_sub_cancel,
        Nat.zero_add] at hlast
      rw [hlast]
      exact arrives_of_mem hr
    · exact absurd hleak (hleaks r hr)
  · exact fun harrives => received_valid_of_arrives hreset hports harrives v

variable (cfg) in
/-- In the arrival slot of a route the word is written to its block, at the offset of the
    period. -/
theorem rxPortAt_of_arrival (hr : r ∈ routes n) (hslot : t % len n = arrival r)
    (v : S4Noc.Node n) :
    rxPortAt cfg s₀ ports (t + 2) v =
      ⟨(ports (t + 2) v).rdAddr,
        cfg.memAddr ⟨rxBlock n r, t / len n % 2 ^ cfg.blockAddrWidth⟩,
        cfg.wire (cfg.wire (word cfg s₀ (v - r.total (links n)) (txBlock n r)
          (t / len n % 2 ^ cfg.blockAddrWidth))), true⟩ := by
  have harrives : Arrives n (t % len n) := by
    rw [hslot]
    exact arrives_of_mem hr
  have hcount : Nat.count (fun t => (received cfg s₀ ports (t + 2) v).valid = true) t =
      marks (Arrives n) (len n) t := by
    rw [marks]
    congr 1
    funext t
    exact propext (received_valid_iff hreset hports hleaks t v)
  have hblock := after_marks cfg.blockAddrWidth cfg.len_pos harrives
  rw [count_arrives cfg.two_le cfg.le_ten, ← nrChannels, hslot] at hblock
  rw [rxPortAt_add_two hreset, hcount, hblock, received_of_arrival hreset hports hr hslot]
  rfl

omit hreset hports hleaks in
theorem wire_of_lt {data : ℕ} (hwide : 32 ≤ cfg.size) (h : data < 2 ^ 32) :
    cfg.wire data = data := by
  have hpow : 2 ^ 32 ≤ 2 ^ cfg.size := Nat.pow_le_pow_right two_pos hwide
  rw [Config.wire, Nat.mod_eq_of_lt (h.trans_le hpow), Nat.mod_eq_of_lt h]

omit hreset hports hleaks in
theorem memRx_succ (t : ℕ) (v : S4Noc.Node n) :
    ((sysAt cfg s₀ ports (t + 1)).nodes v).memRx.mem =
      if (rxPortAt cfg s₀ ports t v).wrEna then
        Function.update ((sysAt cfg s₀ ports t).nodes v).memRx.mem
          (rxPortAt cfg s₀ ports t v).wrAddr (rxPortAt cfg s₀ ports t v).wrData
      else ((sysAt cfg s₀ ports t).nodes v).memRx.mem := rfl

omit hreset hports hleaks in
/-- A word that is stored stays, if every later write to the cell is this word again. -/
theorem memRx_of_written {a x : ℕ} (ht : (rxPortAt cfg s₀ ports t v).wrEna = true)
    (haddr : (rxPortAt cfg s₀ ports t v).wrAddr = a)
    (hsame : ∀ u, (rxPortAt cfg s₀ ports u v).wrEna = true →
      (rxPortAt cfg s₀ ports u v).wrAddr = a → (rxPortAt cfg s₀ ports u v).wrData = x)
    {u : ℕ} (hu : t + 1 ≤ u) : ((sysAt cfg s₀ ports u).nodes v).memRx.mem a = x := by
  induction u, hu using Nat.le_induction with
  | base => rw [memRx_succ, if_pos ht, haddr, Function.update_self, hsame t ht haddr]
  | succ u _ ih =>
    rw [memRx_succ]
    split
    · rename_i hena
      by_cases heq : (rxPortAt cfg s₀ ports u v).wrAddr = a
      · rw [heq, Function.update_self, hsame u hena heq]
      · rw [Function.update_of_ne (Ne.symm heq), ih]
    · exact ih

theorem writes_of_not_leaks (hwide : 32 ≤ cfg.size)
    (hwords : ∀ v a, (s₀.nodes v).memTx.mem a < 2 ^ 32)
    (hena : (rxPortAt cfg s₀ ports t v).wrEna = true) :
    ∃ r ∈ routes n, ∃ o < 2 ^ cfg.blockAddrWidth,
      (rxPortAt cfg s₀ ports t v).wrAddr = cfg.memAddr ⟨rxBlock n r, o⟩ ∧
      (rxPortAt cfg s₀ ports t v).wrData =
        word cfg s₀ (v - r.total (links n)) (txBlock n r) o := by
  rcases lt_or_ge t 2 with hearly | hlate
  · exact absurd hena (Bool.eq_false_iff.mp (received_early hreset hearly v))
  · obtain ⟨t, rfl⟩ := Nat.exists_eq_add_of_le' hlate
    have harrives := (received_valid_iff hreset hports hleaks t v).mp hena
    obtain ⟨r, hr, hslot⟩ := List.mem_map.mp harrives
    refine ⟨r, hr, _, Nat.mod_lt (t / len n) (Nat.two_pow_pos _), ?_⟩
    rw [rxPortAt_of_arrival cfg hreset hports hleaks hr hslot.symm]
    refine ⟨rfl, ?_⟩
    have hword := hwords (v - r.total (links n))
      (cfg.memAddr ⟨txBlock n r, t / len n % 2 ^ cfg.blockAddrWidth⟩)
    simp only [word, wire_of_lt hwide hword]

/-- A word is written in the period of its offset, and stays. -/
theorem stored_of_not_leaks (hwide : 32 ≤ cfg.size) (hsize : 2 * nrChannels n ≤ cfg.size)
    (hwords : ∀ v a, (s₀.nodes v).memTx.mem a < 2 ^ 32)
    (ht : 2 + 2 ^ cfg.blockAddrWidth * len n ≤ t) (hr : r ∈ routes n) {o : ℕ}
    (ho : o < 2 ^ cfg.blockAddrWidth) :
    ((sysAt cfg s₀ ports t).nodes v).memRx.mem (cfg.memAddr ⟨rxBlock n r, o⟩) =
      word cfg s₀ (v - r.total (links n)) (txBlock n r) o := by
  have hblock : ∀ {r}, r ∈ routes n → rxBlock n r < nrChannels n :=
    rxBlock_lt cfg.two_le cfg.le_ten
  have hmod : (arrival r + len n * o) % len n = arrival r := by
    rw [Nat.add_mul_mod_self_left, Nat.mod_eq_of_lt (arrival_lt hr)]
  have hdiv : (arrival r + len n * o) / len n % 2 ^ cfg.blockAddrWidth = o := by
    rw [Nat.add_mul_div_left _ _ cfg.len_pos, Nat.div_eq_of_lt (arrival_lt hr), Nat.zero_add,
      Nat.mod_eq_of_lt ho]
  have hport := rxPortAt_of_arrival cfg hreset hports hleaks hr hmod v
  rw [hdiv] at hport
  have hlast : arrival r + len n * o + 2 + 1 ≤ t := by
    have hnext : len n * o + len n ≤ 2 ^ cfg.blockAddrWidth * len n := by
      rw [← Nat.mul_succ, Nat.mul_comm]
      exact Nat.mul_le_mul_right _ ho
    have := arrival_lt hr
    omega
  refine memRx_of_written (by rw [hport]) (by rw [hport]) (fun u hena haddr => ?_) hlast
  obtain ⟨r', hr', o', ho', haddr', hdata⟩ :=
    writes_of_not_leaks hreset hports hleaks hwide hwords hena
  have heq := cfg.memAddr_injective hsize (hblock hr') ho' (hblock hr) ho (haddr'.symm.trans haddr)
  obtain ⟨hupper, rfl⟩ := BlockAddr.mk.inj heq
  rw [hdata, eq_of_rxBlock_eq cfg.le_ten hr' hr hupper]

/-- **Without leaks the receive memories mirror the transmit memories.** -/
theorem mirrors_of_not_leaks (hwide : 32 ≤ cfg.size) (hsize : 2 * nrChannels n ≤ cfg.size)
    (hwords : ∀ v a, (s₀.nodes v).memTx.mem a < 2 ^ 32) : Mirrors cfg s₀ ports where
  pairs := by
    intro u v huv
    obtain ⟨r, hr, htotal, hunique⟩ :=
      exists_route cfg.two_le cfg.le_ten (sub_ne_zero.mpr (Ne.symm huv))
    refine ⟨r, hr, ?_, fun r' hr' hlead => hunique r' hr' ?_⟩
    · rw [htotal, add_sub_cancel]
    · rw [← hlead, add_sub_cancel_left]
  others := fun _ => total_ne_zero cfg.two_le cfg.le_ten
  blocks := by
    rintro r hr r' hr' (htx | hrx)
    · exact eq_of_txBlock_eq cfg.le_ten hr hr' htx
    · exact eq_of_rxBlock_eq cfg.le_ten hr hr' hrx
  only := fun _ _ => writes_of_not_leaks hreset hports hleaks hwide hwords
  stored := fun _ _ ht _ hr _ =>
    stored_of_not_leaks hreset hports hleaks hwide hsize hwords ht hr

end NoLeaks

/-! ### With leaks -/

/-- All transmit memories have the same content, and the rest is reset. -/
def loaded (n : ℕ) (mem : ℕ → ℕ) : Sys n where
  net _ := ⟨0, 0, fun _ => ⟨0, false⟩⟩
  nodes _ := ⟨0, ⟨0, 0⟩, ⟨mem, 0⟩, false, ⟨0, 0⟩, ⟨fun _ => 0, 0⟩⟩

theorem isReset_loaded (n : ℕ) (mem : ℕ → ℕ) : (loaded n mem).IsReset where
  net := ⟨fun _ => rfl, fun _ => rfl, fun _ _ => rfl⟩
  nodes _ := ⟨rfl, rfl, rfl, rfl⟩

/-- The memory ports are not used. -/
def idle (n : ℕ) : ℕ → S4Noc.Node n → DualPort := fun _ _ => ⟨0, 0, 0, false⟩

section Leaks

variable {n : ℕ} {cfg : Config n} {r : Route Dir} {t u o : ℕ} {v : S4Noc.Node n}

/-- Every word is the number of its block. -/
def blockNr (cfg : Config n) (a : ℕ) : ℕ := a / 2 ^ cfg.blockAddrWidth % 2 ^ 32

theorem nrChannels_lt (h10 : n ≤ 10) : nrChannels n < 2 ^ 32 := by
  have hsq : n * n ≤ 10 * 10 := Nat.mul_le_mul h10 h10
  rw [nrChannels]
  omega

theorem word_blockNr (hsize : 2 * nrChannels n ≤ cfg.size) (hr : r ∈ routes n)
    (ho : o < 2 ^ cfg.blockAddrWidth) (v : S4Noc.Node n) :
    word cfg (loaded n (blockNr cfg)) v (txBlock n r) o = txBlock n r := by
  have hlt := txBlock_lt cfg.two_le cfg.le_ten hr
  change cfg.memAddr ⟨txBlock n r, o⟩ / 2 ^ cfg.blockAddrWidth % 2 ^ 32 = _
  rw [cfg.memAddr_div hsize hlt ho]
  exact Nat.mod_eq_of_lt (hlt.trans (nrChannels_lt cfg.le_ten))

theorem wire_txBlock (hsize : 2 * nrChannels n ≤ cfg.size) (hr : r ∈ routes n) :
    cfg.wire (txBlock n r) = txBlock n r := by
  have hlt := txBlock_lt cfg.two_le cfg.le_ten hr
  have hwide : txBlock n r < 2 ^ cfg.size := by
    refine lt_of_lt_of_le ?_ (Nat.lt_two_pow_self (n := cfg.size)).le
    omega
  rw [Config.wire, Nat.mod_eq_of_lt hwide, Nat.mod_eq_of_lt (hlt.trans (nrChannels_lt cfg.le_ten))]

/-- If the blocks are mirrored, the receiver counts the words of its routes right. -/
theorem Mirrors.count_mod (hsize : 2 * nrChannels n ≤ cfg.size)
    (h : Mirrors cfg (loaded n (blockNr cfg)) (idle n)) (harrives : Arrives n (t % len n))
    (v : S4Noc.Node n) :
    Nat.count (fun t => (received cfg (loaded n (blockNr cfg)) (idle n) (t + 2) v).valid = true) t %
      nrChannels n = Nat.count (Arrives n) (t % len n) := by
  have hreset := isReset_loaded n (blockNr cfg)
  have hports : ∀ t v, (idle n t v).wrEna = false := fun _ _ => rfl
  obtain ⟨r, hr, hslot⟩ := List.mem_map.mp harrives
  have hword : received cfg (loaded n (blockNr cfg)) (idle n) (t + 2) v = _ :=
    received_of_arrival hreset hports hr hslot.symm v
  have hvalid : (received cfg (loaded n (blockNr cfg)) (idle n) (t + 2) v).valid = true :=
    received_valid_of_arrives hreset hports harrives v
  obtain ⟨r', hr', o, ho, haddr, hdata⟩ := h.only (t + 2) v hvalid
  have hpow := Nat.two_pow_pos cfg.blockAddrWidth
  -- the word tells its route
  have hsame : r = r' := by
    refine eq_of_txBlock_eq cfg.le_ten hr hr' ?_
    have hwritten : cfg.wire (received cfg (loaded n (blockNr cfg)) (idle n) (t + 2) v).data = _ :=
      hdata
    rw [hword, word_blockNr hsize hr (Nat.mod_lt _ hpow), word_blockNr hsize hr' ho] at hwritten
    simpa only [wire_txBlock hsize hr] using hwritten
  -- and the address the number of the words before
  rw [rxPortAt_add_two hreset] at haddr
  have hcount := cfg.memAddr_injective hsize (Nat.mod_lt _ cfg.nrChannels_pos) (Nat.mod_lt _ hpow)
    (rxBlock_lt cfg.two_le cfg.le_ten hr') ho haddr
  rw [← hslot, hsame]
  exact (BlockAddr.mk.inj hcount).1

/-- If the blocks are mirrored, nothing is received in other slots. -/
theorem Mirrors.arrives_of_received (hsize : 2 * nrChannels n ≤ cfg.size)
    (h : Mirrors cfg (loaded n (blockNr cfg)) (idle n)) (hr : r ∈ routes n) (ht : arrival r ≤ t)
    (hvalid : (received cfg (loaded n (blockNr cfg)) (idle n) (t + 2) v).valid = true) :
    Arrives n (t % len n) := by
  have hlen := cfg.len_pos
  -- the last arrival of the route
  obtain ⟨u, hu, hut, htu⟩ : ∃ u, u % len n = arrival r ∧ u ≤ t ∧ t < u + len n := by
    refine ⟨arrival r + len n * ((t - arrival r) / len n), ?_, ?_, ?_⟩
    · rw [Nat.add_mul_mod_self_left, Nat.mod_eq_of_lt (arrival_lt hr)]
    · have := Nat.mul_div_le (t - arrival r) (len n)
      omega
    · have := Nat.lt_mul_div_succ (t - arrival r) hlen
      rw [Nat.mul_add, Nat.mul_one] at this
      omega
  have harrives : Arrives n (u % len n) := by
    rw [hu]
    exact arrives_of_mem hr
  have hcount := count_arrives cfg.two_le cfg.le_ten
  refine mark_of_count_modEq
    (p := fun t => (received cfg (loaded n (blockNr cfg)) (idle n) (t + 2) v).valid = true)
    hlen (fun t harr => ?_) ?_ ?_ hut htu hvalid
  · exact received_valid_of_arrives (isReset_loaded n _) (fun _ _ => rfl) harr v
  · rw [hcount]
    exact len_lt cfg.two_le cfg.le_ten
  · rw [hcount, Nat.ModEq, ← nrChannels, h.count_mod hsize harrives,
      h.count_mod hsize (by rw [Nat.add_mod_right]; exact harrives), Nat.add_mod_right]

/-- A route that leaks is enough to shift the blocks. -/
theorem not_mirrors_of_leaks (hsize : 2 * nrChannels n ≤ cfg.size) (hr : r ∈ routes n)
    (hleak : Leaks (links n) (routes n) .n (len n) r) :
    ¬ Mirrors cfg (loaded n (blockNr cfg)) (idle n) := by
  intro h
  have hreset := isReset_loaded n (blockNr cfg)
  -- the word of the second period leaves in a slot without arrival
  have hmod : (r.start + len n) % len n = r.start := by
    rw [Nat.add_mod_right, Nat.mod_eq_of_lt (start_lt hr)]
  have hslot : (0 + (r.start + len n + 1 - 1)) % len n = r.start := by
    rw [Nat.zero_add, Nat.add_sub_cancel, hmod]
  obtain ⟨u, w, hu, hunused, hout⟩ := (runs_sysAt cfg (idle n) hreset).leaked cfg.implements hr
    hleak (Nat.le_add_left 1 _) hslot 0
  obtain ⟨t, rfl⟩ := Nat.exists_eq_add_of_le' ((Nat.le_add_left 1 _).trans hu)
  have hvalid : (received cfg (loaded n (blockNr cfg)) (idle n) (t + 2) w).valid = true := by
    change (((sysAt cfg (loaded n (blockNr cfg)) (idle n) (t + 1 + 1)).net w).out none).valid = true
    rw [hout, sent_valid hreset, hmod]
    exact decide_eq_true (starts_of_mem hr)
  rw [Nat.add_sub_cancel, Nat.zero_add] at hunused
  refine hunused (arrives_iff_used.mp (h.arrives_of_received hsize hr ?_ hvalid))
  have := arrival_lt hr
  omega

end Leaks

/-- A word that is wider than the channel is cut. -/
theorem not_mirrors_two_pow {n : ℕ} {cfg : Config n} :
    ¬ Mirrors cfg (loaded n fun _ => 2 ^ cfg.size) (idle n) := by
  intro h
  have hreset := isReset_loaded n fun _ => 2 ^ cfg.size
  have hports : ∀ t v, (idle n t v).wrEna = false := fun _ _ => rfl
  obtain ⟨r, hr⟩ := exists_mem_routes cfg.two_le cfg.le_ten
  have hword : received cfg (loaded n fun _ => 2 ^ cfg.size) (idle n) (arrival r + 2) 0 =
      ⟨cfg.wire (2 ^ cfg.size), true⟩ :=
    received_of_arrival hreset hports hr (Nat.mod_eq_of_lt (arrival_lt hr)) 0
  have hvalid : (received cfg (loaded n fun _ => 2 ^ cfg.size) (idle n) (arrival r + 2) 0).valid =
      true := by
    rw [hword]
  obtain ⟨r', hr', o, ho, -, hdata⟩ := h.only (arrival r + 2) 0 hvalid
  have hwritten : cfg.wire (received cfg (loaded n fun _ => 2 ^ cfg.size) (idle n)
      (arrival r + 2) 0).data = 2 ^ cfg.size := hdata
  rw [hword, Config.wire, Config.wire, Nat.mod_self, Nat.zero_mod, Nat.zero_mod, Nat.zero_mod]
    at hwritten
  exact absurd hwritten.symm (Nat.two_pow_pos _).ne'

/-! ### The one-way memory -/

/-- **The one-way memory mirrors all contents if and only if it has two by two nodes** and its
    channels are wide enough for the words. -/
theorem mirrors_iff {n : ℕ} (h2 : 2 ≤ n) (h10 : n ≤ 10) {size : ℕ}
    (hsize : 2 * nrChannels n ≤ size) :
    (∀ (s₀ : Sys n) (ports : ℕ → S4Noc.Node n → DualPort), s₀.IsReset →
      (∀ v a, (s₀.nodes v).memTx.mem a < 2 ^ 32) → (∀ t v, (ports t v).wrEna = false) →
      Mirrors (config h2 h10 size) s₀ ports) ↔ n = 2 ∧ 32 ≤ size := by
  constructor
  · intro h
    have hwide : 32 ≤ size := by
      by_contra hnarrow
      refine not_mirrors_two_pow
        (h _ _ (isReset_loaded n _) (fun _ _ => ?_) fun _ _ => rfl)
      exact Nat.pow_lt_pow_right one_lt_two (Nat.lt_of_not_ge hnarrow)
    refine ⟨?_, hwide⟩
    by_contra hne
    obtain ⟨r, hr, hleak⟩ := exists_leaks (by omega) h10
    refine not_mirrors_of_leaks hsize hr hleak
      (h _ _ (isReset_loaded n _) (fun _ _ => ?_) fun _ _ => rfl)
    exact Nat.mod_lt _ (Nat.two_pow_pos 32)
  · rintro ⟨rfl, hwide⟩ s₀ ports hreset hwords hports
    exact mirrors_of_not_leaks hreset hports not_leaks_two hwide hsize hwords

/-- The memory as it is built by default. -/
theorem twoByTwo_mirrors :
    Mirrors (config (by decide) (by decide) 1024) (loaded 2 fun a => a % 2 ^ 32) (idle 2) := by
  have hsize : 2 * nrChannels 2 ≤ 1024 := by decide
  refine (mirrors_iff (by decide) (by decide) hsize).mpr ⟨rfl, by decide⟩ _ _ (isReset_loaded 2 _)
    (fun _ _ => ?_) fun _ _ => rfl
  exact Nat.mod_lt _ (Nat.two_pow_pos 32)

/-- Three by three nodes. -/
def nineNodes : Config 3 := config two_le_three three_le_ten 1024

/-- Every word is the number of its block.  In the second period the first node receives its own
    word of block 6 before the word of block 0, which then goes to block 2. -/
theorem nineNodes_shifted :
    rxPortAt nineNodes (loaded 3 (blockNr nineNodes)) (idle 3) 12 (0, 0) =
      ⟨0, nineNodes.memAddr ⟨0, 1⟩, 6, true⟩ ∧
    rxPortAt nineNodes (loaded 3 (blockNr nineNodes)) (idle 3) 14 (0, 0) =
      ⟨0, nineNodes.memAddr ⟨2, 1⟩, 0, true⟩ ∧
    ¬ Mirrors nineNodes (loaded 3 (blockNr nineNodes)) (idle 3) := by
  refine ⟨by decide +kernel, by decide +kernel, ?_⟩
  obtain ⟨r, hr, hleak⟩ := exists_leaks (n := 3) (by decide) (by decide)
  have hsize : 2 * nrChannels 3 ≤ 1024 := by decide
  exact not_mirrors_of_leaks hsize hr hleak

end Patmos.OneWay
