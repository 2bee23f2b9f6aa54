import Mathlib.Data.Fintype.Pi
import Mathlib.Logic.Function.Basic

/-!
# The ARP table

`arp_table` of the Ethernet library has eight entries, each used or not.  A search returns the first
used entry of an IP address, a deletion marks all its entries as unused, and an insertion deletes
the old entry of the address and takes the first slot that is not used, or slot 0 when there is
none.

Beside the table runs a ledger of the addresses that were inserted and since then neither deleted
nor evicted, each with the MAC address of its latest insertion.
-/

namespace Patmos.ArpTable

/-! ### The functions -/

def ARP_TABLE_SIZE : Nat := 8

abbrev Ip := Fin 4 → BitVec 8

abbrev Mac := Fin 6 → BitVec 8

/-- `struct arp_table_entry`. -/
structure Entry where
  used : BitVec 8
  ip_addr : Ip
  mac_addr : Mac

/-- The memory from `arp_table` on, entry by entry: the insertion looks at one entry beyond the
    table. -/
abbrev Table := Nat → Entry

def arpTableInit (t : Table) : Table :=
  fun i => if i < ARP_TABLE_SIZE then { t i with used := 0 } else t i

/-- The entry is used, and is one of the address. -/
def Entry.isOf (e : Entry) (ip : Ip) : Bool := e.used == 1 && decide (e.ip_addr = ip)

def arpTableSearch (t : Table) (ip : Ip) : Option Mac :=
  ((List.range ARP_TABLE_SIZE).find? fun i => (t i).isOf ip).map fun i => (t i).mac_addr

/-- The table after the deletion, and the value that is returned. -/
def arpTableDeleteEntry (t : Table) (ip : Ip) : Table × Bool :=
  (fun i => if i < ARP_TABLE_SIZE ∧ (t i).isOf ip then { t i with used := 0 } else t i,
    (List.range ARP_TABLE_SIZE).any fun i => (t i).isOf ip)

/-- The loop that looks for a slot.  It reads the flag before it compares the index. -/
def freeSlot (t : Table) (i : Nat) : Nat :=
  if (t i).used = 1 ∧ i < ARP_TABLE_SIZE then freeSlot t (i + 1) else i
termination_by ARP_TABLE_SIZE - i

def arpTableNewEntry (t : Table) (ip : Ip) (mac : Mac) : Table :=
  let t₁ := if (arpTableSearch t ip).isSome then (arpTableDeleteEntry t ip).1 else t
  let i := freeSlot t₁ 0
  Function.update t₁ (if i = ARP_TABLE_SIZE then 0 else i) ⟨1, ip, mac⟩

/-! ### The table as a map -/

/-- A call that changes the table. -/
inductive Call where
  | newEntry (ip : Ip) (mac : Mac)
  | deleteEntry (ip : Ip)

/-- The table is full of other addresses. -/
def Full (t : Table) (ip : Ip) : Prop := ∀ i < ARP_TABLE_SIZE, (t i).used = 1 ∧ (t i).ip_addr ≠ ip

instance (t : Table) (ip : Ip) : Decidable (Full t ip) :=
  inferInstanceAs (Decidable (∀ i < _, _ ∧ _))

/-- The table and its ledger. -/
structure Sys where
  table : Table
  live : Ip → Option Mac

namespace Sys

def init (t : Table) : Sys := ⟨arpTableInit t, fun _ => none⟩

def next (y : Sys) : Call → Sys
  | .newEntry ip mac =>
    -- a full table loses the address in slot 0
    let kept := if Full y.table ip then Function.update y.live (y.table 0).ip_addr none else y.live
    ⟨arpTableNewEntry y.table ip mac, Function.update kept ip (some mac)⟩
  | .deleteEntry ip => ⟨(arpTableDeleteEntry y.table ip).1, Function.update y.live ip none⟩

end Sys

/-- A slot of the table has a used entry. -/
def Holds (t : Table) (i : Nat) (ip : Ip) (mac : Mac) : Prop :=
  i < ARP_TABLE_SIZE ∧ t i = ⟨1, ip, mac⟩

/-- One used entry for each address. -/
def Unique (t : Table) : Prop := ∀ i j ip mac mac', Holds t i ip mac → Holds t j ip mac' → i = j

/-- What an insertion into slot `k` does: the slot has the entry, and the others keep those of other
    addresses.  The slot had no entry of another address, but for slot 0 of a table that was full of
    them. -/
structure Inserted (t : Table) (ip : Ip) (mac : Mac) (t' : Table) (k : Nat) : Prop where
  holds : ∀ i ip' mac', Holds t' i ip' mac' ↔
    i = k ∧ ip' = ip ∧ mac' = mac ∨ i ≠ k ∧ Holds t i ip' mac' ∧ ip' ≠ ip
  room : ¬ Full t ip → ∀ ip' mac', Holds t k ip' mac' → ip' = ip
  victim : Full t ip → k = 0

section Functions

variable {t : Table} {i k : Nat} {ip ip' : Ip} {mac mac' : Mac}

theorem isOf_iff (hi : i < ARP_TABLE_SIZE) : (t i).isOf ip = true ↔ ∃ mac, Holds t i ip mac := by
  rcases h : t i with ⟨used, ip_addr, mac_addr⟩
  simp [Entry.isOf, Holds, hi, h]

theorem holds_of_used (hi : i < ARP_TABLE_SIZE) (h : (t i).used = 1) :
    Holds t i (t i).ip_addr (t i).mac_addr := ⟨hi, by rw [← h]⟩

theorem Holds.used (h : Holds t i ip mac) : (t i).used = 1 := congrArg Entry.used h.2

theorem search_isSome_iff : (arpTableSearch t ip).isSome = true ↔ ∃ i mac, Holds t i ip mac := by
  unfold arpTableSearch
  rw [Option.isSome_map, List.find?_isSome]
  constructor
  · rintro ⟨i, hi, hof⟩
    exact ⟨i, (isOf_iff (List.mem_range.mp hi)).mp hof⟩
  · rintro ⟨i, mac, h⟩
    exact ⟨i, List.mem_range.mpr h.1, (isOf_iff h.1).mpr ⟨mac, h⟩⟩

theorem search_eq_some_iff (hu : Unique t) :
    arpTableSearch t ip = some mac ↔ ∃ i, Holds t i ip mac := by
  have hfound : ∀ mac', arpTableSearch t ip = some mac' → ∃ j, Holds t j ip mac' := by
    intro mac' h
    obtain ⟨j, hfind, rfl⟩ := Option.map_eq_some_iff.mp h
    have hj := List.mem_range.mp (List.mem_of_find?_eq_some hfind)
    have hof := List.find?_some hfind
    obtain ⟨mac', h'⟩ := (isOf_iff hj).mp hof
    exact ⟨j, hj, by rw [h'.2]⟩
  constructor
  · exact hfound mac
  · rintro ⟨i, h⟩
    obtain ⟨mac', hmac'⟩ := Option.isSome_iff_exists.mp (search_isSome_iff.mpr ⟨i, mac, h⟩)
    obtain ⟨j, hj⟩ := hfound mac' hmac'
    obtain rfl : i = j := hu i j ip mac mac' h hj
    obtain ⟨-, -, rfl⟩ := Entry.mk.inj (h.2.symm.trans hj.2)
    exact hmac'

theorem holds_delete_iff :
    Holds (arpTableDeleteEntry t ip).1 i ip' mac' ↔ Holds t i ip' mac' ∧ ip' ≠ ip := by
  rcases h : t i with ⟨used, ip_addr, mac_addr⟩
  simp only [Holds, arpTableDeleteEntry, Entry.isOf, h]
  split <;> simp_all; grind

/-- The table in which an insertion looks for a slot. -/
theorem holds_cleared_iff (t : Table) (ip : Ip) (i : Nat) (ip' : Ip) (mac' : Mac) :
    Holds (if (arpTableSearch t ip).isSome then (arpTableDeleteEntry t ip).1 else t) i ip' mac' ↔
      Holds t i ip' mac' ∧ ip' ≠ ip := by
  by_cases hsome : (arpTableSearch t ip).isSome = true
  · rw [if_pos hsome]
    exact holds_delete_iff
  · rw [if_neg hsome, iff_self_and]
    rintro h rfl
    exact hsome (search_isSome_iff.mpr ⟨i, mac', h⟩)

theorem holds_update_iff (hk : k < ARP_TABLE_SIZE) :
    Holds (Function.update t k ⟨1, ip, mac⟩) i ip' mac' ↔
      i = k ∧ ip' = ip ∧ mac' = mac ∨ i ≠ k ∧ Holds t i ip' mac' := by
  by_cases hik : i = k
  · simp [Holds, hik, hk, eq_comm]
  · simp [Holds, hik]

/-- The loop stops at a slot that is not used, or behind a table that is full. -/
theorem freeSlot_cases (hi : i ≤ ARP_TABLE_SIZE) (hbefore : ∀ j < i, (t j).used = 1) :
    freeSlot t i < ARP_TABLE_SIZE ∧ (t (freeSlot t i)).used ≠ 1 ∨
      freeSlot t i = ARP_TABLE_SIZE ∧ ∀ j < ARP_TABLE_SIZE, (t j).used = 1 := by
  fun_induction freeSlot t i with
  | case1 i hused ih =>
    apply ih hused.2
    intro j hj
    rcases Nat.lt_succ_iff_lt_or_eq.mp hj with hlt | rfl
    · exact hbefore j hlt
    · exact hused.1
  | case2 i hused =>
    rcases Nat.lt_or_eq_of_le hi with hlt | rfl
    · exact Or.inl ⟨hlt, fun hone => hused ⟨hone, hlt⟩⟩
    · exact Or.inr ⟨rfl, hbefore⟩

theorem inserted (t : Table) (ip : Ip) (mac : Mac) :
    ∃ k < ARP_TABLE_SIZE, Inserted t ip mac (arpTableNewEntry t ip mac) k := by
  have hcleared := holds_cleared_iff t ip
  simp only [arpTableNewEntry]
  generalize (if (arpTableSearch t ip).isSome then (arpTableDeleteEntry t ip).1 else t) = t₁ at *
  rcases freeSlot_cases (t := t₁) (Nat.zero_le _) nofun with ⟨hlt, hfree⟩ | ⟨hend, hused⟩
  · -- an entry of another address would be in the slot still
    have hslot : ∀ ip' mac', Holds t (freeSlot t₁ 0) ip' mac' → ip' = ip := by
      intro ip' mac' h
      by_contra hne
      exact hfree ((hcleared _ ip' mac').mpr ⟨h, hne⟩).used
    refine ⟨freeSlot t₁ 0, hlt, fun i ip' mac' => ?_, fun _ => hslot, fun hfull => ?_⟩
    · rw [if_neg hlt.ne, holds_update_iff hlt, hcleared]
    · obtain ⟨hone, hne⟩ := hfull _ hlt
      exact absurd (hslot _ _ (holds_of_used hlt hone)) hne
  · have hfull : Full t ip := by
      intro j hj
      obtain ⟨h, hne⟩ := (hcleared j _ _).mp (holds_of_used hj (hused j hj))
      rw [h.2]
      exact ⟨rfl, hne⟩
    refine ⟨0, Nat.succ_pos _, fun i ip' mac' => ?_, fun hroom => absurd hfull hroom, fun _ => rfl⟩
    rw [if_pos hend, holds_update_iff (Nat.succ_pos _), hcleared]

end Functions

/-! ### Runs -/

/-- The table has one entry for each address of the ledger, and no other. -/
structure Inv (y : Sys) : Prop where
  unique : Unique y.table
  live : ∀ ip mac, (∃ i, Holds y.table i ip mac) ↔ y.live ip = some mac

theorem inv_init (t : Table) : Inv (Sys.init t) := by
  have hnone : ∀ i ip mac, ¬ Holds (arpTableInit t) i ip mac := by
    intro i ip mac h
    have hused := h.used
    rw [arpTableInit, if_pos h.1] at hused
    exact absurd hused (by simp)
  constructor
  · intro i j ip mac mac' h
    exact absurd h (hnone i ip mac)
  · intro ip mac
    exact ⟨fun ⟨i, h⟩ => absurd h (hnone i ip mac), nofun⟩

section Step

variable {y : Sys}

theorem Inv.deleteEntry (h : Inv y) (ip : Ip) : Inv (y.next (.deleteEntry ip)) := by
  constructor
  · intro i j ip' mac mac' hi hj
    exact h.unique i j ip' mac mac' (holds_delete_iff.mp hi).1 (holds_delete_iff.mp hj).1
  · intro ip' mac'
    simp only [Sys.next, holds_delete_iff, exists_and_right, h.live, Function.update_apply]
    split <;> simp_all

theorem Inv.newEntry (h : Inv y) (ip : Ip) (mac : Mac) : Inv (y.next (.newEntry ip mac)) := by
  obtain ⟨k, -, hk⟩ := inserted y.table ip mac
  constructor
  · intro i j ip' mac₁ mac₂ hi hj
    rcases (hk.holds i ip' mac₁).mp hi with ⟨rfl, rfl, -⟩ | ⟨-, hi', hne⟩ <;>
      rcases (hk.holds j _ mac₂).mp hj with ⟨rfl, heq, -⟩ | ⟨-, hj', hne'⟩
    · rfl
    · exact absurd rfl hne'
    · exact absurd heq hne
    · exact h.unique i j ip' mac₁ mac₂ hi' hj'
  · intro ip' mac'
    simp only [Sys.next, hk.holds, Function.update_apply]
    by_cases heq : ip' = ip
    · simp [heq, eq_comm]
    · simp only [heq, false_and, and_false, false_or, not_false_eq_true, and_true, if_false, ne_eq]
      by_cases hf : Full y.table ip
      · rw [if_pos hf, hk.victim hf, Function.update_apply]
        have hslot := holds_of_used (Nat.succ_pos _) (hf 0 (Nat.succ_pos _)).1
        split
        · rename_i hvictim
          refine ⟨fun ⟨i, hne, hi⟩ => ?_, nofun⟩
          exact absurd (h.unique i 0 ip' _ _ hi (hvictim ▸ hslot)) hne
        · rename_i hother
          rw [← h.live]
          refine ⟨fun ⟨i, _, hi⟩ => ⟨i, hi⟩, fun ⟨i, hi⟩ => ⟨i, ?_, hi⟩⟩
          rintro rfl
          exact hother (congrArg Entry.ip_addr hi.2).symm
      · rw [if_neg hf, ← h.live]
        refine ⟨fun ⟨i, _, hi⟩ => ⟨i, hi⟩, fun ⟨i, hi⟩ => ⟨i, ?_, hi⟩⟩
        rintro rfl
        exact heq (hk.room hf ip' mac' hi)

theorem Inv.step (h : Inv y) : ∀ c : Call, Inv (y.next c)
  | .newEntry ip mac => h.newEntry ip mac
  | .deleteEntry ip => h.deleteEntry ip

theorem inv_run (t : Table) (cs : List Call) : Inv (cs.foldl Sys.next (Sys.init t)) :=
  List.foldlRecOn cs Sys.next (inv_init t) fun _ h c _ => h.step c

end Step

/-- **The ARP table is a map with one victim**: one entry for each address, a search returns what
    the ledger has, and an insertion keeps all entries of other addresses, but for slot 0 of a full
    table. -/
theorem search_eq_live (t : Table) (cs : List Call) :
    let y := cs.foldl Sys.next (Sys.init t)
    Unique y.table ∧ (∀ ip, arpTableSearch y.table ip = y.live ip) ∧
      ∀ ip mac, ∃ k < ARP_TABLE_SIZE,
        Inserted y.table ip mac (arpTableNewEntry y.table ip mac) k := by
  intro y
  have h : Inv y := inv_run t cs
  refine ⟨h.unique, fun ip => Option.ext fun mac => ?_, inserted y.table⟩
  rw [search_eq_some_iff h.unique, h.live]

end Patmos.ArpTable
