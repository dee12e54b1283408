import BarrierStore.Proofs.Disk.Outcome
import BarrierStore.Proofs.ValueLog.Recovery

/-!
# How far a value log has come

Addresses are handed out in ascending order, and segments take them up a capacity at a time. A record
takes no more of them than a capacity, or than its length, and what it leaves free at the end of a
segment is less than that again. So the addresses that a session takes can be told from its records.

The module introduces:

* `Record.share`, `shares` — what a record, or records, take of the addresses;
* `ValueLog.cursor` — the address behind the last one that the log has taken.

Main statement: `ValueLog.ends_store`.
-/

namespace BarrierStore

open Drive

/-- What a record takes of the addresses: a byte each, but no more than a segment has. -/
def Record.share (capacity : Nat) (record : Record) : Nat :=
  min record.length capacity

/-- What these records take of the addresses. -/
def shares (capacity : Nat) (records : List Record) : Nat :=
  (records.map (Record.share capacity)).sum

@[simp]
theorem shares_nil (capacity : Nat) : shares capacity [] = 0 := rfl

/-- Two rows of records have the shares of both. -/
@[simp]
theorem shares_append (capacity : Nat) (records more : List Record) :
    shares capacity (records ++ more) = shares capacity records + shares capacity more := by
  simp [shares]

@[simp]
theorem shares_singleton (capacity : Nat) (record : Record) :
    shares capacity [record] = record.share capacity := by
  simp [shares]

/-- Of fewer records the shares are no greater. -/
theorem shares_le_of_sublist {capacity : Nat} {records more : List Record}
    (h : List.Sublist records more) : shares capacity records ≤ shares capacity more := by
  induction h with
  | slnil => exact Nat.le_refl _
  | cons record _ ih => exact Nat.le_trans ih (by simp [shares])
  | cons_cons record _ ih => simpa [shares] using ih

namespace ValueLog

/-- The address behind the last one that the log has taken. What a record has beyond the capacity of its
segment takes no address. -/
def cursor (log : ValueLog) : Nat :=
  log.active.id.toNat * log.capacity.toNat + min log.active.length log.capacity.toNat

variable {log : ValueLog} {record : Record}

/-- The segment ids that a log has used are no more than its addresses. -/
theorem next_le_of_cursor (hcapacity : log.capacity ≠ 0) {bound : Nat}
    (hbound : (log.active.id.toNat + 1) * log.capacity.toNat ≤ bound) :
    log.active.id.toNat + 1 ≤ bound :=
  Nat.le_trans (Nat.le_mul_of_pos_right _ (Position.capacity_pos hcapacity)) hbound

/-- A fresh segment starts at the address that its id comes to. -/
theorem ends_rollOver (hnext : log.range.next.toNat = log.active.id.toNat + 1) :
    Ends log.rollOver
      (fun log' => log'.capacity = log.capacity ∧ log'.active.length = 0 ∧
        log'.active.id.toNat = log.active.id.toNat + 1)
      (fun fault => log.active.id.toNat + 2 < UInt64.size → fault ≠ .arithmetic) := by
  have hio : ∀ cause, log.active.id.toNat + 2 < UInt64.size → Fault.io cause ≠ .arithmetic :=
    fun _ _ => nofun
  refine (ends_lift _).bind fun _ _ => ?_
  split
  · refine (ends_replaceFile hio _ _ _).bind fun _ _ => (ends_create hio _).bind fun _ _ => ?_
    exact ends_pure ⟨rfl, rfl, hnext⟩
  · rename_i hgrow
    refine ends_throw fun hsize => ?_
    rw [SegmentRange.grow?, hnext, if_pos hsize] at hgrow
    exact (hgrow _ rfl).elim

/-- Room for a record takes no more addresses than the record itself. -/
theorem ends_makeRoom (hnext : log.range.next.toNat = log.active.id.toNat + 1)
    (hcapacity : log.capacity ≠ 0) (record : Record) :
    Ends (log.makeRoom record.length)
      (fun log' => log'.capacity = log.capacity ∧ log'.active.length < log.capacity.toNat ∧
        log'.cursor ≤ log.cursor + record.share log.capacity.toNat)
      (fun fault => log.cursor + record.share log.capacity.toNat + 1 < UInt64.size →
        fault ≠ .arithmetic) := by
  have hpos := Position.capacity_pos hcapacity
  unfold makeRoom
  split
  · rename_i hfull
    simp only [isFull, decide_eq_true_eq] at hfull
    -- what is left of the segment is less than the record, and less than a segment
    have hskipped : (log.active.id.toNat + 1) * log.capacity.toNat ≤
        log.cursor + record.share log.capacity.toNat := by
      rw [cursor, Record.share, Nat.succ_mul]
      omega
    refine (ends_rollOver hnext).imp ?_ ?_
    · rintro log' ⟨hcapacity', hlength, hid⟩
      refine ⟨hcapacity', by omega, ?_⟩
      rw [cursor, hcapacity', hlength, hid]
      omega
    · intro fault hfault hbound
      have hids := next_le_of_cursor hcapacity hskipped
      exact hfault (by omega)
  · rename_i hroom
    simp only [isFull, decide_eq_true_eq, not_and, Nat.not_lt] at hroom
    have hlength := record.length_pos
    exact ends_pure ⟨rfl, by omega, Nat.le_add_right _ _⟩

/-- A record takes its share. -/
theorem ends_append (hroom : log.active.length < log.capacity.toNat) (record : Record) :
    Ends (log.append record)
      (fun log' => log'.capacity = log.capacity ∧
        log'.cursor ≤ log.cursor + record.share log.capacity.toNat)
      (fun fault => log.cursor < UInt64.size → fault ≠ .arithmetic) := by
  unfold append
  dsimp only
  split
  · refine (ends_lift _).bind fun _ _ => (ends_lift _).bind fun _ _ => ends_pure ⟨rfl, ?_⟩
    simp only [cursor, Record.share]
    omega
  · rename_i hnone
    refine ends_throw fun hsize => ?_
    -- below the capacity, the record's address is where the cursor stands
    have hcursor : log.cursor = log.active.id.toNat * log.capacity.toNat + log.active.length := by
      rw [cursor, Nat.min_eq_left (Nat.le_of_lt hroom)]
    rw [Position.address?, ← hcursor, if_pos hsize] at hnone
    exact (hnone _ rfl).elim

/-- A record takes its share, and as much again at most at the end of the segment in front of it. -/
theorem ends_store (hnext : log.range.next.toNat = log.active.id.toNat + 1)
    (hcapacity : log.capacity ≠ 0) (record : Record) :
    Ends (log.store record)
      (fun log' => log'.cursor ≤ log.cursor + 2 * record.share log.capacity.toNat)
      (fun fault => log.cursor + 2 * record.share log.capacity.toNat + 1 < UInt64.size →
        fault ≠ .arithmetic) := by
  refine ((ends_makeRoom hnext hcapacity record).imp (fun _ hmade => hmade) ?_).bind ?_
  · exact fun fault hfault hbound => hfault (by omega)
  rintro sealed ⟨hsame, hroom, hcursor⟩
  rw [← hsame] at hroom
  refine (ends_append hroom record).imp ?_ ?_
  · rintro log' ⟨-, hcursor'⟩
    rw [hsame] at hcursor'
    omega
  · exact fun fault hfault hbound => hfault (by omega)

/-- A write comes to what storing its record comes to. -/
theorem result_put {done : ValueLog → Prop} {failed : Fault → Prop} {key value : Bytes}
    (h : Ends (log.store ⟨key, value⟩) done failed) (drive : Drive) :
    let result := ((log.put key value).run drive).1
    (result.2 = .ok () → done result.1) ∧ ∀ fault, result.2 = .error fault → failed fault := by
  have hends := h drive
  unfold store at hends
  show ((log.put key value drive).1.2 = .ok () → done (log.put key value drive).1.1) ∧
    ∀ fault, (log.put key value drive).1.2 = .error fault → failed fault
  unfold put
  dsimp only
  rcases hmade : (log.makeRoom (Record.length ⟨key, value⟩)).run.run drive with ⟨fault | sealed, middle⟩
  · simp only [ExceptT.run_bind, StateT.run_bind, hmade] at hends
    exact ⟨nofun, fun _ hfault => Except.error.inj hfault ▸ hends⟩
  · rw [run_bind_of_ok hmade] at hends
    dsimp only
    rcases happended : (sealed.append ⟨key, value⟩).run.run middle with ⟨fault | log', last⟩ <;>
      rw [happended] at hends
    · exact ⟨nofun, fun _ hfault => Except.error.inj hfault ▸ hends⟩
    · exact ⟨fun _ => hends, nofun⟩

end ValueLog

end BarrierStore
