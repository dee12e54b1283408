import BarrierStore.Engine
import BarrierStore.Proofs.Disk.Outcome
import BarrierStore.Proofs.Text.Spelling

/-!
# What a command may fail with

A command fails because a file fails, because the indexed place holds no record of the key, or because a
number leaves the machine's range. The text of such a fault is in ASCII, and it is short.

The module introduces:

* `Fault.OfCommand` — the faults of commands;
* `Drive.Fails allowed operation` — the faults of an operation are such.

Main statements: `Engine.ofCommand_of_execute`, and on the text `Fault.OfCommand.length_encode_le` and
`Fault.OfCommand.decodeLossy_encode`.
-/

namespace BarrierStore

/-- The faults of commands. -/
inductive Fault.OfCommand : Fault → Prop
  /-- A file fails. -/
  | io (cause : IoFault) : OfCommand (.io cause)
  /-- The indexed place holds no record of the key. -/
  | corruptRecord (segment : UInt64) {offset : Nat} : offset < UInt64.size →
      OfCommand (.corruptRecord segment offset)
  /-- A number leaves the machine's range. -/
  | arithmetic : OfCommand .arithmetic

/-! ## Where faults come from -/

namespace Drive

variable {α β : Type} {allowed : Fault → Prop} {operation : DiskM α}

/-- Whenever the operation fails, its fault is such. -/
def Fails (allowed : Fault → Prop) (operation : DiskM α) : Prop :=
  ∀ drive fault last, operation.run.run drive = (.error fault, last) → allowed fault

theorem fails_pure (a : α) : Fails allowed (pure a : DiskM α) := by
  intro drive fault last h
  cases h

/-- A failure fails with its fault. -/
theorem fails_throw {fault : Fault} (h : allowed fault) : Fails allowed (throw fault : DiskM α) := by
  intro drive fault' last hrun
  cases hrun
  exact h

/-- A program that cannot fail, as a step of an operation. -/
theorem fails_lift (program : StateM Drive α) : Fails allowed (liftM program : DiskM α) := by
  intro drive fault last h
  cases h

/-- Two operations fail with a fault of either. -/
theorem Fails.bind {next : α → DiskM β} (h : Fails allowed operation)
    (hnext : ∀ a, Fails allowed (next a)) : Fails allowed (operation >>= next) := by
  intro drive fault last hrun
  simp only [ExceptT.run_bind, StateT.run_bind] at hrun
  rcases hfirst : operation.run.run drive with ⟨fault' | a, middle⟩ <;> rw [hfirst] at hrun
  · cases hrun
    exact h _ _ _ hfirst
  · exact hnext a _ _ _ hrun

/-- Where it is known what comes of an operation, its faults are known. -/
theorem Ends.fails {done : α → Prop} (h : Ends operation done allowed) : Fails allowed operation := by
  intro drive fault last hrun
  have houtcome := h drive
  rw [hrun] at houtcome
  exact houtcome

theorem fails_create (path : Path) : Fails Fault.OfCommand (create path) :=
  (ends_create .io path).fails

/-- To replace a file fails as a command may fail. -/
theorem fails_replaceFile (path : Path) (extension : List Char) (contents : Bytes) :
    Fails Fault.OfCommand (replaceFile path extension contents) :=
  (ends_replaceFile .io path extension contents).fails

end Drive

namespace ValueLog

open Drive

variable (log : ValueLog)

/-- So does the change to the next segment. -/
theorem fails_rollOver : Fails Fault.OfCommand log.rollOver := by
  refine (fails_lift _).bind fun _ => ?_
  split
  · exact (fails_replaceFile _ _ _).bind fun _ => (fails_create _).bind fun _ => fails_pure _
  · exact fails_throw .arithmetic

theorem fails_makeRoom (length : Nat) : Fails Fault.OfCommand (log.makeRoom length) := by
  unfold makeRoom
  split
  · exact log.fails_rollOver
  · exact fails_pure log

/-- So does a record that is appended. -/
theorem fails_append (record : Record) : Fails Fault.OfCommand (log.append record) := by
  unfold append
  dsimp only
  split
  · exact (fails_lift _).bind fun _ => (fails_lift _).bind fun _ => fails_pure _
  · exact fails_throw .arithmetic

variable {log}

/-- A put fails as a command may fail. -/
theorem ofCommand_of_put {log' : ValueLog} {key value : Bytes} {fault : Fault} {drive drive' : Drive}
    (h : (log.put key value).run drive = ((log', .error fault), drive')) : fault.OfCommand := by
  change log.put key value drive = _ at h
  unfold put at h
  dsimp only at h
  split at h
  · rename_i hroom
    cases h
    exact fails_makeRoom _ _ _ _ _ hroom
  · rename_i sealed middle hroom
    split at h
    · rename_i happend
      cases h
      exact fails_append _ _ _ _ _ happend
    · cases h

/-- So does reading at a position. -/
theorem ofCommand_of_readAt {disk : Disk} {key : Bytes} {position : Position} {fault : Fault}
    (hoffset : position.offset < UInt64.size) (h : log.readAt disk key position = .error fault) :
    fault.OfCommand := by
  unfold readAt at h
  dsimp only at h
  split at h
  · cases h
    exact .io _
  · split at h <;> cases h
    · exact .io _
    · exact .corruptRecord _ hoffset
  · split at h
    · cases h
      exact .corruptRecord _ hoffset
    · split at h <;> cases h
      exact .corruptRecord _ hoffset

/-- So does a lookup. -/
theorem ofCommand_of_get {disk : Disk} {key : Bytes} {fault : Fault}
    (h : log.get disk key = .error fault) : fault.OfCommand := by
  unfold get at h
  split at h
  · cases h
  · rename_i address hfound
    split at h
    · cases h
      exact .arithmetic
    · rename_i position hposition
      -- an offset is below the capacity, and so a word
      have hoffset : position.offset < UInt64.size := by
        unfold Position.ofAddress? at hposition
        split at hposition
        · cases hposition
        · rename_i hcapacity
          cases hposition
          exact (Nat.mod_lt _ (Position.capacity_pos hcapacity)).trans log.capacity.toNat_lt
      rcases hread : log.readAt disk key position with cause | value <;> rw [hread] at h <;> cases h
      exact ofCommand_of_readAt hoffset hread

end ValueLog

/-- A command fails in these ways only. -/
theorem Engine.ofCommand_of_execute {engine engine' : Engine} {command : Command} {fault : Fault}
    {drive drive' : Drive}
    (h : (engine.execute command).run drive = ((engine', .error fault), drive')) : fault.OfCommand := by
  cases command with
  | get key =>
    rw [run_execute_get] at h
    rcases hget : engine.get drive.disk key with cause | value <;> rw [hget] at h <;> cases h
    exact ValueLog.ofCommand_of_get hget
  | put key value =>
    rw [run_execute_put] at h
    rcases hput : (engine.log.put key value).run drive with ⟨⟨log', cause | _⟩, last⟩ <;>
      rw [hput] at h <;> cases h
    exact ValueLog.ofCommand_of_put hput
  | ping | putNumber | getNumber => cases h

/-! ## Texts -/

theorem Fault.toList_message_corruptRecord (segment : UInt64) (offset : Nat) :
    (corruptRecord segment offset).message.toList =
      "Corrupt record at segment ".toList ++ Decimal.digits segment.toNat ++ ", offset ".toList ++
        Decimal.digits offset := by
  have hdigits (n : Nat) : (toString n).toList = Decimal.digits n := String.toList_ofList
  show ("Corrupt record at segment " ++ toString segment.toNat ++ ", offset " ++
    toString offset).toList = _
  rw [String.toList_append, String.toList_append, String.toList_append, hdigits, hdigits]

namespace Fault.OfCommand

variable {fault : Fault} (h : fault.OfCommand)
include h

/-- The text of a fault of a command is in ASCII, is not empty, and is short. -/
theorem message_plain : fault.message.toList.all (·.toNat < 128) ∧
    0 < fault.message.toList.length ∧ fault.message.toList.length ≤ 128 := by
  cases h with
  | io cause => cases cause <;> decide +kernel
  | arithmetic => decide +kernel
  | @corruptRecord segment offset hoffset =>
    rw [toList_message_corruptRecord]
    constructor
    · have hdigits (n : Nat) : (Decimal.digits n).all (·.toNat < 128) := List.all_eq_true.mpr fun c hc =>
        decide_eq_true (Decimal.lt_of_isDigit (Decimal.isDigit_of_mem_digits hc))
      have hlabel : "Corrupt record at segment ".toList.all (·.toNat < 128) := by decide
      have hmiddle : ", offset ".toList.all (·.toNat < 128) := by decide
      rw [List.all_append, List.all_append, List.all_append, hlabel, hdigits, hmiddle, hdigits]
      rfl
    · -- the fixed parts have their lengths, and a word has at most twenty digits
      have hsegment := Decimal.length_digits_le segment
      have hwords := Decimal.length_digits_le (UInt64.ofNat offset)
      rw [UInt64.toNat_ofNat_of_lt' hoffset] at hwords
      have hlabel : "Corrupt record at segment ".toList.length = 26 := by decide
      have hmiddle : ", offset ".toList.length = 9 := by decide
      rw [List.length_append, List.length_append, List.length_append, hlabel, hmiddle]
      omega

/-- The messages of these faults are ASCII. -/
theorem lt_of_mem_message : ∀ c ∈ fault.message.toList, c.toNat < 128 :=
  fun c hc => of_decide_eq_true (List.all_eq_true.mp h.message_plain.1 c hc)

/-- The text fits into a frame. -/
theorem length_encode_le : (Utf8.encode fault.message.toList).length ≤ maxPayload := by
  rw [Utf8.length_encode h.lt_of_mem_message]
  exact h.message_plain.2.2.trans (by decide)

/-- None of the messages is empty. -/
theorem encode_ne_nil : Utf8.encode fault.message.toList ≠ [] := by
  rw [← List.length_pos_iff, Utf8.length_encode h.lt_of_mem_message]
  exact h.message_plain.2.1

/-- The text is read back from its bytes. -/
theorem decodeLossy_encode :
    String.ofList (Utf8.decodeLossy (Utf8.encode fault.message.toList)) = fault.message := by
  rw [Utf8.decodeLossy_of_decode? (Utf8.decode?_encode h.lt_of_mem_message), String.ofList_toList]

end Fault.OfCommand

end BarrierStore
