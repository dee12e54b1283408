import BarrierStore.Proofs.Service.Steps

/-!
# An acknowledged write is visible

The writes of a service stand in a row. At any time an index shows the first of them, a barrier holds the
next ones, and the rest is staged. The acknowledgements that a barrier has collected belong to writes that
were staged when it took what was staged, so they are among those that it has shown when it delivers.

The module introduces:

* `Index.Accounts` — how a row of bindings is shared out among an index and a barrier;
* `Machine.Shows` — a write, or a later one of its key, is visible;
* `Machine.Accounted` — the writes in their rows, and how far the tickets of each stage have come.

Main statements: `Accounted.step`, and `Accounted.shows` for the delivered tickets.
-/

namespace BarrierStore

/-! ## A row of bindings -/

/-- What stands at a place of a row stands there still when the row goes on. -/
theorem getElem?_of_prefix {α : Type} {front row : List α} (h : front <+: row) {place : Nat} {entry : α}
    (hplace : front[place]? = some entry) : row[place]? = some entry := by
  obtain ⟨rest, rfl⟩ := h
  rw [List.getElem?_append_left (List.getElem?_eq_some_iff.mp hplace).1, hplace]

/-- A key that is bound has a last binding. -/
theorem exists_latest_of_mem {α : Type} {entries : List (Bytes × α)} {key : Bytes} {value : α}
    (h : (key, value) ∈ entries) : ∃ last, latest entries key = some last := by
  obtain ⟨front, rest, rfl⟩ := List.append_of_mem h
  rw [← List.singleton_append, ← List.append_assoc, latest_append, latest_concat, if_pos rfl]
  cases latest rest key with
  | none => exact ⟨value, rfl⟩
  | some last => exact ⟨last, rfl⟩

namespace Index

/-- The first `shown` of these bindings are visible and those from `held` on are staged. A batch has those
in between. -/
structure Accounts (index : Index) (batch : AddressMap) (lines : List (Bytes × UInt64))
    (shown held : Nat) : Prop where
  shown_le : shown ≤ held
  held_le : held ≤ lines.length
  applied_eq : index.applied = .ofEntries (lines.take shown)
  batch_eq : batch = .ofEntries ((lines.take held).drop shown)
  staged_eq : index.staged = .ofEntries (lines.drop held)

/-- At the start all that is applied is shown, and the rest is staged. -/
theorem accounts_start (index : Index) :
    index.Accounts ∅ (index.applied.toList ++ index.staged.toList) index.applied.toList.length
      index.applied.toList.length where
  shown_le := Nat.le_refl _
  held_le := by simp
  applied_eq := by rw [List.take_left, ofEntries_toList]
  batch_eq := by
    rw [List.take_left, List.drop_length]
    rfl
  staged_eq := by rw [List.drop_left, ofEntries_toList]

namespace Accounts

variable {index : Index} {batch : AddressMap} {lines : List (Bytes × UInt64)} {shown held : Nat}

/-- A new binding is staged. -/
theorem stage (h : index.Accounts batch lines shown held) (key : Bytes) (address : UInt64) :
    Accounts { index with staged := index.staged.insert key address } batch (lines ++ [(key, address)])
      shown held where
  shown_le := h.shown_le
  held_le := Nat.le_trans h.held_le (by simp)
  applied_eq := by
    rw [List.take_append_of_le_length (Nat.le_trans h.shown_le h.held_le)]
    exact h.applied_eq
  batch_eq := by
    rw [List.take_append_of_le_length h.held_le]
    exact h.batch_eq
  staged_eq := by
    rw [List.drop_append_of_le_length h.held_le, ofEntries_concat, h.staged_eq]

/-- A barrier takes what is staged. -/
theorem beginSync (h : index.Accounts batch lines shown shown) :
    index.beginSync.2.Accounts index.beginSync.1 lines shown lines.length where
  shown_le := h.held_le
  held_le := Nat.le_refl _
  applied_eq := h.applied_eq
  batch_eq := by
    rw [List.take_length]
    exact h.staged_eq
  staged_eq := by
    rw [List.drop_length]
    rfl

/-- A barrier makes what it has taken visible. -/
theorem publish (h : index.Accounts batch lines shown held) :
    (index.publish batch).Accounts ∅ lines held held where
  shown_le := Nat.le_refl _
  held_le := h.held_le
  applied_eq := by
    have hfront : lines.take shown = (lines.take held).take shown := by
      rw [List.take_take, Nat.min_eq_left h.shown_le]
    rw [Index.publish, h.applied_eq, h.batch_eq, ofEntries_union, hfront, List.take_append_drop]
  batch_eq := by
    rw [List.drop_take_self]
    rfl
  staged_eq := h.staged_eq

/-- The key of a visible binding has it, or a later one. -/
theorem exists_applied (h : index.Accounts batch lines shown held) {key : Bytes} {address : UInt64}
    {place : Nat} (hplace : lines[place]? = some (key, address)) (hlt : place < shown) :
    ∃ last, index.applied[key]? = some last ∧ (key, last) ∈ lines.drop place := by
  have hmem : (key, address) ∈ (lines.take shown).drop place := by
    refine List.mem_of_getElem? (i := 0) ?_
    rw [List.getElem?_drop, List.getElem?_take_of_lt (by omega)]
    exact hplace
  -- the last visible binding of the key is not in front of this one
  obtain ⟨last, hlast⟩ := exists_latest_of_mem hmem
  refine ⟨last, ?_, ?_⟩
  · rw [h.applied_eq, getElem?_ofEntries, ← List.take_append_drop place (lines.take shown),
      latest_append, hlast]
    rfl
  · rw [List.drop_take] at hlast
    exact List.mem_of_mem_take (mem_of_latest hlast)

/-- The same in a row that goes on behind others. -/
theorem exists_applied_behind {base : List (Bytes × UInt64)}
    (h : index.Accounts batch (base ++ lines) shown held) {key : Bytes} {address : UInt64} {place : Nat}
    (hplace : lines[place]? = some (key, address)) (hlt : base.length + place < shown) :
    ∃ last, index.applied[key]? = some last ∧ (key, last) ∈ lines.drop place := by
  have hbehind : (base ++ lines)[base.length + place]? = some (key, address) := by
    rw [List.getElem?_append_right (Nat.le_add_right _ _), Nat.add_sub_cancel_left, hplace]
  obtain ⟨last, happlied, hmem⟩ := h.exists_applied hbehind hlt
  rw [List.drop_append, List.drop_of_length_le (Nat.le_add_right _ _), List.nil_append,
    Nat.add_sub_cancel_left] at hmem
  exact ⟨last, happlied, hmem⟩

end Accounts

end Index

namespace Service

/-! ## The writes in their rows -/

/-- If the write is a value, it is one of the first `cut` bindings in its row, with `base` ones in front of
the first write. -/
def Write.ValueWithin (base cut : Nat) : Write → Prop
  | value _ count => base + count < cut
  | number _ _ => True

/-- If the write is a number, it is one of the first `cut` bindings in its row. -/
def Write.NumberWithin (base cut : Nat) : Write → Prop
  | value _ _ => True
  | number _ count => base + count < cut

theorem Write.ValueWithin.mono {write : Write} {base cut cut' : Nat} (h : write.ValueWithin base cut)
    (hle : cut ≤ cut') : write.ValueWithin base cut' := by
  cases write with
  | value => exact Nat.lt_of_lt_of_le h hle
  | number => trivial

theorem Write.NumberWithin.mono {write : Write} {base cut cut' : Nat} (h : write.NumberWithin base cut)
    (hle : cut ≤ cut') : write.NumberWithin base cut' := by
  cases write with
  | value => trivial
  | number => exact Nat.lt_of_lt_of_le h hle

namespace Driver

/-- The values that the barrier holds. -/
def values : Driver → AddressMap
  | valuesTaken _ values | valuesWaited _ values => values
  | idle | collected _ | valuesShown _ | numbersTaken _ _ | numbersShown _ => ∅

/-- The numbers that the barrier holds. -/
def numbers : Driver → AddressMap
  | numbersTaken _ numbers => numbers
  | idle | collected _ | valuesTaken _ _ | valuesWaited _ _ | valuesShown _ | numbersShown _ => ∅

end Driver

namespace Machine

/-- The bindings of the values. -/
def bindings (machine : Machine) : List (Bytes × UInt64) :=
  machine.values.map fun (address, record) => (record.key, address)

/-- There is such a ticket. -/
def Has (machine : Machine) (ticket : Ticket) : Prop :=
  ticket ∈ machine.pending ∨ ticket ∈ machine.staged ∨ ticket ∈ machine.carried ∨
    ticket ∈ machine.released

/-- The write was carried out. -/
def Made (machine : Machine) : Write → Prop
  | .value key count => ∃ address value, machine.values[count]? = some (address, ⟨key, value⟩)
  | .number key count => ∃ number, machine.numbers[count]? = some (key, number)

/-- The write, or a later one of its key, is visible. -/
def Shows (machine : Machine) : Write → Prop
  | .value key count => ∃ address value, (address, ⟨key, value⟩) ∈ machine.values.drop count ∧
      machine.engine.log.index.applied[key]? = some address
  | .number key count => ∃ number, (key, number) ∈ machine.numbers.drop count ∧
      machine.engine.numbers.applied[key]? = some number

variable {machine machine' : Machine} {event : Event} {write : Write}

/-- Where one more ticket is pending, any other one was there before. -/
theorem Has.old {ticket new : Ticket} (h : machine'.Has ticket)
    (hpending : machine'.pending = machine.pending ++ [new]) (hstaged : machine'.staged = machine.staged)
    (hcarried : machine'.carried = machine.carried) (hreleased : machine'.released = machine.released) :
    machine.Has ticket ∨ ticket = new := by
  simp only [Has, hpending, hstaged, hcarried, hreleased, List.mem_append, List.mem_singleton] at h ⊢
  grind

/-- A write that was made stays one when more are made. -/
theorem Made.mono (h : machine.Made write) (hvalues : machine.values <+: machine'.values)
    (hnumbers : machine.numbers <+: machine'.numbers) : machine'.Made write := by
  cases write with
  | value key count =>
    obtain ⟨address, value, hfound⟩ := h
    exact ⟨address, value, getElem?_of_prefix hvalues hfound⟩
  | number key count =>
    obtain ⟨number, hfound⟩ := h
    exact ⟨number, getElem?_of_prefix hnumbers hfound⟩

/-- A value that was carried out is in its row. -/
theorem Made.valueWithin (h : machine.Made write) (base : List (Bytes × UInt64)) :
    write.ValueWithin base.length (base ++ machine.bindings).length := by
  cases write with
  | value key count =>
    obtain ⟨address, value, hfound⟩ := h
    have hlt := (List.getElem?_eq_some_iff.mp hfound).1
    simp only [Write.ValueWithin, bindings, List.length_append, List.length_map]
    omega
  | number => trivial

/-- A number that was carried out is in its row. -/
theorem Made.numberWithin (h : machine.Made write) (base : List (Bytes × UInt64)) :
    write.NumberWithin base.length (base ++ machine.numbers).length := by
  cases write with
  | value => trivial
  | number key count =>
    obtain ⟨number, hfound⟩ := h
    have hlt := (List.getElem?_eq_some_iff.mp hfound).1
    simp only [Write.NumberWithin, List.length_append]
    omega

/-- How far the writes of the collected acknowledgements have come. They were all staged when the barrier
took what was staged, so it holds them, and then they are visible. -/
def Covers (machine : Machine) (base shown held base' shown' held' : Nat) : Prop :=
  match machine.driver with
  | .idle | .collected _ => shown = held ∧ shown' = held'
  | .valuesTaken _ _ | .valuesWaited _ _ => shown' = held' ∧
      ∀ ticket ∈ machine.carried, ticket.write.ValueWithin base held
  | .valuesShown _ => (shown = held ∧ shown' = held') ∧
      ∀ ticket ∈ machine.carried, ticket.write.ValueWithin base shown
  | .numbersTaken _ _ => shown = held ∧ ∀ ticket ∈ machine.carried,
      ticket.write.ValueWithin base shown ∧ ticket.write.NumberWithin base' held'
  | .numbersShown _ => (shown = held ∧ shown' = held') ∧ ∀ ticket ∈ machine.carried,
      ticket.write.ValueWithin base shown ∧ ticket.write.NumberWithin base' shown'

/-- The writes stand in two rows, behind what there was at the start. The indices show a front of each, and
the writes of the delivered tickets are in these fronts. -/
structure Accounted (base base' : List (Bytes × UInt64)) (shown held shown' held' : Nat)
    (machine : Machine) : Prop where
  values : machine.engine.log.index.Accounts machine.driver.values (base ++ machine.bindings) shown held
  numbers : machine.engine.numbers.Accounts machine.driver.numbers (base' ++ machine.numbers) shown' held'
  made {ticket : Ticket} : machine.Has ticket → machine.Made ticket.write
  covers : machine.Covers base.length shown held base'.length shown' held'
  released {ticket : Ticket} : ticket ∈ machine.released →
    ticket.write.ValueWithin base.length shown ∧ ticket.write.NumberWithin base'.length shown'

namespace Accounted

variable {base base' : List (Bytes × UInt64)} {shown held shown' held' : Nat}

/-- At the start no ticket is there, so the writes are accounted for. -/
theorem start (engine : Engine) (drive : Drive) :
    Accounted (engine.log.index.applied.toList ++ engine.log.index.staged.toList)
      (engine.numbers.applied.toList ++ engine.numbers.staged.toList)
      engine.log.index.applied.toList.length engine.log.index.applied.toList.length
      engine.numbers.applied.toList.length engine.numbers.applied.toList.length
      (Machine.start engine drive) where
  values := by
    rw [bindings, Machine.start, List.map_nil, List.append_nil]
    exact engine.log.index.accounts_start
  numbers := by
    rw [Machine.start, List.append_nil]
    exact engine.numbers.accounts_start
  made hticket := by
    rcases hticket with hticket | hticket | hticket | hticket <;> cases hticket
  covers := ⟨rfl, rfl⟩
  released := nofun

/-- A write in the visible front of its row is visible, or a later one of its key is. -/
theorem shows_of_within (h : Accounted base base' shown held shown' held' machine)
    (hmade : machine.Made write) (hvalue : write.ValueWithin base.length shown)
    (hnumber : write.NumberWithin base'.length shown') : machine.Shows write := by
  cases write with
  | value key count =>
    obtain ⟨address, value, hfound⟩ := hmade
    have hplace : machine.bindings[count]? = some (key, address) := by
      rw [bindings, List.getElem?_map, hfound]
      rfl
    obtain ⟨last, happlied, hmem⟩ := h.values.exists_applied_behind hplace hvalue
    -- the binding that is visible comes from a record
    rw [bindings, ← List.map_drop] at hmem
    obtain ⟨⟨_, record⟩, hmem, heq⟩ := List.mem_map.mp hmem
    cases heq
    exact ⟨_, record.value, hmem, happlied⟩
  | number key count =>
    obtain ⟨number, hfound⟩ := hmade
    obtain ⟨last, happlied, hmem⟩ := h.numbers.exists_applied_behind hfound hnumber
    exact ⟨last, hmem, happlied⟩

/-- A delivered ticket belongs to a visible write. -/
theorem shows (h : Accounted base base' shown held shown' held' machine) {ticket : Ticket}
    (hticket : ticket ∈ machine.released) : machine.Shows ticket.write :=
  h.shows_of_within (h.made (.inr (.inr (.inr hticket)))) (h.released hticket).1
    (h.released hticket).2

/-- Only the indices and the driver say how far the writes have come. -/
theorem congr (h : Accounted base base' shown held shown' held' machine) {engine : Engine}
    {acks : AckQueue} {drive : Drive} {pending staged : List Ticket}
    (hindex : engine.log.index = machine.engine.log.index)
    (hnumbers : engine.numbers = machine.engine.numbers)
    (htickets : ∀ ticket, ticket ∈ pending ∨ ticket ∈ staged →
      ticket ∈ machine.pending ∨ ticket ∈ machine.staged) :
    Accounted base base' shown held shown' held'
      { machine with engine, acks, drive, pending, staged } where
  values := hindex ▸ h.values
  numbers := hnumbers ▸ h.numbers
  made hticket := by
    rcases hticket with hticket | hticket | hticket
    · exact h.made ((htickets _ (.inl hticket)).imp_right .inl)
    · exact h.made ((htickets _ (.inr hticket)).imp_right .inl)
    · exact h.made (.inr (.inr hticket))
  covers := h.covers
  released := h.released

/-- A value takes its place behind the others. -/
theorem put (h : Accounted base base' shown held shown' held' machine) {engine : Engine} {drive : Drive}
    {id : ConnectionId} {response : Response} {key value : Bytes} {address : UInt64}
    (hindex : engine.log.index = (machine.engine.log.stage key address).index)
    (hnumbers : engine.numbers = machine.engine.numbers) :
    Accounted base base' shown held shown' held' { machine with
      engine, drive
      values := machine.values ++ [(address, ⟨key, value⟩)]
      pending := machine.pending ++ [⟨id, response, .value key machine.values.length⟩] } where
  values := by
    have hstaged := h.values.stage key address
    rw [List.append_assoc] at hstaged
    rw [bindings, List.map_append]
    exact hindex ▸ hstaged
  numbers := hnumbers ▸ h.numbers
  made := by
    intro ticket hticket
    rcases hticket.old rfl rfl rfl rfl with hold | rfl
    · exact (h.made hold).mono (List.prefix_append _ _) List.prefix_rfl
    · exact ⟨address, value, List.getElem?_concat_length⟩
  covers := h.covers
  released := h.released

/-- A number takes its place behind the others. -/
theorem putNumber (h : Accounted base base' shown held shown' held' machine) {engine : Engine}
    {drive : Drive} {id : ConnectionId} {response : Response} {key : Bytes} {number : UInt64}
    (hlog : engine.log = machine.engine.log)
    (hnumbers : engine.numbers = { machine.engine.numbers with
      staged := machine.engine.numbers.staged.insert key number }) :
    Accounted base base' shown held shown' held' { machine with
      engine, drive
      numbers := machine.numbers ++ [(key, number)]
      pending := machine.pending ++ [⟨id, response, .number key machine.numbers.length⟩] } where
  values := hlog ▸ h.values
  numbers := by
    have hstaged := h.numbers.stage key number
    rw [List.append_assoc] at hstaged
    exact hnumbers ▸ hstaged
  made := by
    intro ticket hticket
    rcases hticket.old rfl rfl rfl rfl with hold | rfl
    · exact (h.made hold).mono List.prefix_rfl (List.prefix_append _ _)
    · exact ⟨number, List.getElem?_concat_length⟩
  covers := h.covers
  released := h.released

/-- Every step keeps the writes in their rows. -/
theorem step (h : Accounted base base' shown held shown' held' machine)
    (hstep : Step machine event machine') :
    ∃ shown held shown' held', Accounted base base' shown held shown' held' machine' := by
  have hcovers := h.covers
  have hvalues := h.values
  have hnumbers := h.numbers
  unfold Covers at hcovers
  cases hstep with
  | registered | unregistered =>
    refine ⟨_, _, _, _, h.congr rfl rfl fun ticket hticket => ?_⟩
    exact hticket.imp_right fun hstaged => (List.mem_filter.mp hstaged).1
  | received => exact ⟨_, _, _, _, { h with }⟩
  | put hcommand hsmall hrun haddress =>
    rw [hcommand] at hrun
    obtain ⟨hindex, hsame⟩ := Engine.indices_of_put hrun haddress
    exact ⟨_, _, _, _, h.put hindex hsame⟩
  | putNumber hcommand hrun =>
    rw [hcommand] at hrun
    cases hrun
    exact ⟨_, _, _, _, h.putNumber rfl rfl⟩
  | answered hsmall hrun hstaged hanswered =>
    obtain ⟨hindex, hsame⟩ := Engine.indices_of_answered hrun hstaged
    exact ⟨_, _, _, _, h.congr hindex hsame fun _ hticket => hticket⟩
  | stopped hsmall hrun =>
    obtain ⟨hindex, hsame⟩ := Engine.indices_of_answered hrun nofun
    exact ⟨_, _, _, _, h.congr hindex hsame fun _ hticket => hticket⟩
  | @staged front rest ticket hpending =>
    refine ⟨_, _, _, _, h.congr rfl rfl fun other hother => ?_⟩
    rw [hpending]
    split at hother <;> grind
  | collected hphase =>
    rw [hphase] at hcovers hvalues hnumbers
    exact ⟨_, _, _, _, { h with
      values := hvalues
      numbers := hnumbers
      made := fun hticket => h.made (by simp only [Has] at hticket ⊢; grind)
      covers := hcovers }⟩
  | valuesTaken hphase =>
    rw [hphase] at hcovers hvalues hnumbers
    obtain ⟨rfl, hsame⟩ := hcovers
    -- whatever was carried out by now is visible or taken, and so is what the collected tickets stand for
    exact ⟨_, _, _, _, { h with
      values := hvalues.beginSync
      numbers := hnumbers
      covers := ⟨hsame, fun ticket hticket => (h.made (.inr (.inr (.inl hticket)))).valueWithin _⟩ }⟩
  | valuesWaited hphase =>
    rw [hphase] at hcovers hvalues hnumbers
    exact ⟨_, _, _, _, { h with values := hvalues, numbers := hnumbers, covers := hcovers }⟩
  | valuesShown hphase =>
    rw [hphase] at hcovers hvalues hnumbers
    obtain ⟨hsame, hcarried⟩ := hcovers
    -- the visible front grows, so what was delivered stays in it
    exact ⟨_, _, _, _, { h with
      values := hvalues.publish
      numbers := hnumbers
      covers := ⟨⟨rfl, hsame⟩, hcarried⟩
      released := fun hticket => (h.released hticket).imp_left (·.mono hvalues.shown_le) }⟩
  | numbersTaken hphase =>
    rw [hphase] at hcovers hvalues hnumbers
    obtain ⟨⟨hsame, rfl⟩, hcarried⟩ := hcovers
    exact ⟨_, _, _, _, { h with
      values := hvalues
      numbers := hnumbers.beginSync
      covers := ⟨hsame, fun ticket hticket => ⟨hcarried ticket hticket,
        (h.made (.inr (.inr (.inl hticket)))).numberWithin _⟩⟩ }⟩
  | numbersShown hphase =>
    rw [hphase] at hcovers hvalues hnumbers
    obtain ⟨hsame, hcarried⟩ := hcovers
    exact ⟨_, _, _, _, { h with
      values := hvalues
      numbers := hnumbers.publish
      covers := ⟨⟨hsame, rfl⟩, hcarried⟩
      released := fun hticket => (h.released hticket).imp_right (·.mono hnumbers.shown_le) }⟩
  | delivered hphase =>
    rw [hphase] at hcovers hvalues hnumbers
    obtain ⟨hsame, hcarried⟩ := hcovers
    -- of both kinds the writes of the collected tickets are visible by now
    exact ⟨_, _, _, _, { h with
      values := hvalues
      numbers := hnumbers
      made := fun hticket => h.made (by
        simp only [Has, List.mem_append, List.mem_filter] at hticket ⊢
        grind)
      covers := hsame
      released := fun hticket => by
        rcases List.mem_append.mp hticket with hticket | hticket
        · exact h.released hticket
        · exact hcarried _ (List.mem_filter.mp hticket).1 }⟩

end Accounted

end Machine

end Service

end BarrierStore
