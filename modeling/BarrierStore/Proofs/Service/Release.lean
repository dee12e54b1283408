import BarrierStore.Proofs.Service.Steps

/-!
# An acknowledgement is released in its turn

The queue holds the acknowledgements of the staged tickets, and the barrier those of the tickets that it
has collected. So a delivery puts the acknowledgements of collected tickets into the outbound queues, of
all those whose connections are still there, and nothing else.

The module introduces `Machine.Routed`: queue and barrier hold the acknowledgements of their tickets.

Main statements: `Routed.step`, `Routed.waitingFor_deliver`, and for a ticket from its staging to its
delivery `Routed.released`.
-/

namespace BarrierStore

namespace Service

section Responses

variable (id : ConnectionId) (tickets more : List Ticket)

@[simp]
theorem responses_append :
    responses id (tickets ++ more) = responses id tickets ++ responses id more := by
  simp [responses]

/-- A ticket has one acknowledgement, for its connection. -/
theorem responses_singleton (ticket : Ticket) :
    responses id [ticket] = if ticket.id = id then [ticket.response] else [] := by
  by_cases hsame : ticket.id = id <;> simp [responses, hsame]

/-- The tickets that stay have the acknowledgements of the connections that stay. -/
theorem responses_filter (keep : ConnectionId → Bool) :
    responses id (tickets.filter fun ticket => keep ticket.id) =
      if keep id then responses id tickets else [] := by
  rw [responses, List.filter_filter]
  split
  · rename_i hkeep
    have hsame : ∀ ticket ∈ tickets,
        (decide (ticket.id = id) && keep ticket.id) = decide (ticket.id = id) := by
      intro ticket _
      by_cases hid : ticket.id = id <;> simp [hid, hkeep]
    rw [List.filter_congr hsame, responses]
  · rename_i hkeep
    rw [List.map_eq_nil_iff, List.filter_eq_nil_iff]
    intro ticket _ hboth
    simp only [Bool.and_eq_true, decide_eq_true_eq] at hboth
    exact hkeep (hboth.1 ▸ hboth.2)

end Responses

/-- The acknowledgements that the barrier has collected. -/
def Driver.batch : Driver → AckBatch
  | .idle => []
  | .collected batch | .valuesTaken batch _ | .valuesWaited batch _ | .valuesShown batch
  | .numbersTaken batch _ | .numbersShown batch => batch

namespace Machine

/-- The queue holds the acknowledgements of the staged tickets, and the barrier those of the tickets that
it has collected. Whoever is registered has an outbound queue. -/
structure Routed (machine : Machine) : Prop where
  stagedFor_eq (id : ConnectionId) : machine.acks.stagedFor id = responses id machine.staged
  registered {ticket : Ticket} : ticket ∈ machine.staged → machine.acks.isRegistered ticket.id
  isOpen {id : ConnectionId} : machine.acks.isRegistered id → machine.acks.isOpen id
  batch_eq (id : ConnectionId) : machine.driver.batch.acksFor id = responses id machine.carried

variable {machine machine' : Machine} {event : Event} {id : ConnectionId} {allowed : Event → Prop}

/-- At the start there are neither tickets nor acknowledgements. -/
theorem routed_start (engine : Engine) (drive : Drive) : (start engine drive).Routed where
  stagedFor_eq id := AckQueue.stagedFor_empty id
  registered := nofun
  isOpen {id} h := by
    rw [start, AckQueue.isRegistered_empty] at h
    cases h
  batch_eq id := rfl

namespace Routed

/-- What waits in the outbound queues makes no difference. -/
theorem congr (h : machine.Routed) (hqueue : machine'.acks.staged = machine.acks.staged)
    (hopen : ∀ id, machine'.acks.isOpen id = machine.acks.isOpen id)
    (hstaged : machine'.staged = machine.staged)
    (hbatch : ∀ id, machine'.driver.batch.acksFor id = responses id machine'.carried) :
    machine'.Routed where
  stagedFor_eq id := by
    rw [AckQueue.stagedFor, hqueue, hstaged]
    exact h.stagedFor_eq id
  registered hticket := by
    rw [AckQueue.isRegistered, hqueue]
    exact h.registered (hstaged ▸ hticket)
  isOpen hregistered := by
    rw [AckQueue.isRegistered, hqueue] at hregistered
    rw [hopen]
    exact h.isOpen hregistered
  batch_eq := hbatch

/-- Every step keeps the queue and the tickets together. -/
theorem step (h : machine.Routed) (hstep : Step machine event machine') : machine'.Routed := by
  have hbatch := h.batch_eq
  cases hstep with
  -- whatever was staged under an id is dropped when it comes and when it goes
  | registered =>
    exact {
      stagedFor_eq := fun id => by
        rw [AckQueue.stagedFor_register, responses_filter id _ (· ≠ machine.acks.register.1),
          h.stagedFor_eq]
        by_cases hsame : id = machine.acks.register.1
        · simp [hsame]
        · simp [hsame, Ne.symm hsame]
      registered := fun hticket => (machine.acks.isRegistered_register _).mpr
        (.inr (h.registered (List.mem_filter.mp hticket).1))
      isOpen := fun hregistered => (machine.acks.isOpen_register _).mpr
        (((machine.acks.isRegistered_register _).mp hregistered).imp_right h.isOpen)
      batch_eq := hbatch }
  | @unregistered id =>
    exact {
      stagedFor_eq := fun other => by
        rw [AckQueue.stagedFor_unregister, responses_filter other _ (· ≠ id), h.stagedFor_eq]
        by_cases hsame : other = id
        · simp [hsame]
        · simp [hsame, Ne.symm hsame]
      registered := fun hticket => by
        obtain ⟨hmem, hne⟩ := List.mem_filter.mp hticket
        exact (machine.acks.isRegistered_unregister _ _).mpr
          ⟨Ne.symm (of_decide_eq_true hne), h.registered hmem⟩
      isOpen := fun hregistered => h.isOpen ((machine.acks.isRegistered_unregister _ _).mp hregistered).2
      batch_eq := hbatch }
  | put | putNumber | stopped => exact { h with }
  | @answered id request engine outcome drive hsmall hrun hstaged hanswered =>
    obtain ⟨response, hroute⟩ := route_eq ⟨engine, machine.acks⟩ id request.id hstaged
    rw [hroute]
    exact h.congr (AckQueue.staged_send _ _ _) (fun _ => AckQueue.isOpen_send _ _ _ _) rfl hbatch
  | @staged front rest ticket hpending =>
    exact {
      stagedFor_eq := fun id => by
        rw [AckQueue.stagedFor_stage, h.stagedFor_eq]
        by_cases hregistered : machine.acks.isRegistered ticket.id
        · simp [hregistered, responses_singleton]
        · simp [hregistered]
      registered := fun hticket => by
        rw [AckQueue.isRegistered_stage]
        split at hticket
        · rename_i hregistered
          rcases List.mem_append.mp hticket with hticket | hticket
          · exact h.registered hticket
          · exact List.mem_singleton.mp hticket ▸ hregistered
        · exact h.registered hticket
      isOpen := fun hregistered => by
        rw [AckQueue.isRegistered_stage] at hregistered
        exact h.isOpen hregistered
      batch_eq := hbatch }
  | received =>
    exact h.congr (AckQueue.staged_receive _ _) (fun _ => AckQueue.isOpen_receive _ _ _) rfl hbatch
  | collected hphase =>
    exact {
      stagedFor_eq := fun id => AckQueue.stagedFor_collect _ id
      registered := nofun
      isOpen := fun hregistered => by
        rw [AckQueue.isRegistered_collect] at hregistered
        exact h.isOpen hregistered
      batch_eq := fun id => (AckQueue.acksFor_collect _ id).trans (h.stagedFor_eq id) }
  -- the barrier carries its batch from phase to phase
  | valuesTaken hphase | valuesWaited hphase | valuesShown hphase | numbersTaken hphase
  | numbersShown hphase =>
    rw [hphase] at hbatch
    exact h.congr rfl (fun _ => rfl) rfl hbatch
  | delivered hphase =>
    exact h.congr (AckQueue.staged_deliver _ _) (fun _ => AckQueue.isOpen_deliver _ _ _) rfl fun _ => rfl

/-- A delivery puts the acknowledgements of the tickets that it releases into the outbound queues, and
nothing else. -/
theorem waitingFor_deliver (h : machine.Routed) (hstep : Step machine .deliver machine') :
    ∃ tickets, machine'.released = machine.released ++ tickets ∧
      (∀ ticket ∈ machine.carried, machine.acks.isRegistered ticket.id → ticket ∈ tickets) ∧
      tickets ⊆ machine.carried ∧
      ∀ id, machine'.acks.waitingFor id = machine.acks.waitingFor id ++ responses id tickets := by
  have hbatch := h.batch_eq
  cases hstep with
  | delivered hphase =>
    rw [hphase] at hbatch
    refine ⟨_, rfl, fun ticket hticket hregistered => List.mem_filter.mpr ⟨hticket, hregistered⟩,
      fun ticket hticket => (List.mem_filter.mp hticket).1, fun id => ?_⟩
    rw [AckQueue.waitingFor_deliver, responses_filter, ← hbatch]
    -- whoever is registered receives
    by_cases hregistered : machine.acks.isRegistered id
    · rw [if_pos ⟨hregistered, h.isOpen hregistered⟩, if_pos hregistered]
      rfl
    · rw [if_neg fun hboth => hregistered hboth.1, if_neg hregistered]

end Routed

/-! ## From the collection to the delivery -/

/-- A connection stays registered through a step that does not remove it. -/
theorem isRegistered_step (hstep : Step machine event machine') (hkeeps : event.Keeps id)
    (h : machine.acks.isRegistered id) : machine'.acks.isRegistered id := by
  -- the staged lists tell who is registered, and only an unregistration takes one of them away
  cases hstep with
  | registered => exact (machine.acks.isRegistered_register _).mpr (.inr h)
  | unregistered => exact (machine.acks.isRegistered_unregister _ _).mpr ⟨hkeeps, h⟩
  | put | putNumber | stopped => exact h
  | @answered _ request engine outcome drive hsmall hrun hstaged hanswered =>
    obtain ⟨response, hroute⟩ := route_eq ⟨engine, machine.acks⟩ _ request.id hstaged
    rw [hroute, AckQueue.isRegistered, send, AckQueue.staged_send]
    exact h
  | staged => exact (AckQueue.isRegistered_stage _ _ _ _).trans h
  | received =>
    rw [AckQueue.isRegistered, AckQueue.staged_receive]
    exact h
  | collected => exact (AckQueue.isRegistered_collect _ _).trans h
  | valuesTaken | valuesWaited | valuesShown | numbersTaken | numbersShown => exact h
  | delivered =>
    rw [AckQueue.isRegistered, AckQueue.staged_deliver]
    exact h

/-- A staged ticket stays where it is until the next collection. -/
theorem mem_staged_step {ticket : Ticket} (hstep : Step machine event machine')
    (hcollect : event ≠ .collect) (hkeeps : event.Keeps ticket.id) (h : ticket ∈ machine.staged) :
    ticket ∈ machine'.staged := by
  cases hstep with
  | registered | unregistered =>
    exact List.mem_filter.mpr ⟨h, decide_eq_true (Ne.symm hkeeps)⟩
  | staged =>
    dsimp only
    split
    · exact List.mem_append_left _ h
    · exact h
  | collected => exact absurd rfl hcollect
  | _ => exact h

/-- A collected ticket stays where it is until the delivery, and so does its connection. -/
theorem mem_carried_step {ticket : Ticket} (hstep : Step machine event machine')
    (hdeliver : event ≠ .deliver) (h : ticket ∈ machine.carried ∧ machine.driver ≠ .idle) :
    ticket ∈ machine'.carried ∧ machine'.driver ≠ .idle := by
  cases hstep with
  | collected hphase => exact absurd hphase h.2
  | delivered => exact absurd rfl hdeliver
  | valuesTaken | valuesWaited | valuesShown | numbersTaken | numbersShown => exact ⟨h.1, nofun⟩
  | _ => exact h

/-- A staged ticket whose connection stays is released by the first barrier that collects behind its
staging. -/
theorem Routed.released (h : machine.Routed) {waited collected synced delivered : Machine}
    {ticket : Ticket} (hstaged : ticket ∈ machine.staged)
    (hwait : Runs (fun event => event ≠ .collect ∧ event.Keeps ticket.id) machine waited)
    (hcollect : Step waited .collect collected)
    (hsync : Runs (fun event => event ≠ .deliver ∧ event.Keeps ticket.id) collected synced)
    (hdeliver : Step synced .deliver delivered) :
    ∃ tickets, delivered.released = synced.released ++ tickets ∧ ticket ∈ tickets := by
  -- it is staged until the barrier begins
  have hwaited : ticket ∈ waited.staged ∧ waited.acks.isRegistered ticket.id ∧ waited.Routed := by
    refine hwait.keep (P := fun machine => ticket ∈ machine.staged ∧
      machine.acks.isRegistered ticket.id ∧ machine.Routed) ⟨hstaged, h.registered hstaged, h⟩ ?_
    intro _ _ _ hevent hstep hbefore
    exact ⟨mem_staged_step hstep hevent.1 hevent.2 hbefore.1,
      isRegistered_step hstep hevent.2 hbefore.2.1, hbefore.2.2.step hstep⟩
  obtain ⟨hmem, hregistered, hrouted⟩ := hwaited
  have hbegun : (ticket ∈ collected.carried ∧ collected.driver ≠ .idle) ∧
      collected.acks.isRegistered ticket.id ∧ collected.Routed := by
    refine ⟨?_, isRegistered_step hcollect trivial hregistered, hrouted.step hcollect⟩
    cases hcollect
    exact ⟨hmem, nofun⟩
  -- and collected until it delivers
  have hsynced : (ticket ∈ synced.carried ∧ synced.driver ≠ .idle) ∧
      synced.acks.isRegistered ticket.id ∧ synced.Routed := by
    refine hsync.keep (P := fun machine => (ticket ∈ machine.carried ∧ machine.driver ≠ .idle) ∧
      machine.acks.isRegistered ticket.id ∧ machine.Routed) hbegun ?_
    intro _ _ _ hevent hstep hbefore
    exact ⟨mem_carried_step hstep hevent.1 hbefore.1, isRegistered_step hstep hevent.2 hbefore.2.1,
      hbefore.2.2.step hstep⟩
  obtain ⟨⟨hcarried, -⟩, hregistered, hrouted⟩ := hsynced
  obtain ⟨tickets, hreleased, hall, -⟩ := hrouted.waitingFor_deliver hdeliver
  exact ⟨tickets, hreleased, hall ticket hcarried hregistered⟩

end Machine

end Service

end BarrierStore
