import BarrierStore.Proofs.Service.Queue
import Mathlib.Data.List.Flatten
import Mathlib.Data.List.Induction
import Mathlib.Data.List.Sort

/-!
# No acknowledgement is lost, doubled or misrouted

A queue is in use by connections that come and go, stage acknowledgements, and close the receiving ends of
their outbound queues, while batches are collected and delivered. A batch may be delivered long after it
was collected, and any number of batches may be on their way at the same time. Beside the queue stands what
became of each acknowledgement.

The module introduces:

* `AckQueue.Operation` — what is done with a queue;
* `Traffic`, `Traffic.run` — a queue in use, with the ids that it has issued, the batches that were
  collected and delivered, and what each connection has staged and taken;
* `Traffic.arrived` — what has ever been put into the outbound queue of a connection;
* `Traffic.Sound` — queue and record agree;
* `Traffic.Conserves` — what becomes of the acknowledgements, whatever is done.

Main statements: `Sound.step`, `Sound.run` and `conserves_run`.
-/

namespace BarrierStore

/-- What is done with a queue. A batch is delivered by its number among all batches collected so far. -/
inductive AckQueue.Operation where
  | register
  | unregister (id : ConnectionId)
  | stage (id : ConnectionId) (response : Response)
  | collect
  | deliver (number : Nat)
  | receive (id : ConnectionId)
  | closeReceiver (id : ConnectionId)

/-- A queue in use. -/
structure Traffic where
  queue : AckQueue
  /-- The id of each registration, in order. -/
  issued : List ConnectionId
  /-- The connections that have come and not gone. -/
  registered : List ConnectionId
  /-- The connections whose outbound queue nobody receives from any more. -/
  closed : List ConnectionId
  /-- Every batch that was collected, in order. -/
  collected : List AckBatch
  /-- The numbers of the batches that were delivered, in the order of their deliveries. -/
  delivered : List Nat
  /-- What was staged for a connection while it was registered, oldest first. -/
  accepted : ConnectionId → List Response
  /-- What has left the outbound queue of a connection: what was received, and what was lost when its
  receiver was closed. -/
  taken : ConnectionId → List Response

namespace Traffic

open AckQueue (Operation)

/-- A new queue. -/
def empty : Traffic where
  queue := .empty
  issued := []
  registered := []
  closed := []
  collected := []
  delivered := []
  accepted _ := []
  taken _ := []

/-- The batch with a number. -/
def batch (traffic : Traffic) (number : Nat) : AckBatch :=
  traffic.collected[number]?.getD []

/-- A batch is delivered once. -/
def Deliverable (traffic : Traffic) (number : Nat) : Prop :=
  number < traffic.collected.length ∧ number ∉ traffic.delivered

instance (traffic : Traffic) (number : Nat) : Decidable (traffic.Deliverable number) :=
  inferInstanceAs (Decidable (_ ∧ _))

/-- Do something with the queue, and record it. -/
def step (traffic : Traffic) : Operation → Traffic
  | .register =>
    { traffic with
      queue := traffic.queue.register.2
      issued := traffic.issued ++ [traffic.queue.register.1]
      registered := traffic.registered ++ [traffic.queue.register.1] }
  | .unregister id =>
    { traffic with
      queue := traffic.queue.unregister id
      registered := traffic.registered.filter (· ≠ id) }
  | .stage id response =>
    { traffic with
      queue := traffic.queue.stage id response
      accepted := fun other => traffic.accepted other ++
        if id = other ∧ id ∈ traffic.registered then [response] else [] }
  | .collect =>
    { traffic with
      queue := traffic.queue.collect.2
      collected := traffic.collected ++ [traffic.queue.collect.1] }
  | .deliver number =>
    if traffic.Deliverable number then
      { traffic with
        queue := (traffic.queue.deliver (traffic.batch number)).2
        delivered := traffic.delivered ++ [number] }
    else traffic
  | .receive id =>
    { traffic with
      queue := (traffic.queue.receive id).2
      taken := fun other =>
        traffic.taken other ++ if id = other then (traffic.queue.receive id).1.getD [] else [] }
  | .closeReceiver id =>
    { traffic with
      queue := traffic.queue.closeReceiver id
      closed := if id ∈ traffic.issued then id :: traffic.closed else traffic.closed
      taken := fun other =>
        traffic.taken other ++ if id = other then traffic.queue.waitingFor id else [] }

/-- Use a new queue. -/
def run (operations : List Operation) : Traffic :=
  operations.foldl step empty

variable (traffic : Traffic) (id : ConnectionId)

/-- What has ever been put into the outbound queue of a connection, oldest first. -/
def arrived : List Response :=
  traffic.taken id ++ traffic.queue.waitingFor id

/-- What the batches with these numbers have for a connection. -/
def acksOf (numbers : List Nat) : List Response :=
  numbers.flatMap fun number => (traffic.batch number).acksFor id

/-- The numbers of the batches that were collected and not delivered. -/
def outstanding : List Nat :=
  (List.range traffic.collected.length).filter (· ∉ traffic.delivered)

/-- Queue and record agree. -/
structure Sound (traffic : Traffic) : Prop where
  nextId_eq : traffic.queue.nextId = UInt64.ofNat (traffic.issued.length + 1)
  issued_eq : traffic.issued = (List.range traffic.issued.length).map fun n => UInt64.ofNat (n + 1)
  isRegistered_iff (id : ConnectionId) : traffic.queue.isRegistered id ↔ id ∈ traffic.registered
  registered_nodup : traffic.registered.Nodup
  registered_subset : traffic.registered ⊆ traffic.issued
  closed_subset : traffic.closed ⊆ traffic.issued
  isOpen_iff (id : ConnectionId) :
    traffic.queue.isOpen id ↔ id ∈ traffic.issued ∧ id ∉ traffic.closed
  /-- What was accepted was collected, is staged, or was dropped when its connection went. -/
  accepted_prefix (id : ConnectionId) :
    traffic.acksOf id (List.range traffic.collected.length) <+: traffic.accepted id
  accepted_eq {id : ConnectionId} : id ∈ traffic.registered → traffic.accepted id =
    traffic.acksOf id (List.range traffic.collected.length) ++ traffic.queue.stagedFor id
  accepted_eq_nil {id : ConnectionId} : id ∉ traffic.issued → traffic.accepted id = []
  /-- What was delivered has arrived, up to the end of the connection or of its receiver. -/
  arrived_prefix (id : ConnectionId) : traffic.arrived id <+: traffic.acksOf id traffic.delivered
  arrived_eq {id : ConnectionId} : id ∈ traffic.registered → id ∉ traffic.closed →
    traffic.arrived id = traffic.acksOf id traffic.delivered
  delivered_nodup : traffic.delivered.Nodup
  delivered_lt {number : Nat} : number ∈ traffic.delivered → number < traffic.collected.length

section Lists

variable (numbers more : List Nat)

/-- The acknowledgements of two rows of batches are those of the one and then those of the other. -/
theorem acksOf_append :
    traffic.acksOf id (numbers ++ more) = traffic.acksOf id numbers ++ traffic.acksOf id more :=
  List.flatMap_append

/-- One batch has its own acknowledgements. -/
theorem acksOf_singleton (number : Nat) :
    traffic.acksOf id [number] = (traffic.batch number).acksFor id :=
  List.flatMap_singleton ..

end Lists

/-- The ids that are counted from 1 are all different, as long as there are as many words. -/
theorem nodup_ids {count : Nat} (hcount : count ≤ UInt64.size) :
    ((List.range count).map fun n => UInt64.ofNat (n + 1)).Nodup := by
  refine List.nodup_range.map_on fun m hm n hn hsame => ?_
  rw [List.mem_range] at hm hn
  have hwords := congrArg UInt64.toNat hsame
  rw [UInt64.toNat_ofNat', UInt64.toNat_ofNat'] at hwords
  rw [UInt64.size] at hcount
  omega

/-! ## What has arrived -/

section Arrived

variable (other : ConnectionId)

/-- For other connections nothing arrives when one is registered. -/
theorem arrived_register (hne : traffic.queue.register.1 ≠ id) :
    (traffic.step .register).arrived id = traffic.arrived id := by
  show traffic.taken id ++ traffic.queue.register.2.waitingFor id = _
  rw [AckQueue.waitingFor_register, if_neg hne, arrived]

/-- A batch that is delivered arrives, if the connection is registered and its queue is open. -/
theorem arrived_deliver {number : Nat} (h : traffic.Deliverable number) :
    (traffic.step (.deliver number)).arrived id = traffic.arrived id ++
      if traffic.queue.isRegistered id ∧ traffic.queue.isOpen id then
        (traffic.batch number).acksFor id else [] := by
  rw [step, if_pos h, arrived, AckQueue.waitingFor_deliver, ← List.append_assoc, arrived]

/-- What is received has arrived before. -/
theorem arrived_receive : (traffic.step (.receive id)).arrived other = traffic.arrived other := by
  show (traffic.taken other ++ _) ++ (traffic.queue.receive id).2.waitingFor other = _
  rw [AckQueue.waitingFor_receive, AckQueue.receive_fst, arrived, List.append_assoc]
  by_cases hsame : id = other
  · subst hsame
    by_cases hopen : traffic.queue.isOpen id <;> simp [hopen]
  · simp [hsame]

/-- What is lost with its receiver has arrived before. -/
theorem arrived_closeReceiver :
    (traffic.step (.closeReceiver id)).arrived other = traffic.arrived other := by
  show (traffic.taken other ++ _) ++ (traffic.queue.closeReceiver id).waitingFor other = _
  rw [AckQueue.waitingFor_closeReceiver, arrived, List.append_assoc]
  by_cases hsame : id = other
  · subst hsame
    simp
  · simp [hsame]

end Arrived

namespace Sound

/-- Without any operation all is sound. -/
theorem empty : Traffic.empty.Sound where
  nextId_eq := rfl
  issued_eq := rfl
  isRegistered_iff id := by simp [Traffic.empty, AckQueue.isRegistered_empty]
  registered_nodup := List.nodup_nil
  registered_subset := List.Subset.refl _
  closed_subset := List.Subset.refl _
  isOpen_iff id := by simp [Traffic.empty, AckQueue.isOpen_empty]
  accepted_prefix id := List.prefix_rfl
  accepted_eq := nofun
  accepted_eq_nil _ := rfl
  arrived_prefix id := by
    rw [arrived, Traffic.empty, AckQueue.waitingFor_empty]
    exact List.prefix_rfl
  arrived_eq := nofun
  delivered_nodup := List.nodup_nil
  delivered_lt := nofun

variable {traffic : Traffic} {id : ConnectionId} (h : traffic.Sound)
include h

/-! ## What a record tells -/

/-- No id comes twice. -/
theorem issued_nodup (hcount : traffic.issued.length ≤ UInt64.size) : traffic.issued.Nodup := by
  rw [h.issued_eq]
  exact nodup_ids hcount

/-- Ids are counted on. -/
theorem issued_succ : traffic.issued ++ [traffic.queue.register.1] =
    (List.range (traffic.issued.length + 1)).map fun n => UInt64.ofNat (n + 1) := by
  rw [List.range_succ, List.map_append, ← h.issued_eq, AckQueue.register, h.nextId_eq]
  rfl

/-- A new id is none of the earlier ones. -/
theorem register_notMem (hcount : traffic.issued.length < UInt64.size) :
    traffic.queue.register.1 ∉ traffic.issued := by
  have hnodup := nodup_ids (Nat.succ_le_of_lt hcount)
  rw [← h.issued_succ] at hnodup
  exact fun hmem => (List.nodup_append.mp hnodup).2.2 _ hmem _ (List.mem_singleton_self _) rfl

/-- What was delivered was collected before. -/
theorem delivered_subset : traffic.delivered ⊆ List.range traffic.collected.length :=
  fun _ hmem => List.mem_range.mpr (h.delivered_lt hmem)

/-- For a connection that never was, nothing was collected. -/
theorem acksOf_eq_nil (hnew : id ∉ traffic.issued) {numbers : List Nat}
    (hnumbers : numbers ⊆ List.range traffic.collected.length) : traffic.acksOf id numbers = [] := by
  have hcollected : traffic.acksOf id (List.range traffic.collected.length) = [] :=
    List.prefix_nil.mp (h.accepted_eq_nil hnew ▸ h.accepted_prefix id)
  rw [acksOf, List.flatMap_eq_nil_iff] at hcollected ⊢
  exact fun number hmem => hcollected number (hnumbers hmem)

/-- To a connection that never was, nothing has come. -/
theorem arrived_eq_nil (hnew : id ∉ traffic.issued) : traffic.arrived id = [] :=
  List.prefix_nil.mp (h.acksOf_eq_nil hnew h.delivered_subset ▸ h.arrived_prefix id)

/-! ## One operation -/

/-- A registration keeps the traffic sound. -/
theorem register (hcount : traffic.issued.length < UInt64.size) : (traffic.step .register).Sound := by
  have hnew := h.register_notMem hcount
  have hother {id : ConnectionId} (hmem : id ∈ traffic.issued) : traffic.queue.register.1 ≠ id :=
    fun hsame => hnew (hsame ▸ hmem)
  -- a new outbound queue is empty, and nothing has come to it
  have harrived (id : ConnectionId) : (traffic.step .register).arrived id = traffic.arrived id := by
    by_cases hsame : traffic.queue.register.1 = id
    · subst hsame
      have hnone := h.arrived_eq_nil hnew
      rw [arrived, List.append_eq_nil_iff] at hnone
      show traffic.taken _ ++ traffic.queue.register.2.waitingFor _ = traffic.taken _ ++ _
      rw [AckQueue.waitingFor_register, if_pos rfl, hnone.2]
    · exact arrived_register _ _ hsame
  exact {
    nextId_eq := by
      show traffic.queue.nextId + 1 = UInt64.ofNat ((traffic.issued ++ [_]).length + 1)
      rw [h.nextId_eq, List.length_append, List.length_singleton,
        UInt64.ofNat_add (traffic.issued.length + 1) 1]
      rfl
    issued_eq := by
      show traffic.issued ++ [traffic.queue.register.1] = _
      rw [h.issued_succ]
      show _ = (List.range (traffic.issued ++ [_]).length).map _
      rw [List.length_append, List.length_singleton]
    isRegistered_iff := fun id => by
      show traffic.queue.register.2.isRegistered id ↔ id ∈ traffic.registered ++ [_]
      rw [AckQueue.isRegistered_register, h.isRegistered_iff, List.mem_append, List.mem_singleton,
        or_comm, eq_comm]
    registered_nodup := by
      refine List.nodup_append.mpr ⟨h.registered_nodup, List.nodup_singleton _, ?_⟩
      intro id hmem new hsame
      rw [List.mem_singleton] at hsame
      exact hsame ▸ (hother (h.registered_subset hmem)).symm
    registered_subset := List.append_subset.mpr
      ⟨List.subset_append_of_subset_left _ h.registered_subset, List.subset_append_right _ _⟩
    closed_subset := List.subset_append_of_subset_left _ h.closed_subset
    isOpen_iff := fun id => by
      show traffic.queue.register.2.isOpen id ↔ id ∈ traffic.issued ++ [_] ∧ id ∉ traffic.closed
      rw [AckQueue.isOpen_register, h.isOpen_iff, List.mem_append, List.mem_singleton]
      have hopen : traffic.queue.register.1 ∉ traffic.closed := fun hmem => hnew (h.closed_subset hmem)
      grind
    accepted_prefix := h.accepted_prefix
    accepted_eq := fun {id} hmem => by
      show traffic.accepted id = traffic.acksOf id _ ++ traffic.queue.register.2.stagedFor id
      rw [AckQueue.stagedFor_register]
      rcases List.mem_append.mp hmem with hmem | hmem
      · rw [if_neg (hother (h.registered_subset hmem))]
        exact h.accepted_eq hmem
      · obtain rfl := List.mem_singleton.mp hmem
        rw [if_pos rfl, h.accepted_eq_nil hnew, List.append_nil]
        exact (h.acksOf_eq_nil hnew (List.Subset.refl _)).symm
    accepted_eq_nil := fun {id} hmem => h.accepted_eq_nil fun hold =>
      hmem (List.mem_append_left _ hold)
    arrived_prefix := fun id => (harrived id).symm ▸ h.arrived_prefix id
    arrived_eq := fun {id} hmem hopen => by
      rw [harrived]
      rcases List.mem_append.mp hmem with hmem | hmem
      · exact h.arrived_eq hmem hopen
      · obtain rfl := List.mem_singleton.mp hmem
        rw [h.arrived_eq_nil hnew]
        exact (h.acksOf_eq_nil hnew h.delivered_subset).symm
    delivered_nodup := h.delivered_nodup
    delivered_lt := h.delivered_lt }

/-- So does a connection that goes. -/
theorem unregister : (traffic.step (.unregister id)).Sound := by
  exact {
    h with
    isRegistered_iff := fun other => by
      show (traffic.queue.unregister id).isRegistered other ↔ _
      rw [AckQueue.isRegistered_unregister, h.isRegistered_iff]
      show _ ↔ other ∈ traffic.registered.filter (· ≠ id)
      rw [List.mem_filter, decide_eq_true_iff, and_comm, ne_comm]
    registered_nodup := h.registered_nodup.filter _
    registered_subset := fun _ hmem => h.registered_subset (List.mem_filter.mp hmem).1
    accepted_eq := fun {other} hmem => by
      obtain ⟨hmem, hne⟩ := List.mem_filter.mp hmem
      show traffic.accepted other = _ ++ (traffic.queue.unregister id).stagedFor other
      rw [AckQueue.stagedFor_unregister, if_neg (Ne.symm (of_decide_eq_true hne))]
      exact h.accepted_eq hmem
    arrived_eq := fun hmem => h.arrived_eq (List.mem_filter.mp hmem).1 }

/-- So does an acknowledgement that is staged. -/
theorem stage (response : Response) : (traffic.step (.stage id response)).Sound := by
  exact {
    h with
    isRegistered_iff := fun other =>
      (AckQueue.isRegistered_stage _ _ _ _ ▸ h.isRegistered_iff other :)
    accepted_prefix := fun other => (h.accepted_prefix other).trans (List.prefix_append _ _)
    accepted_eq := fun {other} hmem => by
      show traffic.accepted other ++ _ = _ ++ (traffic.queue.stage id response).stagedFor other
      rw [AckQueue.stagedFor_stage, ← List.append_assoc, h.accepted_eq hmem]
      simp only [h.isRegistered_iff]
      rfl
    accepted_eq_nil := fun {other} hnew => by
      show traffic.accepted other ++ _ = []
      rw [h.accepted_eq_nil hnew, if_neg]
      · rfl
      · exact fun hboth => hnew (hboth.1 ▸ h.registered_subset hboth.2) }

/-- So does a batch that is collected. -/
theorem collect : (traffic.step .collect).Sound := by
  -- the new batch stands behind the others, and has what was staged
  have hbatch {number : Nat} (hlt : number < traffic.collected.length) :
      (traffic.step .collect).batch number = traffic.batch number := by
    show (traffic.collected ++ [_])[number]?.getD [] = _
    rw [List.getElem?_append_left hlt, batch]
  have hacks (id : ConnectionId) {numbers : List Nat}
      (hnumbers : numbers ⊆ List.range traffic.collected.length) :
      (traffic.step .collect).acksOf id numbers = traffic.acksOf id numbers :=
    List.flatMap_congr fun number hmem => by rw [hbatch (List.mem_range.mp (hnumbers hmem))]
  have hall (id : ConnectionId) :
      (traffic.step .collect).acksOf id (List.range (traffic.step .collect).collected.length) =
        traffic.acksOf id (List.range traffic.collected.length) ++ traffic.queue.stagedFor id := by
    show (traffic.step .collect).acksOf id (List.range (traffic.collected ++ [_]).length) = _
    rw [List.length_append, List.length_singleton, List.range_succ, acksOf_append,
      hacks id (List.Subset.refl _), acksOf_singleton]
    show _ ++ AckBatch.acksFor ((traffic.collected ++ [_])[_]?.getD []) id = _
    rw [List.getElem?_concat_length, Option.getD_some, AckQueue.acksFor_collect]
  exact {
    h with
    isRegistered_iff := fun id => (AckQueue.isRegistered_collect _ _ ▸ h.isRegistered_iff id :)
    accepted_prefix := fun id => by
      rw [hall]
      by_cases hmem : id ∈ traffic.registered
      · exact (h.accepted_eq hmem) ▸ List.prefix_rfl
      · rw [AckQueue.stagedFor_eq_nil _ _ (mt (h.isRegistered_iff id).mp hmem), List.append_nil]
        exact h.accepted_prefix id
    accepted_eq := fun {id} hmem => by
      rw [hall]
      show traffic.accepted id = _ ++ traffic.queue.collect.2.stagedFor id
      rw [AckQueue.stagedFor_collect, List.append_nil]
      exact h.accepted_eq hmem
    arrived_prefix := fun id => (hacks id h.delivered_subset).symm ▸ h.arrived_prefix id
    arrived_eq := fun {id} hmem hopen =>
      (h.arrived_eq hmem hopen).trans (hacks id h.delivered_subset).symm
    delivered_lt := fun hmem => by
      show _ < (traffic.collected ++ [_]).length
      rw [List.length_append]
      exact Nat.lt_add_right _ (h.delivered_lt hmem) }

/-- So does a batch that is delivered, whichever it is. -/
theorem deliver (number : Nat) : (traffic.step (.deliver number)).Sound := by
  by_cases hdeliver : traffic.Deliverable number
  swap
  · rw [step, if_neg hdeliver]
    exact h
  have harrived (id : ConnectionId) := arrived_deliver traffic id hdeliver
  have hacks (id : ConnectionId) : traffic.acksOf id (traffic.delivered ++ [number]) =
      traffic.acksOf id traffic.delivered ++ (traffic.batch number).acksFor id := by
    rw [acksOf_append, acksOf_singleton]
  rw [step, if_pos hdeliver] at harrived ⊢
  exact {
    h with
    nextId_eq := (AckQueue.nextId_deliver _ _).trans h.nextId_eq
    isRegistered_iff := fun id => by
      show (traffic.queue.deliver _).2.isRegistered id ↔ _
      rw [AckQueue.isRegistered_deliver]
      exact h.isRegistered_iff id
    isOpen_iff := fun id => (AckQueue.isOpen_deliver _ _ _ ▸ h.isOpen_iff id :)
    accepted_eq := fun {id} hmem => by
      show _ = _ ++ (traffic.queue.deliver _).2.stagedFor id
      rw [AckQueue.stagedFor_deliver]
      exact h.accepted_eq hmem
    arrived_prefix := fun id => by
      show _ <+: traffic.acksOf id (traffic.delivered ++ [number])
      rw [harrived, hacks]
      split
      · -- whoever is registered and receives has missed nothing
        rename_i hboth
        obtain ⟨hregistered, hopen⟩ := hboth
        have hall := h.arrived_eq ((h.isRegistered_iff id).mp hregistered) ((h.isOpen_iff id).mp hopen).2
        exact hall ▸ List.prefix_rfl
      · rw [List.append_nil]
        exact (h.arrived_prefix id).trans (List.prefix_append _ _)
    arrived_eq := fun {id} hmem hopen => by
      show _ = traffic.acksOf id (traffic.delivered ++ [number])
      rw [harrived, hacks, h.arrived_eq hmem hopen, if_pos]
      exact ⟨(h.isRegistered_iff id).mpr hmem,
        (h.isOpen_iff id).mpr ⟨h.registered_subset hmem, hopen⟩⟩
    delivered_nodup := by
      refine List.nodup_append.mpr ⟨h.delivered_nodup, List.nodup_singleton _, ?_⟩
      intro earlier hmem new hnew hsame
      rw [List.mem_singleton] at hnew
      exact hdeliver.2 (hnew ▸ hsame ▸ hmem)
    delivered_lt := fun hmem => by
      rcases List.mem_append.mp hmem with hmem | hmem
      · exact h.delivered_lt hmem
      · exact List.mem_singleton.mp hmem ▸ hdeliver.1 }

/-- So does what a client receives. -/
theorem receive : (traffic.step (.receive id)).Sound := by
  exact {
    h with
    isRegistered_iff := fun other => by
      show (traffic.queue.receive id).2.isRegistered other ↔ _
      rw [AckQueue.isRegistered_receive]
      exact h.isRegistered_iff other
    isOpen_iff := fun other => (AckQueue.isOpen_receive _ _ _ ▸ h.isOpen_iff other :)
    accepted_eq := fun {other} hmem => by
      show _ = _ ++ (traffic.queue.receive id).2.stagedFor other
      rw [AckQueue.stagedFor_receive]
      exact h.accepted_eq hmem
    nextId_eq := (AckQueue.nextId_receive _ _).trans h.nextId_eq
    arrived_prefix := fun other => arrived_receive traffic id other ▸ h.arrived_prefix other
    arrived_eq := fun {other} hmem hopen =>
      (arrived_receive traffic id other).trans (h.arrived_eq hmem hopen) }

/-- So does a client that receives no longer. -/
theorem closeReceiver : (traffic.step (.closeReceiver id)).Sound := by
  -- an id that was not issued is not closed
  have hclosed (other : ConnectionId) : other ∈ (traffic.step (.closeReceiver id)).closed ↔
      (other = id ∧ id ∈ traffic.issued) ∨ other ∈ traffic.closed := by
    show other ∈ (if id ∈ traffic.issued then id :: traffic.closed else traffic.closed) ↔ _
    split
    · rename_i hmem
      rw [List.mem_cons, and_iff_left hmem]
    · rename_i hmem
      rw [or_iff_right fun hboth => hmem hboth.2]
  exact {
    h with
    closed_subset := fun other hmem => by
      rcases (hclosed other).mp hmem with ⟨rfl, hissued⟩ | hmem
      · exact hissued
      · exact h.closed_subset hmem
    isOpen_iff := fun other => by
      rw [hclosed]
      show (traffic.queue.closeReceiver id).isOpen other ↔ other ∈ traffic.issued ∧ _
      rw [AckQueue.isOpen_closeReceiver, h.isOpen_iff]
      grind
    arrived_prefix := fun other => arrived_closeReceiver traffic id other ▸ h.arrived_prefix other
    arrived_eq := fun {other} hmem hopen => (arrived_closeReceiver traffic id other).trans
      (h.arrived_eq hmem fun hold => hopen ((hclosed other).mpr (.inr hold))) }

/-- Queue and record agree after any operation, as long as there are ids left. -/
theorem step (operation : Operation)
    (hcount : (traffic.step operation).issued.length ≤ UInt64.size) :
    (traffic.step operation).Sound := by
  cases operation with
  | register =>
    have hlonger : (traffic.step .register).issued.length = traffic.issued.length + 1 :=
      List.length_append
    exact h.register (by omega)
  | unregister id => exact h.unregister
  | stage id response => exact h.stage response
  | collect => exact h.collect
  | deliver number => exact h.deliver number
  | receive id => exact h.receive
  | closeReceiver id => exact h.closeReceiver

/-- To a connection that has gone, nothing comes any more. -/
theorem arrived_step_of_gone (hissued : id ∈ traffic.issued) (hgone : id ∉ traffic.registered)
    (operation : Operation) (hcount : (traffic.step operation).issued.length ≤ UInt64.size) :
    (traffic.step operation).arrived id = traffic.arrived id ∧
      id ∈ (traffic.step operation).issued ∧ id ∉ (traffic.step operation).registered := by
  cases operation with
  | register =>
    have hlonger : (traffic.step .register).issued.length = traffic.issued.length + 1 :=
      List.length_append
    -- ids are not issued twice, so the new connection is another one
    have hnew := h.register_notMem (by omega)
    have hne : traffic.queue.register.1 ≠ id := fun hsame => hnew (hsame ▸ hissued)
    refine ⟨arrived_register _ _ hne, List.mem_append_left _ hissued, fun hmem => ?_⟩
    rcases List.mem_append.mp hmem with hmem | hmem
    · exact hgone hmem
    · exact hne (List.mem_singleton.mp hmem).symm
  | unregister other => exact ⟨rfl, hissued, fun hmem => hgone (List.mem_filter.mp hmem).1⟩
  | stage | collect => exact ⟨rfl, hissued, hgone⟩
  | deliver number =>
    by_cases hdeliver : traffic.Deliverable number
    · -- it is not registered any more, so the ticket is dropped
      have harrived := arrived_deliver traffic id hdeliver
      rw [if_neg fun hboth => hgone ((h.isRegistered_iff id).mp hboth.1), List.append_nil] at harrived
      rw [harrived, Traffic.step, if_pos hdeliver]
      exact ⟨rfl, hissued, hgone⟩
    · rw [Traffic.step, if_neg hdeliver]
      exact ⟨rfl, hissued, hgone⟩
  | receive other => exact ⟨arrived_receive _ _ _, hissued, hgone⟩
  | closeReceiver other => exact ⟨arrived_closeReceiver _ _ _, hissued, hgone⟩

end Sound

/-! ## Any number of operations -/

section Run

variable (operations earlier later : List Operation)

/-- Later operations go on from what the earlier ones lead to. -/
theorem run_append : run (earlier ++ later) = later.foldl step (run earlier) :=
  List.foldl_append

theorem run_concat (operation : Operation) :
    run (operations ++ [operation]) = (run operations).step operation :=
  run_append ..

/-- No operation takes an id back. -/
theorem issued_prefix_step (operation : Operation) :
    traffic.issued <+: (traffic.step operation).issued := by
  cases operation with
  | register => exact List.prefix_append _ _
  | deliver =>
    rw [step]
    split <;> exact List.prefix_rfl
  | _ => exact List.prefix_rfl

/-- No id is taken back. -/
theorem issued_prefix_run : (run earlier).issued <+: (run (earlier ++ later)).issued := by
  rw [run_append]
  exact List.foldlRecOn (motive := fun traffic => (run earlier).issued <+: traffic.issued) later step
    List.prefix_rfl fun traffic hearlier operation _ =>
      hearlier.trans (issued_prefix_step traffic operation)

/-- Queue and record agree throughout. -/
theorem Sound.run {operations : List Operation}
    (hcount : (Traffic.run operations).issued.length ≤ UInt64.size) : (Traffic.run operations).Sound := by
  induction operations using List.reverseRecOn with
  | nil => exact Sound.empty
  | append_singleton earlier operation ih =>
    have hearlier := (issued_prefix_run earlier [operation]).length_le
    rw [run_concat] at hcount hearlier ⊢
    exact (ih (hearlier.trans hcount)).step operation hcount

/-- To a connection that has gone, nothing comes any more, whatever is done. -/
theorem arrived_run_of_gone (hissued : id ∈ (run earlier).issued) (hgone : id ∉ (run earlier).registered)
    (hcount : (run (earlier ++ later)).issued.length ≤ UInt64.size) :
    (run (earlier ++ later)).arrived id = (run earlier).arrived id ∧
      id ∈ (run (earlier ++ later)).issued ∧ id ∉ (run (earlier ++ later)).registered := by
  induction later using List.reverseRecOn with
  | nil =>
    rw [List.append_nil]
    exact ⟨rfl, hissued, hgone⟩
  | append_singleton middle operation ih =>
    have hearlier := (issued_prefix_run (earlier ++ middle) [operation]).length_le
    rw [List.append_assoc] at hearlier
    obtain ⟨harrived, hissued', hgone'⟩ := ih (hearlier.trans hcount)
    rw [← List.append_assoc, run_concat] at hcount hearlier ⊢
    have hstep := (Sound.run (hearlier.trans hcount)).arrived_step_of_gone hissued' hgone' operation hcount
    exact ⟨hstep.1.trans harrived, hstep.2⟩

end Run

/-! ## What becomes of the acknowledgements -/

namespace Sound

variable {traffic : Traffic} (h : traffic.Sound)
include h

/-- A batch is delivered or on its way. -/
theorem delivered_perm :
    (List.range traffic.collected.length).Perm (traffic.delivered ++ traffic.outstanding) := by
  refine (List.perm_ext_iff_of_nodup List.nodup_range ?_).mpr fun number => ?_
  · refine List.nodup_append.mpr ⟨h.delivered_nodup, List.nodup_range.filter _, ?_⟩
    intro delivered hdelivered waiting hwaiting hsame
    exact of_decide_eq_true (List.mem_filter.mp hwaiting).2 (hsame ▸ hdelivered)
  · rw [List.mem_append, outstanding, List.mem_filter, decide_eq_true_iff]
    by_cases hdelivered : number ∈ traffic.delivered
    · simp only [hdelivered, true_or, iff_true]
      exact h.delivered_subset hdelivered
    · simp only [hdelivered, false_or, not_false_eq_true, and_true]

/-- What was collected was delivered or is outstanding. -/
theorem acksOf_perm (id : ConnectionId) :
    (traffic.acksOf id (List.range traffic.collected.length)).Perm
      (traffic.acksOf id traffic.delivered ++ traffic.acksOf id traffic.outstanding) := by
  rw [← acksOf_append]
  exact h.delivered_perm.flatMap_right _

/-- Whatever has arrived was staged, and as often. -/
theorem arrived_subperm (id : ConnectionId) :
    (traffic.arrived id).Subperm (traffic.accepted id) := by
  have harrived := (h.arrived_prefix id).sublist.subperm
  have hdelivered : (traffic.acksOf id traffic.delivered).Subperm
      (traffic.acksOf id (List.range traffic.collected.length)) :=
    (List.sublist_append_left _ _).subperm.trans (h.acksOf_perm id).symm.subperm
  exact harrived.trans (hdelivered.trans (h.accepted_prefix id).sublist.subperm)

/-- Batches that are delivered in the order of their collection keep the acknowledgements in order. -/
theorem arrived_sublist (horder : traffic.delivered.Pairwise (· < ·)) (id : ConnectionId) :
    (traffic.arrived id).Sublist (traffic.accepted id) := by
  have hnumbers : traffic.delivered.Sublist (List.range traffic.collected.length) :=
    List.sublist_of_subperm_of_pairwise
      (List.subperm_of_subset h.delivered_nodup h.delivered_subset) horder List.pairwise_lt_range
  exact (h.arrived_prefix id).sublist.trans
    ((hnumbers.flatMap _).trans (h.accepted_prefix id).sublist)

/-- As long as a connection and its receiver are there, all that was staged has arrived, is in a batch on
its way, or is still staged. -/
theorem accepted_perm {id : ConnectionId} (hmem : id ∈ traffic.registered)
    (hopen : id ∉ traffic.closed) : (traffic.accepted id).Perm
      (traffic.arrived id ++ traffic.acksOf id traffic.outstanding ++ traffic.queue.stagedFor id) := by
  rw [h.accepted_eq hmem, h.arrived_eq hmem hopen]
  exact (h.acksOf_perm id).append_right _

end Sound

/-- What becomes of the acknowledgements in a queue that is used in this way. -/
structure Conserves (operations : List Operation) : Prop where
  /-- No id is issued twice. -/
  issued_nodup : (run operations).issued.Nodup
  /-- Whatever was put into an outbound queue was staged for its connection while it was registered, and
  it was put there no more often than it was staged. -/
  arrived_subperm (id : ConnectionId) :
    ((run operations).arrived id).Subperm ((run operations).accepted id)
  /-- Nothing is lost as long as the connection stays and somebody receives. -/
  accepted_perm {id : ConnectionId} : id ∈ (run operations).registered → id ∉ (run operations).closed →
    ((run operations).accepted id).Perm ((run operations).arrived id ++
      (run operations).acksOf id (run operations).outstanding ++ (run operations).queue.stagedFor id)
  /-- Nothing is put into an outbound queue once its connection has gone. -/
  arrived_of_unregister {earlier later : List Operation} {id : ConnectionId} :
    operations = earlier ++ .unregister id :: later → id ∈ (run earlier).issued →
      (run operations).arrived id = (run earlier).arrived id
  /-- The order of staging is kept by batches that are delivered in the order of their collection. -/
  arrived_sublist : (run operations).delivered.Pairwise (· < ·) →
    ∀ id, ((run operations).arrived id).Sublist ((run operations).accepted id)
  /-- A delivery appends what the batch has for the connections that are there and receive. -/
  waitingFor_deliver (batch : AckBatch) (id : ConnectionId) :
    ((run operations).queue.deliver batch).2.waitingFor id = (run operations).queue.waitingFor id ++
      if id ∈ (run operations).registered ∧ id ∉ (run operations).closed then batch.acksFor id else []
  /-- The result of a delivery is the number of responses that it appends. -/
  waitingCount_deliver (batch : AckBatch) :
    ((run operations).queue.deliver batch).2.waitingCount =
      (run operations).queue.waitingCount + ((run operations).queue.deliver batch).1
  /-- The count of what is staged is over the registered connections. -/
  stagedCount_eq : (run operations).queue.stagedCount =
    ((run operations).registered.flatMap (run operations).queue.stagedFor).length

/-- Acknowledgements are neither lost nor doubled nor misrouted, whatever is done with the queue, as long
as there are ids left. -/
theorem conserves_run (operations : List Operation)
    (hcount : (run operations).issued.length ≤ UInt64.size) : Conserves operations where
  issued_nodup := (Sound.run hcount).issued_nodup hcount
  arrived_subperm := (Sound.run hcount).arrived_subperm
  accepted_perm := (Sound.run hcount).accepted_perm
  arrived_of_unregister := by
    rintro earlier later id rfl hissued
    rw [← List.singleton_append, ← List.append_assoc] at hcount ⊢
    -- it is not registered behind its removal, whatever comes later
    have hgone : id ∉ (run (earlier ++ [.unregister id])).registered := by
      rw [run_concat]
      exact fun hmem => of_decide_eq_true (List.mem_filter.mp hmem).2 rfl
    have hissued' : id ∈ (run (earlier ++ [.unregister id])).issued :=
      (issued_prefix_run earlier _).subset hissued
    rw [(arrived_run_of_gone id _ later hissued' hgone hcount).1, run_concat]
    rfl
  arrived_sublist := (Sound.run hcount).arrived_sublist
  waitingFor_deliver batch id := by
    have hsound := Sound.run hcount
    have hthere : ((run operations).queue.isRegistered id ∧ (run operations).queue.isOpen id) ↔
        id ∈ (run operations).registered ∧ id ∉ (run operations).closed := by
      rw [hsound.isRegistered_iff, hsound.isOpen_iff]
      exact and_congr_right fun hmem => and_iff_right (hsound.registered_subset hmem)
    rw [AckQueue.waitingFor_deliver]
    simp only [hthere]
  waitingCount_deliver := AckQueue.waitingCount_deliver _
  stagedCount_eq := AckQueue.stagedCount_eq _ (Sound.run hcount).registered_nodup
    fun id => ((Sound.run hcount).isRegistered_iff id).symm

/-- Two connections, of which the first closes its receiver and goes, and two batches of which the later
one is delivered first. -/
theorem conserves_run_crossed :
    let operations : List Operation :=
      [.register, .register, .stage 1 (.ok 7 none), .stage 2 (.ok 8 none), .collect,
        .stage 2 (.ok 9 none), .stage 2 (.ok 10 none), .collect, .stage 2 (.ok 11 none),
        .deliver 1, .closeReceiver 1, .deliver 0, .unregister 1, .stage 1 (.ok 12 none)]
    (run operations).issued.length ≤ UInt64.size ∧ Conserves operations ∧
      (run operations).arrived 1 = [] ∧
      (run operations).arrived 2 = [.ok 9 none, .ok 10 none, .ok 8 none] ∧
      (run operations).accepted 2 = [.ok 8 none, .ok 9 none, .ok 10 none, .ok 11 none] :=
  ⟨by decide +kernel, conserves_run _ (by decide +kernel), by decide +kernel, by decide +kernel,
    by decide +kernel⟩

end Traffic

end BarrierStore
