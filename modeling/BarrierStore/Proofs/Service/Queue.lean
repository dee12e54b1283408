import BarrierStore.AckQueue
import Mathlib.Data.List.Basic

/-!
# What a queue holds and hands over

An acknowledgement queue is told by four things for each connection: whether it is registered, what is
staged for it, whether somebody receives from its outbound queue, and what waits there. Each operation is
told by what it does to them.

The module introduces:

* `AckQueue.stagedFor`, `AckQueue.waitingFor` — what is staged for a connection, and what waits for it;
* `AckQueue.isOpen` — whether somebody receives what is sent to it;
* `AckBatch.acksFor` — what a batch has for a connection;
* `AckQueue.waitingCount` — how much waits in all outbound queues.

Main statements: `AckQueue.acksFor_collect`, `AckQueue.waitingFor_deliver`, `AckQueue.stagedCount_eq`,
`AckQueue.waitingCount_deliver`.
-/

namespace BarrierStore

/-- What a batch has for a connection. -/
def AckBatch.acksFor (batch : AckBatch) (id : ConnectionId) : List Response :=
  batch.flatMap fun entry => if entry.1 = id then entry.2 else []

namespace AckQueue

/-- What is staged for a connection. -/
def stagedFor (queue : AckQueue) (id : ConnectionId) : List Response :=
  queue.staged[id]?.getD []

/-- What waits in the outbound queue of a connection. -/
def waitingFor (queue : AckQueue) (id : ConnectionId) : List Response :=
  (queue.outbound[id]?.map (·.waiting)).getD []

/-- Whether somebody receives from the outbound queue of a connection. -/
def isOpen (queue : AckQueue) (id : ConnectionId) : Bool :=
  queue.outbound[id]?.any (·.isOpen)

variable (queue : AckQueue) (id other : ConnectionId)

/-! ## Coming and going -/

theorem isRegistered_empty : empty.isRegistered id = false := Std.ExtTreeMap.contains_empty

/-- Behind a registration the new connection is registered, and those that were. -/
theorem isRegistered_register :
    queue.register.2.isRegistered other ↔ queue.register.1 = other ∨ queue.isRegistered other := by
  simp [register, isRegistered, Std.ExtTreeMap.contains_insert]

theorem stagedFor_empty : empty.stagedFor id = [] := by
  rw [stagedFor, empty, Std.ExtTreeMap.getElem?_empty]
  rfl

theorem waitingFor_empty : empty.waitingFor id = [] := by
  rw [waitingFor, empty, Std.ExtTreeMap.getElem?_empty]
  rfl

theorem isOpen_empty : empty.isOpen id = false := by
  rw [isOpen, empty, Std.ExtTreeMap.getElem?_empty]
  rfl

/-- Nothing is staged for a new connection. -/
theorem stagedFor_register : queue.register.2.stagedFor other =
    if queue.register.1 = other then [] else queue.stagedFor other := by
  simp only [register, stagedFor, Std.ExtTreeMap.getElem?_insert, Std.compare_eq_iff_eq]
  split <;> simp_all

/-- Nothing waits for a new connection. -/
theorem waitingFor_register : queue.register.2.waitingFor other =
    if queue.register.1 = other then [] else queue.waitingFor other := by
  simp only [register, waitingFor, Std.ExtTreeMap.getElem?_insert, Std.compare_eq_iff_eq]
  split <;> simp_all

/-- The outbound queue of a new connection is open. -/
theorem isOpen_register :
    queue.register.2.isOpen other ↔ queue.register.1 = other ∨ queue.isOpen other := by
  simp only [register, isOpen, Std.ExtTreeMap.getElem?_insert, Std.compare_eq_iff_eq]
  split <;> simp_all

/-- A connection that goes is the only one that is not registered any more. -/
theorem isRegistered_unregister :
    (queue.unregister id).isRegistered other ↔ id ≠ other ∧ queue.isRegistered other := by
  simp [unregister, isRegistered, Std.ExtTreeMap.contains_erase]

/-- What was staged for a connection that goes is lost. -/
theorem stagedFor_unregister : (queue.unregister id).stagedFor other =
    if id = other then [] else queue.stagedFor other := by
  simp only [unregister, stagedFor, Std.ExtTreeMap.getElem?_erase, Std.compare_eq_iff_eq]
  split <;> simp_all

/-- Nothing is staged for a connection that is not registered. -/
theorem stagedFor_eq_nil (h : ¬queue.isRegistered id) : queue.stagedFor id = [] := by
  rw [stagedFor, Std.ExtTreeMap.getElem?_eq_none fun hmem => h (Std.ExtTreeMap.contains_iff_mem.mpr hmem)]
  rfl

/-! ## Staging and collecting -/

theorem isRegistered_stage (response : Response) :
    (queue.stage id response).isRegistered other = queue.isRegistered other :=
  Std.ExtTreeMap.contains_modify

/-- A response is staged behind the others of its connection, if that is registered. -/
theorem stagedFor_stage (response : Response) : (queue.stage id response).stagedFor other =
    queue.stagedFor other ++ if id = other ∧ queue.isRegistered id then [response] else [] := by
  simp only [stage, stagedFor, isRegistered, Std.ExtTreeMap.getElem?_modify, Std.compare_eq_iff_eq,
    ← Std.ExtTreeMap.isSome_getElem?_eq_contains]
  by_cases hsame : id = other
  · subst hsame
    cases queue.staged[id]? <;> simp
  · simp [hsame]

/-- To collect what is staged changes no registration. -/
theorem isRegistered_collect : queue.collect.2.isRegistered other = queue.isRegistered other :=
  Std.ExtTreeMap.contains_map

/-- Behind a collection nothing is staged. -/
theorem stagedFor_collect : queue.collect.2.stagedFor other = [] := by
  simp only [collect, stagedFor, Std.ExtTreeMap.getElem?_map]
  cases queue.staged[other]? <;> rfl

/-- Entries of other connections hold nothing for this one. -/
theorem acksFor_eq_nil {entries : AckBatch} (h : ∀ entry ∈ entries, entry.1 ≠ id) :
    entries.acksFor id = [] := by
  rw [AckBatch.acksFor, List.flatMap_eq_nil_iff]
  intro entry hentry
  rw [if_neg (h entry hentry)]

/-- With one entry for each connection, an entry holds all that there is for its connection. -/
theorem acksFor_eq_of_mem {entries : AckBatch} (hdistinct : entries.Pairwise fun a b => a.1 ≠ b.1)
    {acks : List Response} (hmem : (id, acks) ∈ entries) : entries.acksFor id = acks := by
  induction entries with
  | nil => cases hmem
  | cons entry rest ih =>
    obtain ⟨hfirst, hrest⟩ := List.pairwise_cons.mp hdistinct
    rw [AckBatch.acksFor, List.flatMap_cons]
    rcases List.mem_cons.mp hmem with rfl | hmem
    · have hnone : AckBatch.acksFor rest id = [] :=
        acksFor_eq_nil id fun other hother => (hfirst other hother).symm
      rw [if_pos rfl]
      exact (congrArg (acks ++ ·) hnone).trans (List.append_nil acks)
    · rw [if_neg (hfirst _ hmem)]
      exact ih hrest hmem

/-- A batch has for each connection what was staged for it. -/
theorem acksFor_collect : queue.collect.1.acksFor id = queue.stagedFor id := by
  have hdistinct : queue.collect.1.Pairwise fun a b => a.1 ≠ b.1 :=
    (queue.staged.distinct_keys_toList.imp fun hkeys hsame =>
      hkeys (Std.compare_eq_iff_eq.mpr hsame)).filter _
  rw [stagedFor]
  by_cases hnone : queue.staged[id]?.getD [] = []
  · -- a connection for which nothing is staged has no entry
    rw [hnone]
    refine acksFor_eq_nil id fun entry hentry hid => ?_
    obtain ⟨hmem, hne⟩ := List.mem_filter.mp hentry
    have hfound : queue.staged[id]? = some entry.2 :=
      Std.ExtTreeMap.mem_toList_iff_getElem?_eq_some.mp (hid ▸ hmem)
    rw [hfound] at hnone
    exact of_decide_eq_true hne hnone
  · obtain ⟨acks, hfound⟩ : ∃ acks, queue.staged[id]? = some acks := by
      cases hstaged : queue.staged[id]? with
      | none => simp [hstaged] at hnone
      | some acks => exact ⟨acks, rfl⟩
    rw [hfound, Option.getD_some] at hnone ⊢
    exact acksFor_eq_of_mem id hdistinct (List.mem_filter.mpr
      ⟨Std.ExtTreeMap.mem_toList_iff_getElem?_eq_some.mpr hfound, decide_eq_true hnone⟩)

/-! ## Sending and receiving -/

theorem staged_send (responses : List Response) :
    (queue.send id responses).2.staged = queue.staged := by
  unfold send
  split
  · split <;> rfl
  · rfl

theorem isRegistered_send (responses : List Response) :
    (queue.send id responses).2.isRegistered other = queue.isRegistered other := by
  rw [isRegistered, staged_send]
  rfl

theorem stagedFor_send (responses : List Response) :
    (queue.send id responses).2.stagedFor other = queue.stagedFor other := by
  rw [stagedFor, staged_send]
  rfl

theorem nextId_send (responses : List Response) :
    (queue.send id responses).2.nextId = queue.nextId := by
  unfold send
  split
  · split <;> rfl
  · rfl

/-- Whoever receives from an outbound queue still does when other responses wait there. -/
theorem isOpen_refill {outbound : Outbound} (h : queue.outbound[id]? = some outbound)
    (waiting : List Response) :
    isOpen { queue with outbound := queue.outbound.insert id { outbound with waiting } } other =
      queue.isOpen other := by
  simp only [isOpen, Std.ExtTreeMap.getElem?_insert, Std.compare_eq_iff_eq]
  by_cases hsame : id = other
  · rw [if_pos hsame, ← hsame, h]
    rfl
  · rw [if_neg hsame]

/-- To send responses opens no outbound queue and closes none. -/
theorem isOpen_send (responses : List Response) :
    (queue.send id responses).2.isOpen other = queue.isOpen other := by
  unfold send
  split
  · rename_i hfound
    split
    · exact isOpen_refill _ _ _ hfound _
    · rfl
  · rfl

/-- Responses that are sent wait behind the others of their connection, if its queue is open. -/
theorem waitingFor_send (responses : List Response) : (queue.send id responses).2.waitingFor other =
    queue.waitingFor other ++ if id = other ∧ queue.isOpen id then responses else [] := by
  unfold send
  split
  case h_2 hfound => simp [isOpen, hfound]
  rename_i outbound hfound
  split
  · rename_i hopen
    simp only [waitingFor, isOpen, Std.ExtTreeMap.getElem?_insert, Std.compare_eq_iff_eq, hfound]
    by_cases hsame : id = other
    · subst hsame
      simp [hfound, hopen]
    · simp [hsame]
  · rename_i hclosed
    simp [isOpen, hfound, hclosed]

theorem staged_receive : (queue.receive id).2.staged = queue.staged := by
  unfold receive
  split
  · split <;> rfl
  · rfl

theorem isRegistered_receive :
    (queue.receive id).2.isRegistered other = queue.isRegistered other := by
  rw [isRegistered, staged_receive]
  rfl

theorem stagedFor_receive : (queue.receive id).2.stagedFor other = queue.stagedFor other := by
  rw [stagedFor, staged_receive]
  rfl

theorem nextId_receive : (queue.receive id).2.nextId = queue.nextId := by
  unfold receive
  split
  · split <;> rfl
  · rfl

theorem isOpen_receive : (queue.receive id).2.isOpen other = queue.isOpen other := by
  unfold receive
  split
  · rename_i hfound
    split
    · exact isOpen_refill _ _ _ hfound _
    · rfl
  · rfl

/-- Whoever still receives takes all that waits. -/
theorem receive_fst : (queue.receive id).1 =
    if queue.isOpen id then some (queue.waitingFor id) else none := by
  unfold receive isOpen waitingFor
  split
  · rename_i hfound
    simp only [hfound, Option.any_some, Option.map_some, Option.getD_some]
    split <;> rfl
  · rename_i hnone
    rw [hnone]
    rfl

/-- What was received does not wait any more, if the queue is open. -/
theorem waitingFor_receive : (queue.receive id).2.waitingFor other =
    if id = other ∧ queue.isOpen id then [] else queue.waitingFor other := by
  unfold receive
  split
  case h_2 hnone => simp [isOpen, hnone]
  rename_i outbound hfound
  split
  · rename_i hopen
    simp only [waitingFor, isOpen, Std.ExtTreeMap.getElem?_insert, Std.compare_eq_iff_eq, hfound]
    by_cases hsame : id = other <;> simp [hsame, hopen]
  · rename_i hclosed
    simp [isOpen, hfound, hclosed]

/-- What waits in a queue that is closed is lost. -/
theorem waitingFor_closeReceiver : (queue.closeReceiver id).waitingFor other =
    if id = other then [] else queue.waitingFor other := by
  simp only [closeReceiver, waitingFor, Std.ExtTreeMap.getElem?_modify, Std.compare_eq_iff_eq]
  by_cases hsame : id = other
  · subst hsame
    cases queue.outbound[id]? <;> simp
  · simp [hsame]

/-- A queue that is closed is the only one that is not open any more. -/
theorem isOpen_closeReceiver :
    (queue.closeReceiver id).isOpen other ↔ id ≠ other ∧ queue.isOpen other := by
  simp only [closeReceiver, isOpen, Std.ExtTreeMap.getElem?_modify, Std.compare_eq_iff_eq]
  by_cases hsame : id = other
  · subst hsame
    cases queue.outbound[id]? <;> simp
  · simp [hsame]

/-! ## Delivering -/

section Deliver

variable (state : Nat × AckQueue) (entry : ConnectionId × List Response)

theorem staged_deliverTo : (deliverTo state entry).2.staged = state.2.staged := by
  unfold deliverTo
  dsimp only
  split
  · exact staged_send _ _ _
  · rfl

theorem nextId_deliverTo : (deliverTo state entry).2.nextId = state.2.nextId := by
  unfold deliverTo
  dsimp only
  split
  · exact nextId_send _ _ _
  · rfl

/-- The delivery of an entry opens no outbound queue and closes none. -/
theorem isOpen_deliverTo : (deliverTo state entry).2.isOpen other = state.2.isOpen other := by
  unfold deliverTo
  dsimp only
  split
  · exact isOpen_send _ _ _ _
  · rfl

/-- Nor does it change a registration. -/
theorem isRegistered_deliverTo :
    (deliverTo state entry).2.isRegistered other = state.2.isRegistered other := by
  rw [isRegistered, staged_deliverTo]
  rfl

/-- The acknowledgements of an entry wait behind the others of their connection, if that is registered and
its queue is open. -/
theorem waitingFor_deliverTo : (deliverTo state entry).2.waitingFor id = state.2.waitingFor id ++
    if state.2.isRegistered id ∧ state.2.isOpen id then if entry.1 = id then entry.2 else [] else [] := by
  unfold deliverTo
  dsimp only
  split
  · rename_i hregistered
    rw [waitingFor_send]
    by_cases hsame : entry.1 = id
    · subst hsame
      simp [hregistered]
    · simp [hsame]
  · rename_i hgone
    by_cases hsame : entry.1 = id
    · subst hsame
      simp [hgone]
    · simp [hsame]

end Deliver

theorem staged_deliver (batch : AckBatch) : (queue.deliver batch).2.staged = queue.staged :=
  List.foldlRecOn (motive := fun state => state.2.staged = queue.staged) batch deliverTo rfl
    fun state hsame entry _ => (staged_deliverTo state entry).trans hsame

/-- A delivery changes no registration. -/
theorem isRegistered_deliver (batch : AckBatch) :
    (queue.deliver batch).2.isRegistered id = queue.isRegistered id := by
  rw [isRegistered, staged_deliver]
  rfl

/-- A delivery leaves what is staged. -/
theorem stagedFor_deliver (batch : AckBatch) :
    (queue.deliver batch).2.stagedFor id = queue.stagedFor id := by
  rw [stagedFor, staged_deliver]
  rfl

theorem nextId_deliver (batch : AckBatch) : (queue.deliver batch).2.nextId = queue.nextId :=
  List.foldlRecOn (motive := fun state => state.2.nextId = queue.nextId) batch deliverTo rfl
    fun state hsame entry _ => (nextId_deliverTo state entry).trans hsame

/-- A delivery opens no outbound queue and closes none. -/
theorem isOpen_deliver (batch : AckBatch) : (queue.deliver batch).2.isOpen id = queue.isOpen id :=
  List.foldlRecOn (motive := fun state => state.2.isOpen id = queue.isOpen id) batch deliverTo rfl
    fun state hsame entry _ => (isOpen_deliverTo id state entry).trans hsame

/-- A connection that is registered, and from whose queue somebody receives, gets what the batch has for
it, and no other one gets anything. -/
theorem waitingFor_deliver (batch : AckBatch) : (queue.deliver batch).2.waitingFor id =
    queue.waitingFor id ++ if queue.isRegistered id ∧ queue.isOpen id then batch.acksFor id else [] := by
  -- the queue changes with each entry, but not who is registered and who receives
  have hall : ∀ state : Nat × AckQueue, (batch.foldl deliverTo state).2.waitingFor id =
      state.2.waitingFor id ++
        if state.2.isRegistered id ∧ state.2.isOpen id then batch.acksFor id else [] := by
    intro state
    induction batch generalizing state with
    | nil => simp [AckBatch.acksFor]
    | cons entry rest ih =>
      rw [List.foldl_cons, ih, waitingFor_deliverTo, isRegistered_deliverTo, isOpen_deliverTo,
        List.append_assoc]
      split
      · rfl
      · rfl
  exact hall (0, queue)

/-- A barrier moves what is staged for a connection into its outbound queue. -/
theorem released {queue : AckQueue} {id : ConnectionId} (hregistered : queue.isRegistered id)
    (hopen : queue.isOpen id) :
    let queue' := (queue.collect.2.deliver queue.collect.1).2
    queue'.isRegistered id ∧ queue'.isOpen id ∧ queue'.stagedFor id = [] ∧
      queue'.waitingFor id = queue.waitingFor id ++ queue.stagedFor id := by
  have hthere : queue.collect.2.isRegistered id ∧ queue.collect.2.isOpen id :=
    ⟨(isRegistered_collect queue id).trans hregistered, hopen⟩
  refine ⟨?_, ?_, ?_, ?_⟩
  · exact (isRegistered_deliver _ _ _).trans hthere.1
  · exact (isOpen_deliver _ _ _).trans hopen
  · exact (stagedFor_deliver _ _ _).trans (stagedFor_collect queue id)
  · rw [waitingFor_deliver, if_pos hthere, acksFor_collect]
    rfl

/-! ## Counting -/

/-- What the entries of a map have in all is what its keys have. -/
theorem flatMap_toList_perm {α : Type} (entries : Std.ExtTreeMap ConnectionId α)
    (content : α → List Response) {ids : List ConnectionId} (hnodup : ids.Nodup)
    (hids : ∀ id, id ∈ ids ↔ id ∈ entries) :
    (entries.toList.flatMap fun entry => content entry.2).Perm
      (ids.flatMap fun id => (entries[id]?.map content).getD []) := by
  have hkeys : entries.keys.Perm ids :=
    (List.perm_ext_iff_of_nodup Std.ExtTreeMap.nodup_keys hnodup).mpr fun id =>
      Std.ExtTreeMap.mem_keys.trans (hids id).symm
  have hsame : (entries.toList.flatMap fun entry => content entry.2) =
      entries.keys.flatMap fun id => (entries[id]?.map content).getD [] := by
    rw [← Std.ExtTreeMap.map_fst_toList_eq_keys, List.flatMap_map]
    refine List.flatMap_congr fun entry hentry => ?_
    rw [Std.ExtTreeMap.mem_toList_iff_getElem?_eq_some.mp hentry]
    rfl
  exact hsame ▸ hkeys.flatMap_right _

/-- What is staged in all is what is staged for the registered connections. -/
theorem stagedCount_eq {ids : List ConnectionId} (hnodup : ids.Nodup)
    (hids : ∀ id, id ∈ ids ↔ queue.isRegistered id) :
    queue.stagedCount = (ids.flatMap queue.stagedFor).length := by
  have hperm := flatMap_toList_perm queue.staged id hnodup fun id =>
    (hids id).trans Std.ExtTreeMap.contains_iff_mem
  simp only [Option.map_id_fun, id_eq] at hperm
  exact hperm.length_eq

/-- The number of responses that wait in the outbound queues. -/
def waitingCount (queue : AckQueue) : Nat :=
  (queue.outbound.toList.flatMap fun entry => entry.2.waiting).length

/-- What waits can be counted by connections. -/
theorem waitingCount_eq {ids : List ConnectionId} (hnodup : ids.Nodup)
    (hids : ∀ id, id ∈ ids ↔ id ∈ queue.outbound) :
    queue.waitingCount = (ids.flatMap queue.waitingFor).length :=
  (flatMap_toList_perm queue.outbound (·.waiting) hnodup hids).length_eq

/-- To send responses makes no outbound queue. -/
theorem mem_outbound_send (responses : List Response) :
    other ∈ (queue.send id responses).2.outbound ↔ other ∈ queue.outbound := by
  unfold send
  split
  · rename_i hfound
    split
    · rw [Std.ExtTreeMap.mem_insert, Std.compare_eq_iff_eq]
      refine or_iff_right_of_imp fun hsame => hsame ▸ ?_
      exact Std.ExtTreeMap.mem_iff_isSome_getElem?.mpr (by rw [hfound]; rfl)
    · rfl
  · rfl

/-- All responses are counted that an open queue takes. -/
theorem send_fst (responses : List Response) :
    (queue.send id responses).1 = if queue.isOpen id then responses.length else 0 := by
  unfold send isOpen
  split
  · rename_i hfound
    rw [hfound, Option.any_some]
    split <;> rfl
  · rename_i hnone
    rw [hnone]
    rfl

/-- A queue that is open is there. -/
theorem mem_outbound_of_isOpen (h : queue.isOpen id) : id ∈ queue.outbound := by
  refine Decidable.byContradiction fun habsent => ?_
  rw [isOpen, Std.ExtTreeMap.getElem?_eq_none habsent] at h
  cases h

/-- The result of a delivery to one queue counts what has come to wait there. -/
theorem waitingCount_send (responses : List Response) :
    (queue.send id responses).2.waitingCount = queue.waitingCount + (queue.send id responses).1 := by
  have hnodup : queue.outbound.keys.Nodup := Std.ExtTreeMap.nodup_keys
  have hkeys (id : ConnectionId) : id ∈ queue.outbound.keys ↔ id ∈ queue.outbound :=
    Std.ExtTreeMap.mem_keys
  rw [waitingCount_eq _ hnodup hkeys, send_fst, waitingCount_eq _ hnodup fun other =>
    (hkeys other).trans (mem_outbound_send queue id other responses).symm]
  by_cases hopen : queue.isOpen id
  · -- one queue grows, and the others do not
    have hperm := List.perm_cons_erase ((hkeys id).mpr (queue.mem_outbound_of_isOpen id hopen))
    have hothers : (queue.outbound.keys.erase id).flatMap (queue.send id responses).2.waitingFor =
        (queue.outbound.keys.erase id).flatMap queue.waitingFor := by
      refine List.flatMap_congr fun other hother => ?_
      have hne : id ≠ other := (hnodup.mem_erase_iff.mp hother).1.symm
      rw [waitingFor_send, if_neg fun hboth => hne hboth.1, List.append_nil]
    rw [(hperm.flatMap_right _).length_eq, (hperm.flatMap_right _).length_eq, List.flatMap_cons,
      List.flatMap_cons, hothers, waitingFor_send, if_pos ⟨rfl, hopen⟩, if_pos hopen]
    simp only [List.length_append]
    omega
  · have hsame : (queue.send id responses).2.waitingFor = queue.waitingFor := by
      funext other
      rw [waitingFor_send, if_neg fun hboth => hopen hboth.2, List.append_nil]
    rw [hsame, if_neg hopen, Nat.add_zero]

/-- As many responses more wait behind the delivery of an entry as it counts. -/
theorem waitingCount_deliverTo (state : Nat × AckQueue) (entry : ConnectionId × List Response) :
    (deliverTo state entry).2.waitingCount + state.1 =
      state.2.waitingCount + (deliverTo state entry).1 := by
  unfold deliverTo
  dsimp only
  split
  · rw [waitingCount_send]
    omega
  · rfl

/-- The result of a delivery counts what has come to wait in the outbound queues. -/
theorem waitingCount_deliver (batch : AckBatch) :
    (queue.deliver batch).2.waitingCount = queue.waitingCount + (queue.deliver batch).1 :=
  List.foldlRecOn (motive := fun state => state.2.waitingCount = queue.waitingCount + state.1) batch
    deliverTo rfl fun state hcount entry _ => by
      have hstep := waitingCount_deliverTo state entry
      omega

end AckQueue

end BarrierStore
