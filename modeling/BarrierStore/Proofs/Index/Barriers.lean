import BarrierStore.Proofs.Disk.Obstacles
import BarrierStore.Proofs.Index.Session
import BarrierStore.Proofs.Path.Extensions
import Mathlib.Data.Finset.Card
import Mathlib.Data.List.DropRight

/-!
# Barriers in two halves

The two halves of a barrier may lie apart: bindings are put between them, and further barriers begin
before the first one ends. As long as batches are committed in the order in which they were taken, what
is visible is what was put before the last committed batch was taken, and the log has everything.

The module introduces:

* `Index.Call`, `Index.Session` — the calls on an open index, and the index with the batches that wait;
* `Index.puts`, `Index.uncovered`, `Index.Covered` — what calls have put, and which of them no batch
  has, or a committed one;
* `Index.Session.Follows` — the calls so far, cut where batches were taken.

Main statement: `Index.find?_of_calls`.
-/

namespace BarrierStore

open Drive

namespace Drive

/-- Only a path that ends in a name is opened. -/
theorem exists_endsIn_of_openForWriting {path : Path} {truncate : Bool} {drive last : Drive}
    {id : FileId} (h : (openForWriting path truncate).run.run drive = (.ok id, last)) :
    ∃ front name, path.EndsIn front name := by
  rw [openForWriting, run_look_bind] at h
  cases hlocate : drive.disk.locate path with
  | error cause =>
    rw [hlocate] at h
    cases h
  | ok target =>
    rw [hlocate] at h
    rcases target with _ | ⟨place, _ | _⟩
    · cases h
    · exact Disk.exists_endsIn_of_locate hlocate
    · cases h

end Drive

/-- An index that was opened has a log that is not the file beside it. -/
theorem IndexLog.place_beside_ne {path : Path} {drive last : Drive} {index : Index}
    (h : (Index.openAt path).run.run drive = (.ok index, last)) :
    (beside path).place ≠ path.place := by
  obtain ⟨map, loaded, -, h⟩ := run_bind_ok h
  obtain ⟨-, stored, -, h⟩ := run_bind_ok h
  obtain ⟨id, opened, hopen, -⟩ := run_bind_ok h
  obtain ⟨front, name, hends⟩ := exists_endsIn_of_openForWriting hopen
  exact hends.place_replaceExtension_ne (by decide) (by decide)

namespace Index

open IndexLog

/-! ## Calls -/

/-- A call on an open index. -/
inductive Call where
  /-- Write a binding. -/
  | put (key : Bytes) (address : UInt64)
  /-- Look a key up. -/
  | find (key : Bytes)
  /-- Take a batch. -/
  | beginSync
  /-- Commit the batch that has waited longest. -/
  | commitSync
  deriving DecidableEq

/-- An open index in use. -/
structure Session where
  index : Index
  /-- The batches that were taken and not committed, oldest first. -/
  waiting : List AddressMap
  drive : Drive

/-- What a call does. Without a batch that waits there is none to commit. -/
def Session.call (session : Session) : Call → Option Session
  | .put key address =>
    let (index, drive) := (session.index.put key address).run session.drive
    some { session with index, drive }
  | .find _ => some session
  | .beginSync =>
    let (batch, index) := session.index.beginSync
    some { session with index, waiting := session.waiting ++ [batch] }
  | .commitSync =>
    match session.waiting with
    | [] => none
    | batch :: waiting =>
      let (index, drive) := (session.index.commitSync batch).run session.drive
      some { index, waiting, drive }

/-- The bindings that calls have put, in order. -/
def puts (calls : List Call) : List (Bytes × UInt64) :=
  calls.filterMap fun
    | .put key address => some (key, address)
    | _ => none

/-- The calls since a batch was taken last. -/
def uncovered (calls : List Call) : List Call :=
  calls.rtakeWhile (· ≠ .beginSync)

/-- The calls in front of the taking of the batch that was committed last. The batches are committed in
the order in which they were taken, so that was the batch whose number is that of the commits. -/
def Covered (calls front : List Call) : Prop :=
  (calls.count .commitSync = 0 ∧ front = []) ∨
    ∃ rest, calls = front ++ .beginSync :: rest ∧
      front.count .beginSync + 1 = calls.count .commitSync

/-- The bindings of two rows of calls are those of the one and then those of the other. -/
theorem puts_append (front back : List Call) : puts (front ++ back) = puts front ++ puts back :=
  List.filterMap_append ..

/-- Only a binding that is put adds one. -/
theorem puts_concat (calls : List Call) {call : Call} (h : puts [call] = []) :
    puts (calls ++ [call]) = puts calls := by
  rw [puts_append, h, List.append_nil]

/-- Calls for a barrier bind nothing. -/
theorem puts_flatMap_concat (parts : List (List Call)) :
    puts (parts.flatMap (· ++ [.beginSync])) = parts.flatMap puts := by
  induction parts with
  | nil => rfl
  | cons part parts ih =>
    rw [List.flatMap_cons, List.flatMap_cons, puts_append, ih, puts_concat part rfl]

/-- Where the parts have no taking of a batch, there is one behind each. -/
theorem count_flatMap_concat {parts : List (List Call)} (h : ∀ part ∈ parts, .beginSync ∉ part) :
    (parts.flatMap (· ++ [.beginSync])).count Call.beginSync = parts.length := by
  induction parts with
  | nil => rfl
  | cons part parts ih =>
    have hpart : part.count .beginSync = 0 := List.count_eq_zero.mpr (h part List.mem_cons_self)
    rw [List.flatMap_cons, List.count_append, List.count_append, hpart,
      ih fun other hother => h other (List.mem_cons_of_mem _ hother)]
    simp
    omega

/-- No barrier begins among the calls that none covers. -/
theorem beginSync_not_mem_uncovered (calls : List Call) : .beginSync ∉ uncovered calls := by
  intro hmem
  simpa using List.mem_rtakeWhile_imp hmem

theorem uncovered_concat_beginSync (calls : List Call) : uncovered (calls ++ [.beginSync]) = [] := by
  rw [uncovered, List.rtakeWhile_concat_neg _ _ _ (by simp)]

/-- A call that begins no barrier is not covered yet. -/
theorem uncovered_concat (calls : List Call) {call : Call} (h : call ≠ .beginSync) :
    uncovered (calls ++ [call]) = uncovered calls ++ [call] := by
  rw [uncovered, List.rtakeWhile_concat_pos _ _ _ (by simpa using h), uncovered]

/-- No two takings of a batch have the same number. -/
theorem eq_nil_of_count {more rest rest' : List Call}
    (h : .beginSync :: rest = more ++ .beginSync :: rest') (hcount : more.count .beginSync = 0) :
    more = [] := by
  cases more with
  | nil => rfl
  | cons call more =>
    obtain rfl : Call.beginSync = call := (List.cons.inj h).1
    simp at hcount

/-- The calls that a committed batch covers are determined by the calls. -/
theorem Covered.unique {calls front other : List Call} (h : Covered calls front)
    (h' : Covered calls other) : front = other := by
  rcases h with ⟨hnone, rfl⟩ | ⟨rest, hcalls, hnumber⟩
  · rcases h' with ⟨-, rfl⟩ | ⟨rest', -, hnumber'⟩
    · rfl
    · omega
  rcases h' with ⟨hnone, -⟩ | ⟨rest', hcalls', hnumber'⟩
  · omega
  -- the longer front has no taking more, so it is no longer
  rcases List.append_eq_append_iff.mp (hcalls.symm.trans hcalls') with
    ⟨more, rfl, hrest⟩ | ⟨more, rfl, hrest⟩
  · rw [List.count_append] at hnumber'
    rw [eq_nil_of_count hrest (by omega), List.append_nil]
  · rw [List.count_append] at hnumber
    rw [eq_nil_of_count hrest (by omega), List.append_nil]

/-- A map that was made of bindings has the keys that were bound. -/
theorem mem_ofEntries {entries : List (Bytes × UInt64)} {key : Bytes} :
    key ∈ AddressMap.ofEntries entries ↔ key ∈ entries.map Prod.fst := by
  induction entries using List.reverseRecOn with
  | nil => simp [AddressMap.ofEntries]
  | append_singleton entries entry ih =>
    rw [ofEntries_concat, Std.ExtTreeMap.mem_insert, ih, Std.compare_eq_iff_eq, List.map_append,
      List.mem_append]
    simp [or_comm, eq_comm]

/-- It counts each of them once. -/
theorem size_ofEntries (entries : List (Bytes × UInt64)) :
    (AddressMap.ofEntries entries).size = (entries.map Prod.fst).dedup.length := by
  rw [← List.card_toFinset]
  induction entries using List.reverseRecOn with
  | nil => rfl
  | append_singleton entries entry ih =>
    have hinsert : ((entries ++ [entry]).map Prod.fst).toFinset =
        insert entry.1 (entries.map Prod.fst).toFinset := by
      ext key
      simp
    rw [ofEntries_concat, Std.ExtTreeMap.size_insert, hinsert, Finset.card_insert_eq_ite, ih]
    simp only [Std.ExtTreeMap.contains_iff_mem, mem_ofEntries, List.mem_toFinset]

/-! ## The invariant -/

/-- The calls so far, cut where batches were taken: the parts of the committed batches, those of the
batches that wait, and the calls since. The log holds all that was put, behind what was there. -/
structure Session.Follows (session : Session) (start : Disk) (path : Path)
    (base : List (Bytes × UInt64)) (calls : List Call) (committed waiting : List (List Call)) :
    Prop where
  calls_eq : calls =
    (committed ++ waiting).flatMap (· ++ [.beginSync]) ++ uncovered calls
  plain : ∀ part ∈ committed ++ waiting, .beginSync ∉ part
  count_eq : calls.count .commitSync = committed.length
  path_eq : session.index.path = path
  changes : start.Changes {path.place} session.drive.disk
  leaf_eq : session.drive.disk.leaf path.place =
    some (session.index.log, encodeEntries (base ++ puts calls))
  applied_eq : session.index.applied = AddressMap.ofEntries (base ++ committed.flatMap puts)
  waiting_eq : session.waiting = waiting.map fun part => AddressMap.ofEntries (puts part)
  staged_eq : session.index.staged = AddressMap.ofEntries (puts (uncovered calls))

namespace Session.Follows

variable {session next : Session} {start : Disk} {path : Path} {base : List (Bytes × UInt64)}
  {calls : List Call} {committed waiting : List (List Call)}

/-- A call that takes no batch is one of those since the last one was taken. -/
theorem concat_eq (h : session.Follows start path base calls committed waiting) {call : Call}
    (hcall : call ≠ .beginSync) : calls ++ [call] =
      (committed ++ waiting).flatMap (· ++ [.beginSync]) ++ uncovered (calls ++ [call]) := by
  rw [uncovered_concat calls hcall, ← List.append_assoc, ← h.calls_eq]

/-- A session that follows its calls follows one more put. -/
theorem put (h : session.Follows start path base calls committed waiting) (key : Bytes)
    (address : UInt64) (hcall : session.call (.put key address) = some next) :
    next.Follows start path base (calls ++ [.put key address]) committed waiting := by
  have hleaf : session.drive.disk.leaf session.index.path.place =
      some (session.index.log, encodeEntries (base ++ puts calls)) := h.path_eq ▸ h.leaf_eq
  obtain ⟨hindex, hbecomes⟩ := (meets_put h.changes.wellFormed hleaf key address fun _ _ _ => trivial).after_run
  obtain rfl := Option.some.inj hcall
  have hlog : encodeEntries (base ++ puts (calls ++ [.put key address])) =
      encodeEntries (base ++ puts calls) ++ Line.encode key address := by
    rw [puts_append, ← List.append_assoc, encodeEntries_append]
    exact congrArg _ (encodeEntries_singleton key address)
  rw [h.path_eq] at hbecomes
  refine ⟨h.concat_eq (by simp), h.plain, ?_, ?_, h.changes.trans hbecomes.changes_update, ?_, ?_,
    h.waiting_eq, ?_⟩
  · rw [List.count_append, h.count_eq]
    rfl
  · exact (congrArg Index.path hindex).trans h.path_eq
  · -- the line is at the end of the log
    refine (congrFun hbecomes.leaf_eq path.place).trans ?_
    rw [Function.update_self, hlog]
  · exact (congrArg Index.applied hindex).trans h.applied_eq
  · refine (congrArg Index.staged hindex).trans ?_
    rw [h.staged_eq, uncovered_concat calls (by simp), puts_append, ← ofEntries_concat]
    rfl

/-- It follows one more lookup, too. -/
theorem find (h : session.Follows start path base calls committed waiting) (key : Bytes)
    (hcall : session.call (.find key) = some next) :
    next.Follows start path base (calls ++ [.find key]) committed waiting := by
  obtain rfl := Option.some.inj hcall
  refine ⟨h.concat_eq (by simp), h.plain, ?_, h.path_eq, h.changes, ?_, h.applied_eq, h.waiting_eq,
    ?_⟩
  · rw [List.count_append, h.count_eq]
    rfl
  · rw [puts_concat calls rfl, h.leaf_eq]
  · rw [uncovered_concat calls (by simp), puts_concat _ rfl, h.staged_eq]

/-- The calls since the last batch was taken become the part of the new one. -/
theorem beginSync (h : session.Follows start path base calls committed waiting)
    (hcall : session.call .beginSync = some next) :
    next.Follows start path base (calls ++ [.beginSync]) committed (waiting ++ [uncovered calls]) := by
  obtain rfl := Option.some.inj hcall
  refine ⟨?_, fun part hpart => ?_, ?_, h.path_eq, h.changes, ?_, h.applied_eq, ?_, ?_⟩
  · -- behind the new batch nothing is uncovered
    rw [uncovered_concat_beginSync, List.append_nil, ← List.append_assoc, List.flatMap_append,
      List.flatMap_singleton, ← List.append_assoc, ← h.calls_eq]
  · rw [← List.append_assoc] at hpart
    rcases List.mem_append.mp hpart with hold | hnew
    · exact h.plain part hold
    · rw [List.mem_singleton.mp hnew]
      exact beginSync_not_mem_uncovered calls
  · rw [List.count_append, h.count_eq]
    rfl
  · rw [puts_concat calls rfl]
    exact h.leaf_eq
  · show session.waiting ++ [session.index.staged] = _
    rw [h.waiting_eq, h.staged_eq, List.map_append]
    rfl
  · rw [uncovered_concat_beginSync]
    rfl

/-- The part that has waited longest becomes the last of the committed ones. -/
theorem commitSync (h : session.Follows start path base calls committed waiting)
    (hcall : session.call .commitSync = some next) : ∃ part rest, waiting = part :: rest ∧
      next.Follows start path base (calls ++ [.commitSync]) (committed ++ [part]) rest := by
  cases waiting with
  | nil =>
    rw [Session.call, h.waiting_eq] at hcall
    cases hcall
  | cons part rest =>
    refine ⟨part, rest, rfl, ?_⟩
    rw [Session.call, h.waiting_eq] at hcall
    obtain rfl := Option.some.inj hcall
    -- waiting for the medium changes nothing that is seen
    have hbecomes := (Drive.meets_sync h.changes.wellFormed session.index.log
      fun _ _ => trivial).after_run
    have hparts : committed ++ [part] ++ rest = committed ++ part :: rest := by
      rw [List.append_assoc]
      rfl
    refine ⟨?_, ?_, ?_, h.path_eq, h.changes.trans (hbecomes.changes fun _ _ => rfl), ?_, ?_, rfl,
      ?_⟩
    · rw [hparts]
      exact h.concat_eq (by simp)
    · rw [hparts]
      exact h.plain
    · rw [List.count_append, h.count_eq, List.length_append]
      rfl
    · rw [puts_concat calls rfl]
      exact (congrFun hbecomes.leaf_eq path.place).trans h.leaf_eq
    · show session.index.applied ∪ AddressMap.ofEntries (puts part) = _
      rw [h.applied_eq, ofEntries_union, List.flatMap_append, List.flatMap_singleton,
        List.append_assoc]
    · show session.index.staged = _
      rw [h.staged_eq, uncovered_concat calls (by simp), puts_concat _ rfl]

/-- What the calls have made of a session that follows no calls yet follows them. -/
theorem of_calls {session : Session} {start : Disk} {path : Path} {base : List (Bytes × UInt64)}
    (hfresh : session.Follows start path base [] [] []) {calls : List Call} {last : Session}
    (hcalls : calls.foldlM Session.call session = some last) :
    ∃ committed waiting, last.Follows start path base calls committed waiting := by
  induction calls using List.reverseRecOn generalizing last with
  | nil => exact ⟨[], [], Option.some.inj hcalls ▸ hfresh⟩
  | append_singleton calls call ih =>
    rw [List.foldlM_append] at hcalls
    obtain ⟨middle, hmiddle, hcall⟩ := Option.bind_eq_some_iff.mp hcalls
    obtain ⟨committed, waiting, h⟩ := ih hmiddle
    rw [List.foldlM_cons] at hcall
    obtain ⟨next, hnext, hlast⟩ := Option.bind_eq_some_iff.mp hcall
    obtain rfl := Option.some.inj hlast
    cases call with
    | put key address => exact ⟨committed, waiting, h.put key address hnext⟩
    | find key => exact ⟨committed, waiting, h.find key hnext⟩
    | beginSync => exact ⟨committed, _, h.beginSync hnext⟩
    | commitSync =>
      obtain ⟨part, rest, -, h⟩ := h.commitSync hnext
      exact ⟨_, rest, h⟩

/-- The parts of the committed batches are what the last of them covers. -/
theorem exists_covered (h : session.Follows start path base calls committed waiting) :
    ∃ front, Covered calls front ∧ puts front = committed.flatMap puts := by
  rcases List.eq_nil_or_concat committed with rfl | ⟨before, part, rfl⟩
  · exact ⟨[], .inl ⟨h.count_eq, rfl⟩, rfl⟩
  rw [List.concat_eq_append] at h ⊢
  refine ⟨before.flatMap (· ++ [.beginSync]) ++ part,
    .inr ⟨waiting.flatMap (· ++ [.beginSync]) ++ uncovered calls, ?_, ?_⟩, ?_⟩
  · refine h.calls_eq.trans ?_
    simp
  · have hbefore : ∀ part ∈ before, .beginSync ∉ part := fun part hpart =>
      h.plain part (by simp [hpart])
    have hpart : part.count .beginSync = 0 := List.count_eq_zero.mpr (h.plain part (by simp))
    rw [List.count_append, count_flatMap_concat hbefore, hpart, h.count_eq, List.length_append]
    rfl
  · rw [puts_append, puts_flatMap_concat, List.flatMap_append, List.flatMap_singleton]

end Session.Follows

/-! ## What is visible -/

/-- An index that was just opened has its log compacted, and follows no calls. -/
theorem follows_of_openAt {path : Path} {drive opened : Drive} {index : Index}
    (hwell : drive.disk.WellFormed)
    (hopen : (openAt path).run.run drive = (.ok index, opened)) :
    drive.disk.Admits path ∧ opened.disk.Admits path ∧
      index.applied = replayed drive.disk path ∧
      Session.Follows ⟨index, [], opened⟩ opened.disk path index.applied.toList [] [] [] := by
  have hafter := (achieves_openAt hwell (place_beside_ne hopen) fun _ _ _ => trivial).after_run
  rw [hopen] at hafter
  obtain ⟨hadmits, -, hchanges, hpath, hstaged, happlied, hleaf⟩ := hafter
  refine ⟨hadmits, hchanges.admits_iff.mpr hadmits, happlied, rfl, by simp, rfl, hpath,
    .refl hchanges.wellFormed, ?_, ?_, rfl, hstaged⟩
  · exact hleaf.trans (by simp [compact, puts])
  · simp [ofEntries_toList]

/-- The log is read where it can be. -/
theorem load_eq {disk : Disk} {path : Path} (hadmits : disk.Admits path) (past : List Effect) :
    ((load path).run.run ⟨disk, past⟩).1 = .ok (replayed disk path) := by
  have hafter := @Meets.after_run _ _ _ _ ⟨disk, past⟩ (@achieves_load disk (fun _ => True) path trivial)
  rcases hrun : (load path).run.run ⟨disk, past⟩ with ⟨fault | map, last⟩
  · rw [hrun] at hafter
    exact absurd hadmits hafter.2
  · rw [hrun] at hafter
    rw [(hafter.2 hadmits.toReaches).2]

/-- However the halves of barriers lie between each other and the bindings, a lookup finds the last
binding that was put before the batch committed last was taken, or what the log had when it was opened;
the keys that wait are those put since a batch was taken last; and the log replays to all that was
put. -/
theorem find?_of_calls {path : Path} {drive opened : Drive} {index : Index} {calls : List Call}
    {session : Session} (hwell : drive.disk.WellFormed)
    (hopen : (openAt path).run.run drive = (.ok index, opened))
    (hcalls : calls.foldlM Session.call ⟨index, [], opened⟩ = some session) :
    ∃ old, ((load path).run.run drive).1 = .ok old ∧
      (∃ front, Covered calls front) ∧
      (∀ front, Covered calls front → ∀ key,
        session.index.find? key = (latest (puts front) key).or old[key]?) ∧
      session.index.staged.size = ((puts (uncovered calls)).map Prod.fst).dedup.length ∧
      ∃ map, ((load path).run.run session.drive).1 = .ok map ∧
        ∀ key, map[key]? = (latest (puts calls) key).or old[key]? := by
  obtain ⟨hadmits, hopened, happlied, hfresh⟩ := follows_of_openAt hwell hopen
  obtain ⟨committed, waiting, hfollows⟩ := Session.Follows.of_calls hfresh hcalls
  -- behind the lines of the opened log come those that were put
  have hbase : ∀ entries key, (AddressMap.ofEntries (index.applied.toList ++ entries))[key]? =
      (latest entries key).or (replayed drive.disk path)[key]? := by
    intro entries key
    rw [← ofEntries_union, Std.ExtTreeMap.getElem?_union, getElem?_ofEntries, ofEntries_toList,
      happlied]
  obtain ⟨front, hcovered, hputs⟩ := hfollows.exists_covered
  refine ⟨replayed drive.disk path, load_eq hadmits drive.effects, ⟨front, hcovered⟩,
    fun other hother key => ?_, ?_, replayed session.drive.disk path,
    load_eq (hfollows.changes.admits_iff.mpr hopened) session.drive.effects, fun key => ?_⟩
  · rw [find?, hfollows.applied_eq, ← hputs, hcovered.unique hother, hbase]
  · rw [hfollows.staged_eq, size_ofEntries]
  · rw [replayed_of_leaf hfollows.leaf_eq, replay_encodeEntries, hbase]

/-- A disk with an index log of two keys. -/
def loggedDisk : Disk :=
  Disk.empty.applyAll [.create ["index.log".toList],
    .write 0 0 (IndexLog.encodeEntries [([107], 9), ([108], 8)])]

/-- A key is put three times; two batches are taken between, and the first of them is committed last. -/
def overlappingCalls : List Call :=
  [.put [107] 1, .beginSync, .put [107] 2, .beginSync, .find [107], .put [107] 3, .commitSync]

/-- The key has its first binding then, and the other one what it had. -/
theorem find?_of_calls_overlapping : ∃ index opened session,
    loggedDisk.WellFormed ∧
    (openAt (.ofString "index.log")).run.run (ofDisk loggedDisk) = (.ok index, opened) ∧
    overlappingCalls.foldlM Session.call ⟨index, [], opened⟩ = some session ∧
    session.waiting.length = 1 ∧
    session.index.find? [107] = some 1 ∧ session.index.find? [108] = some 8 ∧
    session.index.staged.size = 1 ∧
    ∃ map, ((load (.ofString "index.log")).run.run session.drive).1 = .ok map ∧
      map[([107] : Bytes)]? = some 3 ∧ map[([108] : Bytes)]? = some 8 := by
  have hwell : loggedDisk.WellFormed := Disk.wellFormed_applyAll_empty _
  have hrun : (((openAt (.ofString "index.log")).run.run (ofDisk loggedDisk)).1.toOption.bind
      fun index => (overlappingCalls.foldlM Session.call ⟨index, [],
        ((openAt (.ofString "index.log")).run.run (ofDisk loggedDisk)).2⟩).map
          fun session => session.waiting.length) = some 1 := by
    decide +kernel
  rcases hopen : (openAt (.ofString "index.log")).run.run (ofDisk loggedDisk) with
    ⟨fault | index, opened⟩ <;> rw [hopen] at hrun
  · cases hrun
  obtain ⟨session, hcalls, hwaiting⟩ : ∃ session, overlappingCalls.foldlM Session.call
      ⟨index, [], opened⟩ = some session ∧ session.waiting.length = 1 :=
    Option.map_eq_some_iff.mp hrun
  obtain ⟨old, hload, -, hfind, hsize, map, hmap, hall⟩ := find?_of_calls hwell hopen hcalls
  -- the batch that was committed was taken behind the first binding, and in front of the second
  have hcovered : Covered overlappingCalls [.put [107] 1] := .inr ⟨_, rfl, rfl⟩
  have hold : old[([108] : Bytes)]? = some 8 := by
    have hread : ((load (.ofString "index.log")).run.run (ofDisk loggedDisk)).1.toOption.bind
        (fun map => map[([108] : Bytes)]?) = some 8 := by
      decide +kernel
    rw [hload] at hread
    exact hread
  refine ⟨index, opened, session, hwell, rfl, hcalls, hwaiting, ?_, ?_, ?_, map, hmap, ?_, ?_⟩
  · exact hfind _ hcovered [107]
  · exact (hfind _ hcovered [108]).trans hold
  · rw [hsize]
    decide
  · exact hall [107]
  · exact (hall [108]).trans hold

end Index

end BarrierStore
