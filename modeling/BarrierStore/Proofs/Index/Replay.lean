import BarrierStore.Index.Line
import BarrierStore.Proofs.Cut
import Mathlib.Data.List.Induction
import Mathlib.Data.List.Perm.Subperm

/-!
# What an index log replays to

A log that lines were appended to replays to their bindings, later ones first. A line that was cut
short has no newline and so does not count.

The module introduces:

* `latest`, the last binding of a key in a list of bindings, and `overlay`, a map after a list of
  bindings;
* `Survives` — of the bindings behind some others not all are there;
* `IndexLog.Accepted` — the bytes of well-formed lines, with their bindings, and `IndexLog.Stops` — a
  malformed line, or one without its newline, is in front.

Main statements: `IndexLog.replay_encodeEntries_append` and `IndexLog.replay_take` on appending and
cutting, `IndexLog.replay_compact` on the compacted log, and `getElem?_overlay`, which looks a key up
after a list of bindings.
-/

namespace BarrierStore

/-- The last binding of a key. -/
def latest {α : Type} (entries : List (Bytes × α)) (key : Bytes) : Option α :=
  entries.reverse.lookup key

/-- The map after these bindings; later ones outdate earlier ones. -/
def overlay {α : Type} (map : Std.ExtTreeMap Bytes α) (entries : List (Bytes × α)) :
    Std.ExtTreeMap Bytes α :=
  entries.foldl (fun map (key, value) => map.insert key value) map

/-- A key has what it had before, or something that it was bound to since. -/
def Survives {α : Type} (before after : Option α) (since : List (Bytes × α)) (key : Bytes) : Prop :=
  after = before ∨ ∃ value, after = some value ∧ (key, value) ∈ since

section Bindings

variable {α : Type}

@[simp]
theorem latest_nil (key : Bytes) : latest ([] : List (Bytes × α)) key = none := rfl

/-- The last binding of a key is in the back, or in the front if there is none in the back. -/
theorem latest_append (front back : List (Bytes × α)) (key : Bytes) :
    latest (front ++ back) key = (latest back key).or (latest front key) := by
  rw [latest, List.reverse_append, List.lookup_append]
  rfl

/-- A new binding is the last one of its key. -/
theorem latest_concat (front : List (Bytes × α)) (key : Bytes) (value : α) (other : Bytes) :
    latest (front ++ [(key, value)]) other = if other = key then some value else latest front other := by
  rw [latest_append]
  by_cases same : other = key
  · simp [latest, same]
  · have hne : (other == key) = false := beq_eq_false_iff_ne.mpr same
    simp [latest, same, List.lookup_cons, hne]

/-- The last binding of a key is one behind which the key has no other. -/
theorem latest_eq_some_iff {entries : List (Bytes × α)} {key : Bytes} {value : α} :
    latest entries key = some value ↔
      ∃ front rest, entries = front ++ (key, value) :: rest ∧ ∀ entry ∈ rest, entry.1 ≠ key := by
  rw [latest, List.lookup_eq_some_iff]
  constructor
  · rintro ⟨before, after, hsplit, hother⟩
    refine ⟨after.reverse, before.reverse, ?_, ?_⟩
    · rw [← List.reverse_reverse entries, hsplit]
      simp
    · intro entry hentry heq
      have := hother entry (List.mem_reverse.mp hentry)
      simp [heq] at this
  · rintro ⟨front, rest, rfl, hother⟩
    refine ⟨rest.reverse, front.reverse, by simp, fun entry hentry => ?_⟩
    have := hother entry (List.mem_reverse.mp hentry)
    simpa using Ne.symm this

/-- The last binding is one of the bindings. -/
theorem mem_of_latest {entries : List (Bytes × α)} {key : Bytes} {value : α}
    (h : latest entries key = some value) : (key, value) ∈ entries := by
  obtain ⟨front, rest, rfl, -⟩ := latest_eq_some_iff.mp h
  simp

/-- Where no key is bound twice, every binding is the last of its key. -/
theorem latest_eq_some_iff_mem {entries : List (Bytes × α)}
    (hdistinct : entries.Pairwise fun a b => a.1 ≠ b.1) {key : Bytes} {value : α} :
    latest entries key = some value ↔ (key, value) ∈ entries := by
  refine ⟨mem_of_latest, fun hmem => ?_⟩
  -- no binding behind this one has the same key
  obtain ⟨front, rest, rfl⟩ := List.append_of_mem hmem
  refine latest_eq_some_iff.mpr ⟨front, rest, rfl, fun entry hentry heq => ?_⟩
  exact (List.pairwise_cons.mp (List.pairwise_append.mp hdistinct).2.1).1 entry hentry heq.symm

/-- Bindings behind others may be lost, from any of them on. -/
theorem survives_take (front back : List (Bytes × α)) (count : Nat) (key : Bytes) :
    Survives (latest front key) (latest (front ++ back.take count) key) back key := by
  rw [latest_append]
  rcases hlast : latest (back.take count) key with _ | value
  · exact .inl rfl
  · exact .inr ⟨value, rfl, List.mem_of_mem_take (mem_of_latest hlast)⟩

/-- After a list of bindings a key has its last one there, or the one it had before. -/
theorem getElem?_overlay (map : Std.ExtTreeMap Bytes α) (entries : List (Bytes × α)) (key : Bytes) :
    (overlay map entries)[key]? = (latest entries key).or map[key]? := by
  induction entries using List.reverseRecOn with
  | nil => rfl
  | append_singleton entries entry ih =>
    obtain ⟨other, value⟩ := entry
    rw [overlay, List.foldl_append, latest_concat]
    simp only [List.foldl_cons, List.foldl_nil, Std.ExtTreeMap.getElem?_insert,
      Std.compare_eq_iff_eq]
    rw [← overlay, ih]
    by_cases same : other = key
    · simp [same]
    · simp [same, Ne.symm same]

/-- A map of bindings has the last one of each key. -/
theorem getElem?_ofEntries (entries : List (Bytes × UInt64)) (key : Bytes) :
    (AddressMap.ofEntries entries)[key]? = latest entries key := by
  rw [show AddressMap.ofEntries entries = overlay ∅ entries from rfl, getElem?_overlay,
    Std.ExtTreeMap.getElem?_empty, Option.or_none]

end Bindings

/-- Maps with the same keys have the same size. -/
theorem size_eq_of_isSome {α β : Type} {map : Std.ExtTreeMap Bytes α} {other : Std.ExtTreeMap Bytes β}
    (h : ∀ key : Bytes, map[key]?.isSome = other[key]?.isSome) : map.size = other.size := by
  have hunit : ∀ {a : Option α} {b : Option β}, a.isSome = b.isSome →
      a.map (fun _ => ()) = b.map fun _ => () := by
    rintro (_ | a) (_ | b) hsame
    · rfl
    · cases hsame
    · cases hsame
    · rfl
  -- what is bound does not matter, so both may bind the same
  have hsame : map.map (fun _ _ => ()) = other.map (fun _ _ => ()) := by
    refine Std.ExtTreeMap.ext_getElem? fun key => ?_
    rw [Std.ExtTreeMap.getElem?_map, Std.ExtTreeMap.getElem?_map]
    exact hunit (h key)
  calc map.size = (map.map fun _ _ => ()).size := Std.ExtTreeMap.size_map.symm
    _ = (other.map fun _ _ => ()).size := by rw [hsame]
    _ = other.size := Std.ExtTreeMap.size_map

/-- Where no key is bound twice, there are as many keys as bindings. -/
theorem size_ofEntries {entries : List (Bytes × UInt64)}
    (hdistinct : entries.Pairwise fun a b => a.1 ≠ b.1) :
    (AddressMap.ofEntries entries).size = entries.length := by
  induction entries using List.reverseRecOn with
  | nil => exact Std.ExtTreeMap.size_empty
  | append_singleton front entry ih =>
    obtain ⟨hfront, -, hother⟩ := List.pairwise_append.mp hdistinct
    -- the last key is not among those in front of it
    have hnew : entry.1 ∉ AddressMap.ofEntries front := by
      rw [Std.ExtTreeMap.mem_iff_isSome_getElem?, getElem?_ofEntries]
      intro hsome
      obtain ⟨address, haddress⟩ := Option.isSome_iff_exists.mp hsome
      exact hother _ (mem_of_latest haddress) entry (List.mem_singleton.mpr rfl) rfl
    rw [AddressMap.ofEntries, List.foldl_append]
    simp only [List.foldl_cons, List.foldl_nil]
    rw [← AddressMap.ofEntries, Std.ExtTreeMap.size_insert,
      if_neg (mt Std.ExtTreeMap.mem_iff_contains.mpr hnew), ih hfront,
      List.length_append, List.length_singleton]

/-- A map with no more keys than another one, among which are all of those, has the same keys. -/
theorem isSome_of_size_le {α β : Type} {map : Std.ExtTreeMap Bytes α} {other : Std.ExtTreeMap Bytes β}
    (h : ∀ key : Bytes, map[key]?.isSome → other[key]?.isSome) (hsize : other.size ≤ map.size)
    {key : Bytes} (hkey : other[key]?.isSome) : map[key]?.isSome := by
  have hsubset : map.keys ⊆ other.keys := fun key hmem =>
    Std.ExtTreeMap.mem_keys.mpr (Std.ExtTreeMap.mem_iff_isSome_getElem?.mpr
      (h key (Std.ExtTreeMap.mem_iff_isSome_getElem?.mp (Std.ExtTreeMap.mem_keys.mp hmem))))
  -- a list without repetitions holds all of a list that is no longer and holds all of it
  have hperm : map.keys.Perm other.keys := (List.subperm_of_subset Std.ExtTreeMap.nodup_keys
    hsubset).perm_of_length_le (by rwa [Std.ExtTreeMap.length_keys, Std.ExtTreeMap.length_keys])
  rw [← Std.ExtTreeMap.mem_iff_isSome_getElem?, ← Std.ExtTreeMap.mem_keys] at hkey ⊢
  exact hperm.mem_iff.mpr hkey

namespace Line

/-- No text of a line holds a newline. -/
theorem newline_not_mem_encode_text (key : Bytes) (address : UInt64) :
    newline ∉ Utf8.encode (text key address) := by
  intro hmem
  -- the newline would stand in the text as a character, and is neither digit nor space
  have hchar : Ascii.char newline ∈ text key address := by
    rw [← Ascii.chars_encode fun _ => lt_of_mem_text]
    exact List.mem_map_of_mem hmem
  rcases List.mem_append.mp hchar with hkey | hrest
  · obtain ⟨n, hn⟩ := Hex.exists_digit_of_mem_digits hkey
    exact absurd hn ((by decide : ∀ n : Fin 16, Ascii.char newline ≠ Hex.digit n) n)
  · rcases List.mem_cons.mp hrest with hspace | hnumber
    · exact absurd hspace (by decide)
    · exact absurd (Decimal.isDigit_of_mem_digits hnumber) (by decide)

end Line

namespace IndexLog

@[simp]
theorem encodeEntries_nil : encodeEntries [] = [] := rfl

/-- Lines are written one behind the other. -/
@[simp]
theorem encodeEntries_append (front back : List (Bytes × UInt64)) :
    encodeEntries (front ++ back) = encodeEntries front ++ encodeEntries back :=
  List.flatMap_append

@[simp]
theorem encodeEntries_singleton (key : Bytes) (address : UInt64) :
    encodeEntries [(key, address)] = Line.encode key address :=
  List.flatMap_singleton ..

/-! ## Lines in front of a file -/

/-- The bytes of lines that are well formed, with the bindings on them. -/
inductive Accepted : (front : Bytes) → (entries : List (Bytes × UInt64)) → Prop
  /-- No line. -/
  | nil : Accepted [] []
  /-- A line, and those behind it. -/
  | cons {line front : Bytes} {entry : Bytes × UInt64} {entries : List (Bytes × UInt64)} :
      Line.newline ∉ line → Line.parse? line = some entry → Accepted front entries →
      Accepted (line ++ Line.newline :: front) (entry :: entries)

/-- No well-formed line is in front: there is no newline, or the line in front of the first one is
malformed. -/
def Stops (rest : Bytes) : Prop :=
  Line.newline ∉ rest ∨ ∃ line tail, rest = line ++ Line.newline :: tail ∧
    Line.newline ∉ line ∧ Line.parse? line = none

/-- Without a newline there is no line. -/
theorem lines_of_not_mem {rest : Bytes} (h : Line.newline ∉ rest) : lines rest = [] := by
  rw [lines, List.splitOn_eq_singleton h]
  rfl

/-- A line ends in front of its newline. -/
theorem lines_append_cons {line : Bytes} (h : Line.newline ∉ line) (rest : Bytes) :
    lines (line ++ Line.newline :: rest) = line :: lines rest := by
  rw [lines, List.splitOn_append_cons_self_of_not_mem h,
    List.dropLast_cons_of_ne_nil (List.splitOn_ne_nil _ _), lines]

/-- Where reading stops, nothing is read. -/
theorem Stops.entries_eq {rest : Bytes} (h : Stops rest) : entries rest = [] := by
  rcases h with hnone | ⟨line, tail, rfl, hline, hmalformed⟩
  · rw [entries, lines_of_not_mem hnone, entriesOfLines]
  · rw [entries, lines_append_cons hline, entriesOfLines, hmalformed]

/-- Behind lines that are accepted reading goes on. -/
theorem Accepted.entries_append {front : Bytes} {list : List (Bytes × UInt64)}
    (h : Accepted front list) (rest : Bytes) : entries (front ++ rest) = list ++ entries rest := by
  induction h with
  | nil => rfl
  | cons hline hentry _ ih =>
    rw [List.append_assoc, List.cons_append, entries, lines_append_cons hline, entriesOfLines, hentry]
    dsimp only
    rw [← entries, ih]
    rfl

/-- Lines that were written are well formed. -/
theorem accepted_encodeEntries (list : List (Bytes × UInt64)) : Accepted (encodeEntries list) list := by
  induction list with
  | nil => exact .nil
  | cons entry rest ih =>
    obtain ⟨key, address⟩ := entry
    have hbytes : encodeEntries ((key, address) :: rest) =
        Utf8.encode (Line.text key address) ++ Line.newline :: encodeEntries rest := by
      simp [encodeEntries, Line.encode]
    rw [hbytes]
    exact .cons (Line.newline_not_mem_encode_text key address) (Line.parse?_encode_text key address) ih

/-- Whole lines are found, and what follows them, if no line, is not. -/
theorem entries_encodeEntries_append (list : List (Bytes × UInt64)) {tail : Bytes}
    (htail : Line.newline ∉ tail) : entries (encodeEntries list ++ tail) = list := by
  have hstops : Stops tail := .inl htail
  rw [(accepted_encodeEntries list).entries_append, hstops.entries_eq, List.append_nil]

/-- What is written is read again. -/
theorem entries_encodeEntries (list : List (Bytes × UInt64)) :
    entries (encodeEntries list) = list := by
  have h := entries_encodeEntries_append list (List.not_mem_nil (a := Line.newline))
  rwa [List.append_nil] at h

/-- A log of these lines, the last one perhaps cut short, replays to their bindings. -/
theorem replay_encodeEntries_append (list : List (Bytes × UInt64)) {tail : Bytes}
    (htail : Line.newline ∉ tail) :
    replay (encodeEntries list ++ tail) = AddressMap.ofEntries list := by
  rw [replay, entries_encodeEntries_append list htail]

/-- Lines that were written replay to the map of their bindings. -/
theorem replay_encodeEntries (list : List (Bytes × UInt64)) :
    replay (encodeEntries list) = AddressMap.ofEntries list := by
  rw [replay, entries_encodeEntries]

/-- A line that is cut short lacks its newline. -/
theorem newline_not_mem_take (key : Bytes) (address : UInt64) {count : Nat}
    (hcount : count < (Line.encode key address).length) :
    Line.newline ∉ (Line.encode key address).take count := by
  rw [Line.encode, List.length_append, List.length_singleton] at hcount
  rw [Line.encode, List.take_append_of_le_length (by omega)]
  exact fun hmem => Line.newline_not_mem_encode_text key address (List.mem_of_mem_take hmem)

/-- Fewer lines are shorter. -/
theorem length_encodeEntries_le_of_isPrefix {front list : List (Bytes × UInt64)}
    (h : front <+: list) : (encodeEntries front).length ≤ (encodeEntries list).length := by
  obtain ⟨rest, rfl⟩ := h
  rw [encodeEntries_append, List.length_append]
  exact Nat.le_add_right _ _

/-- Of appended lines that are cut off at a byte, those in front of the cut are found, and no other. -/
theorem entries_take (list : List (Bytes × UInt64)) (stop : Nat) :
    ∃ count, entries ((encodeEntries list).take stop) = list.take count ∧
      ∀ front rest, list = front ++ rest →
        ((encodeEntries front).length ≤ stop ↔ front.length ≤ count) := by
  have hwhole : ∀ list, encodeEntries list = list.flatMap fun entry => Line.encode entry.1 entry.2 :=
    fun _ => rfl
  rcases List.take_flatMap_cases (fun entry => Line.encode entry.1 entry.2) list stop with
    hlong | ⟨whole, entry, rest, rfl, htake, hshort, hwhole'⟩
  · refine ⟨list.length, ?_, fun front rest hlist => iff_of_true ?_ (by simp [hlist])⟩
    · rw [hwhole, List.take_of_length_le hlong, List.take_length]
      exact entries_encodeEntries list
    · exact Nat.le_trans (length_encodeEntries_le_of_isPrefix ⟨rest, hlist.symm⟩) hlong
  · refine ⟨whole.length, ?_, fun front behind hlist => ⟨hwhole' front behind hlist, fun hfront => ?_⟩⟩
    · rw [List.take_left' rfl, hwhole, htake]
      exact entries_encodeEntries_append whole (newline_not_mem_take _ _ hshort)
    · -- the cut is behind the lines that are there as a whole
      have hroom : (encodeEntries whole).length ≤ stop := by
        have hlength := congrArg List.length htake
        rw [List.length_append, List.length_take] at hlength
        exact Nat.le_trans (Nat.le_of_add_right_le (Nat.le_of_eq hlength.symm)) (Nat.min_le_left _ _)
      have hprefix : front <+: whole :=
        List.prefix_of_prefix_length_le ⟨behind, hlist.symm⟩ (List.prefix_append _ _) hfront
      exact Nat.le_trans (length_encodeEntries_le_of_isPrefix hprefix) hroom

/-- Behind lines that the cut is not in front of, exactly those are found that lie in front of it. -/
theorem exists_kept (front more : List (Bytes × UInt64)) {stop : Nat}
    (hstop : (encodeEntries front).length ≤ stop) : ∃ kept,
      replay ((encodeEntries (front ++ more)).take stop) =
        AddressMap.ofEntries (front ++ more.take kept) ∧
      ∀ i < more.length, i < kept ↔ (encodeEntries (front ++ more.take (i + 1))).length ≤ stop := by
  obtain ⟨count, hentries, hcount⟩ := entries_take (front ++ more) stop
  obtain ⟨kept, rfl⟩ := Nat.exists_eq_add_of_le ((hcount front more rfl).mp hstop)
  refine ⟨kept, ?_, fun i hi => ?_⟩
  · rw [replay, hentries, List.take_length_add_append]
  · have hsplit : front ++ more = (front ++ more.take (i + 1)) ++ more.drop (i + 1) := by
      rw [List.append_assoc, List.take_append_drop]
    rw [hcount _ _ hsplit, List.length_append, List.length_take]
    omega

/-- Where the cut is not in front of some of the lines, those are found. -/
theorem replay_take (front back : List (Bytes × UInt64)) {stop : Nat}
    (hstop : (encodeEntries front).length ≤ stop) : ∃ count,
      replay ((encodeEntries (front ++ back)).take stop) =
        AddressMap.ofEntries (front ++ back.take count) :=
  (exists_kept front back hstop).imp fun _ hkept => hkept.1

/-- The bindings of a map make that map, in whatever order. -/
theorem ofEntries_of_perm {entries : List (Bytes × UInt64)} {map : AddressMap}
    (h : entries.Perm map.toList) : AddressMap.ofEntries entries = map := by
  -- a map lists each of its keys once
  have hdistinct : map.toList.Pairwise fun a b => a.1 ≠ b.1 :=
    Std.ExtTreeMap.distinct_keys_toList.imp fun hne heq =>
      hne (Std.compare_eq_iff_eq.mpr heq)
  have hdistinct' : entries.Pairwise fun a b => a.1 ≠ b.1 :=
    (h.pairwise_iff fun hne => Ne.symm hne).mpr hdistinct
  refine Std.ExtTreeMap.ext_getElem? fun {key} => Option.ext fun address => ?_
  rw [getElem?_ofEntries, latest_eq_some_iff_mem hdistinct', h.mem_iff,
    Std.ExtTreeMap.mem_toList_iff_getElem?_eq_some]

/-- The compacted log of a map replays to that map. -/
theorem replay_compact (map : AddressMap) : replay (compact map) = map := by
  rw [compact, replay, entries_encodeEntries]
  exact ofEntries_of_perm (.refl _)

end IndexLog

end BarrierStore
