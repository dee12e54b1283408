import BarrierStore.Proofs.Index.Replay
import BarrierStore.Segment.Record

/-!
# Which records an index selects

An index selects, for each key that it binds, the newest record of the key up to the address that it
has for it. Everything that recovery does to the segments and to the index log, and everything that
a crash takes from their ends, is judged by what the index selects then.

The module introduces:

* `Found` — records in the order of their addresses, and `Found.lines`, `Found.bindings`, the lines of
  the index log and the values that belong to them;
* `newest` — the newest record of a key up to an address, and `selected`, the record that an index
  selects;
* `Copies` — selected records once more at other addresses, one for each key at most.

Main statements: `selected_copied` and `selected_retired` (copies stand in for what they were copied
from, before and after the old records are gone), `selected_settled` (where every record has its
line, the last record of each key is selected) and `selected_cut` (what is selected when the ends of
the segment and of the index log are lost).
-/

namespace BarrierStore

/-- Records with their addresses. -/
abbrev Found := List (Nat × Record)

namespace Found

/-- The records in the order of their addresses, no address twice. -/
abbrev Ascending (found : Found) : Prop :=
  found.Pairwise fun a b => a.1 < b.1

/-- The line of the index log that belongs to a record. -/
def line (entry : Nat × Record) : Bytes × UInt64 :=
  (entry.2.key, UInt64.ofNat entry.1)

/-- The lines of the index log that belong to these records. -/
def lines (found : Found) : List (Bytes × UInt64) :=
  found.map line

/-- What these records bind their keys to. -/
def bindings (found : Found) : List (Bytes × Bytes) :=
  found.map fun entry => (entry.2.key, entry.2.value)

/-- The last record of a key. -/
def last? (found : Found) (key : Bytes) : Option (Nat × Record) :=
  found.reverse.find? fun entry => entry.2.key = key

@[simp]
theorem lines_append (front back : Found) : lines (front ++ back) = lines front ++ lines back :=
  List.map_append

@[simp]
theorem bindings_append (front back : Found) :
    bindings (front ++ back) = bindings front ++ bindings back :=
  List.map_append

/-- The last value of a key is what the last record of the key gives. -/
theorem latest_map {α : Type} (found : Found) (f : Nat × Record → α) (key : Bytes) :
    latest (found.map fun entry => (entry.2.key, f entry)) key = (found.last? key).map f := by
  rw [latest, last?, ← List.map_reverse]
  induction found.reverse with
  | nil => rfl
  | cons entry rest ih =>
    rw [List.map_cons, List.lookup_cons, List.find?_cons]
    by_cases same : entry.2.key = key
    · simp [same]
    · have hne : (key == entry.2.key) = false := beq_eq_false_iff_ne.mpr (Ne.symm same)
      simp [same, hne, ih]

/-- The last line of a key is the address of its last record. -/
theorem latest_lines (found : Found) (key : Bytes) :
    latest found.lines key = (found.last? key).map fun entry => UInt64.ofNat entry.1 :=
  latest_map found _ key

/-- The last binding of a key is the value of its last record. -/
theorem latest_bindings (found : Found) (key : Bytes) :
    latest found.bindings key = (found.last? key).map fun entry => entry.2.value :=
  latest_map found _ key

/-- The lines and the bindings of the same records have the same keys. -/
theorem isSome_latest_lines (found : Found) (key : Bytes) :
    (latest found.lines key).isSome = (latest found.bindings key).isSome := by
  rw [latest_lines, latest_bindings, Option.isSome_map, Option.isSome_map]

/-- A key without a record has no last one. -/
theorem last?_eq_none_iff {found : Found} {key : Bytes} :
    found.last? key = none ↔ ∀ entry ∈ found, entry.2.key ≠ key := by
  simp [last?]

/-- The last record of a key is one of its records. -/
theorem mem_of_last? {found : Found} {key : Bytes} {last : Nat × Record}
    (h : found.last? key = some last) : last ∈ found ∧ last.2.key = key :=
  ⟨List.mem_reverse.mp (List.mem_of_find?_eq_some h), by simpa using List.find?_some h⟩

/-- A key with a record has a last one. -/
theorem last?_isSome_of_mem {found : Found} {entry : Nat × Record} (h : entry ∈ found) :
    ∃ last, found.last? entry.2.key = some last := by
  rcases hlast : found.last? entry.2.key with _ | last
  · exact absurd rfl (last?_eq_none_iff.mp hlast entry h)
  · exact ⟨last, rfl⟩

/-- The last record of a key is in the back, or in the front if there is none in the back. -/
theorem last?_append (front back : Found) (key : Bytes) :
    last? (front ++ back) key = (back.last? key).or (front.last? key) := by
  rw [last?, List.reverse_append, List.find?_append]
  rfl

/-- Of ascending records the last one of a key has the greatest address. -/
theorem Ascending.last?_eq_some_iff {found : Found} (h : found.Ascending) {key : Bytes}
    {last : Nat × Record} :
    found.last? key = some last ↔
      last ∈ found ∧ last.2.key = key ∧ ∀ entry ∈ found, entry.2.key = key → entry.1 ≤ last.1 := by
  induction found using List.reverseRecOn with
  | nil => simp [last?]
  | append_singleton found entry ih =>
    obtain ⟨hfound, -, hbelow⟩ := List.pairwise_append.mp h
    have hbelow : ∀ other ∈ found, other.1 < entry.1 := by simpa using hbelow
    have hsingle : last? [entry] key = if entry.2.key = key then some entry else none := by
      simp [last?, List.find?_cons]
      split <;> simp_all
    rw [last?_append, hsingle]
    split
    · -- the last record is of the key, and has the greatest address of all
      rename_i same
      rw [Option.some_or, Option.some.injEq]
      constructor
      · rintro rfl
        refine ⟨by simp, same, fun other hother _ => ?_⟩
        rcases List.mem_append.mp hother with hother | hother
        · exact Nat.le_of_lt (hbelow other hother)
        · exact Nat.le_of_eq (by rw [List.mem_singleton.mp hother])
      · rintro ⟨hmem, -, hmax⟩
        have hle := hmax entry (by simp) same
        rcases List.mem_append.mp hmem with hmem | hmem
        · exact absurd (hbelow last hmem) (by omega)
        · exact (List.mem_singleton.mp hmem).symm
    · -- the last record is of another key and does not count
      rename_i different
      rw [Option.none_or, ih hfound]
      constructor
      · rintro ⟨hmem, hkey, hmax⟩
        refine ⟨List.mem_append_left _ hmem, hkey, fun other hother hother' => ?_⟩
        rcases List.mem_append.mp hother with hother | hother
        · exact hmax other hother hother'
        · rw [List.mem_singleton.mp hother] at hother'
          exact absurd hother' different
      · rintro ⟨hmem, hkey, hmax⟩
        rcases List.mem_append.mp hmem with hmem | hmem
        · exact ⟨hmem, hkey, fun other hother => hmax other (List.mem_append_left _ hother)⟩
        · rw [List.mem_singleton.mp hmem] at hkey
          exact absurd hkey different

/-- No two of ascending records have the same address. -/
theorem Ascending.eq_of_address {found : Found} (h : found.Ascending) {a b : Nat × Record}
    (ha : a ∈ found) (hb : b ∈ found) (same : a.1 = b.1) : a = b := by
  obtain ⟨front, rest, rfl⟩ := List.append_of_mem ha
  obtain ⟨-, htail, hfront⟩ := List.pairwise_append.mp h
  rcases List.mem_append.mp hb with hb | hb
  · exact absurd (hfront b hb a List.mem_cons_self) (by omega)
  · rcases List.mem_cons.mp hb with rfl | hb
    · rfl
    · exact absurd ((List.pairwise_cons.mp htail).1 b hb) (by omega)

end Found

/-- The newest record of a key at an address up to `bound`. -/
def newest (found : Found) (key : Bytes) (bound : Nat) : Option (Nat × Record) :=
  Found.last? (found.filter fun entry => entry.1 ≤ bound) key

/-- The record of a key that an index selects. -/
def selected (map : AddressMap) (found : Found) (key : Bytes) : Option (Nat × Record) :=
  map[key]?.bind fun address => newest found key address.toNat

/-- The newest record of a key up to a bound is in the back, or in the front if there is none in the back. -/
theorem newest_append (front back : Found) (key : Bytes) (bound : Nat) :
    newest (front ++ back) key bound = (newest back key bound).or (newest front key bound) := by
  rw [newest, List.filter_append, Found.last?_append]
  rfl

/-- In ascending order the newest record up to a bound is the one with the greatest address. -/
theorem newest_eq_some_iff {found : Found} (h : found.Ascending) {key : Bytes} {bound : Nat}
    {entry : Nat × Record} :
    newest found key bound = some entry ↔
      entry ∈ found ∧ entry.2.key = key ∧ entry.1 ≤ bound ∧
        ∀ other ∈ found, other.2.key = key → other.1 ≤ bound → other.1 ≤ entry.1 := by
  rw [newest, Found.Ascending.last?_eq_some_iff (h.filter _)]
  simp only [List.mem_filter, decide_eq_true_eq]
  constructor
  · rintro ⟨⟨hmem, hle⟩, hkey, hmax⟩
    exact ⟨hmem, hkey, hle, fun other hother hother' hbound => hmax other ⟨hother, hbound⟩ hother'⟩
  · rintro ⟨hmem, hkey, hle, hmax⟩
    exact ⟨⟨hmem, hle⟩, hkey, fun other hother hother' => hmax other hother.1 hother' hother.2⟩

/-- There is no newest record if all records of the key are behind the bound. -/
theorem newest_eq_none_iff {found : Found} {key : Bytes} {bound : Nat} :
    newest found key bound = none ↔ ∀ entry ∈ found, entry.2.key = key → bound < entry.1 := by
  rw [newest, Found.last?_eq_none_iff]
  simp only [List.mem_filter, decide_eq_true_eq, and_imp]
  constructor
  · intro h entry hentry hkey
    exact Nat.lt_of_not_le fun hle => h entry hentry hle hkey
  · intro h entry hentry hle hkey
    exact absurd (h entry hentry hkey) (by omega)

/-- The newest record is one of the key, and not behind the bound. -/
theorem mem_of_newest {found : Found} {key : Bytes} {bound : Nat} {entry : Nat × Record}
    (h : newest found key bound = some entry) :
    entry ∈ found ∧ entry.2.key = key ∧ entry.1 ≤ bound := by
  obtain ⟨hmem, hkey⟩ := Found.mem_of_last? h
  simp only [List.mem_filter, decide_eq_true_eq] at hmem
  exact ⟨hmem.1, hkey, hmem.2⟩

/-- A record that is selected is one of its key. -/
theorem mem_of_selected {map : AddressMap} {found : Found} {key : Bytes} {entry : Nat × Record}
    (h : selected map found key = some entry) : entry ∈ found ∧ entry.2.key = key := by
  obtain ⟨address, -, hnewest⟩ := Option.bind_eq_some_iff.mp h
  exact ⟨(mem_of_newest hnewest).1, (mem_of_newest hnewest).2.1⟩

/-! ## Copies of selected records -/

/-- Selected records once more at other addresses, one for each key at most. -/
structure Copies (map : AddressMap) (found copies : Found) : Prop where
  source {entry : Nat × Record} : entry ∈ copies →
    ∃ old, selected map found entry.2.key = some (old, entry.2)
  distinct : copies.Pairwise fun a b => a.2.key ≠ b.2.key

variable {map : AddressMap} {found copies : Found}

/-- Every key has one copy at most. -/
theorem Copies.eq_of_key (h : Copies map found copies) {a b : Nat × Record} (ha : a ∈ copies)
    (hb : b ∈ copies) (same : a.2.key = b.2.key) : a = b := by
  obtain ⟨front, rest, rfl⟩ := List.append_of_mem ha
  obtain ⟨-, htail, hfront⟩ := List.pairwise_append.mp h.distinct
  rcases List.mem_append.mp hb with hb | hb
  · exact absurd same.symm (hfront b hb a List.mem_cons_self)
  · rcases List.mem_cons.mp hb with rfl | hb
    · rfl
    · exact absurd same ((List.pairwise_cons.mp htail).1 b hb)

/-- A copy is the last one of its key. -/
theorem Copies.last?_eq (h : Copies map found copies) {entry : Nat × Record}
    (hentry : entry ∈ copies) : copies.last? entry.2.key = some entry := by
  obtain ⟨last, hlast⟩ := Found.last?_isSome_of_mem hentry
  obtain ⟨hmem, hkey⟩ := Found.mem_of_last? hlast
  rw [hlast, h.eq_of_key hmem hentry hkey]

/-- A copy is the newest record of its key in any list that it ends. -/
theorem Copies.newest_eq (h : Copies map found copies) (front : Found) {entry : Nat × Record}
    (hentry : entry ∈ copies) : newest (front ++ copies) entry.2.key entry.1 = some entry := by
  have hkept : newest copies entry.2.key entry.1 = some entry := by
    rcases hnewest : newest copies entry.2.key entry.1 with _ | other
    · exact absurd (newest_eq_none_iff.mp hnewest entry hentry rfl) (Nat.lt_irrefl _)
    · obtain ⟨hother, hkey, -⟩ := mem_of_newest hnewest
      rw [h.eq_of_key hother hentry hkey]
  rw [newest_append, hkept, Option.some_or]

/-- Those of these records that an index selects. -/
def chosen (map : AddressMap) (found part : Found) : Found :=
  part.filter fun entry => selected map found entry.2.key = some entry

/-- Of a part those records are chosen that are selected. -/
theorem mem_chosen_iff {part : Found} {entry : Nat × Record} :
    entry ∈ chosen map found part ↔
      entry ∈ part ∧ selected map found entry.2.key = some entry := by
  simp [chosen]

/-- Records that were chosen from the front of a list, each once more at another address, are
copies. -/
theorem copies_of_chosen (hascending : found.Ascending) {front rest : Found}
    (hfound : found = front ++ rest)
    (hrecords : copies.map Prod.snd = (chosen map found front).map Prod.snd) :
    Copies map found copies where
  source {entry} hentry := by
    have hmem : entry.2 ∈ (chosen map found front).map Prod.snd :=
      hrecords ▸ List.mem_map_of_mem hentry
    obtain ⟨⟨old, record⟩, hold, rfl⟩ := List.mem_map.mp hmem
    exact ⟨old, (mem_chosen_iff.mp hold).2⟩
  distinct := by
    have hfront : front.Ascending := (List.pairwise_append.mp (hfound ▸ hascending)).1
    have hchosen : (chosen map found front).Pairwise fun a b => a.2.key ≠ b.2.key := by
      refine List.Pairwise.imp_of_mem (fun {a b} ha hb hlt hsame => ?_) (hfront.filter _)
      -- one key has one selected record, which has one address
      have hselected := (mem_chosen_iff.mp ha).2
      rw [hsame, (mem_chosen_iff.mp hb).2] at hselected
      rw [Option.some.inj hselected] at hlt
      exact Nat.lt_irrefl _ hlt
    rw [← List.pairwise_map (f := Prod.snd) (R := fun a b : Record => a.key ≠ b.key)] at hchosen ⊢
    rwa [hrecords]

/-- Once the whole list was gone through, every selected record has its copy. -/
theorem exists_copy_of_chosen
    (hrecords : copies.map Prod.snd = (chosen map found found).map Prod.snd)
    {entry : Nat × Record} (h : selected map found entry.2.key = some entry) :
    ∃ address, (address, entry.2) ∈ copies := by
  have hmem : entry.2 ∈ copies.map Prod.snd := by
    rw [hrecords]
    exact List.mem_map_of_mem (mem_chosen_iff.mpr ⟨(mem_of_selected h).1, h⟩)
  obtain ⟨⟨address, record⟩, hcopy, rfl⟩ := List.mem_map.mp hmem
  exact ⟨address, hcopy⟩

/-- The value that an index selects for a key. -/
def selectedValue (map : AddressMap) (found : Found) (key : Bytes) : Option Bytes :=
  (selected map found key).map fun entry => entry.2.value

/-- What an index selects after the lines of some records have been added. -/
theorem selected_overlay (map : AddressMap) (lined found : Found) (key : Bytes) :
    selected (overlay map lined.lines) found key =
      (((lined.last? key).map fun entry => UInt64.ofNat entry.1).or map[key]?).bind
        fun address => newest found key address.toNat := by
  rw [selected, getElem?_overlay, Found.latest_lines]

/-- Copies are selected in the place of what they were copied from, whether or not each of them has
its line yet. -/
theorem selected_copied {lined rest : Found} (h : Copies map found (lined ++ rest))
    (hfits : ∀ entry ∈ lined, entry.1 < UInt64.size) (key : Bytes) :
    selectedValue (overlay map lined.lines) (found ++ (lined ++ rest)) key =
      selectedValue map found key := by
  rw [selectedValue, selectedValue, selected_overlay]
  rcases hlast : lined.last? key with _ | entry
  · -- the index has the old address, but the copy may lie below it
    rw [Option.map_none, Option.none_or, selected]
    rcases hindexed : map[key]? with _ | address
    · rfl
    rw [Option.bind_some, Option.bind_some, newest_append]
    rcases hnewest : newest (lined ++ rest) key address.toNat with _ | entry
    · rw [Option.none_or]
    · -- it does lie below, and holds the value of the old record
      obtain ⟨hmem, rfl, -⟩ := mem_of_newest hnewest
      obtain ⟨old, hold⟩ := h.source hmem
      rw [selected, hindexed, Option.bind_some] at hold
      rw [hold]
      rfl
  · -- the index has the address of the copy, which is the newest record up to there
    obtain ⟨hmem, rfl⟩ := Found.mem_of_last? hlast
    obtain ⟨old, hold⟩ := h.source (List.mem_append_left _ hmem)
    rw [Option.map_some, Option.some_or, Option.bind_some,
      UInt64.toNat_ofNat_of_lt' (hfits entry hmem), h.newest_eq _ (List.mem_append_left _ hmem), hold]
    rfl

/-- Once all copies have their lines, the old records may go. -/
theorem selected_retired (h : Copies map found copies)
    (hfits : ∀ entry ∈ copies, entry.1 < UInt64.size)
    (hall : ∀ entry, selected map found entry.2.key = some entry → ∃ address, (address, entry.2) ∈ copies)
    {left : Found} (hleft : ∀ entry ∈ left, entry ∈ found) (key : Bytes) :
    selectedValue (overlay map copies.lines) (left ++ copies) key = selectedValue map found key := by
  rw [selectedValue, selectedValue, selected_overlay]
  rcases hlast : copies.last? key with _ | entry
  · -- no record of the key was selected, and none is among those that are left
    have hnone := Found.last?_eq_none_iff.mp hlast
    have hold : selected map found key = none := by
      rcases hselected : selected map found key with _ | entry
      · rfl
      · obtain ⟨-, rfl⟩ := mem_of_selected hselected
        obtain ⟨address, hcopy⟩ := hall entry hselected
        exact absurd rfl (hnone (address, entry.2) hcopy)
    rw [Option.map_none, Option.none_or, hold]
    rcases hindexed : map[key]? with _ | address
    · rfl
    rw [selected, hindexed, Option.bind_some, newest_eq_none_iff] at hold
    rw [Option.bind_some, newest_eq_none_iff.mpr]
    intro entry hentry hkey
    rcases List.mem_append.mp hentry with hentry | hentry
    · exact hold entry (hleft entry hentry) hkey
    · exact absurd hkey (hnone entry hentry)
  · obtain ⟨hmem, rfl⟩ := Found.mem_of_last? hlast
    obtain ⟨old, hold⟩ := h.source hmem
    rw [Option.map_some, Option.some_or, Option.bind_some,
      UInt64.toNat_ofNat_of_lt' (hfits entry hmem), h.newest_eq _ hmem, hold]
    rfl

/-- The copies bind the keys to what was selected. -/
theorem latest_copies (h : Copies map found copies)
    (hall : ∀ entry, selected map found entry.2.key = some entry → ∃ address, (address, entry.2) ∈ copies)
    (key : Bytes) : latest copies.bindings key = selectedValue map found key := by
  rw [Found.latest_bindings, selectedValue]
  rcases hselected : selected map found key with _ | entry
  · rcases hlast : copies.last? key with _ | last
    · rfl
    · obtain ⟨hmem, rfl⟩ := Found.mem_of_last? hlast
      obtain ⟨old, hold⟩ := h.source hmem
      rw [hselected] at hold
      cases hold
  · obtain ⟨-, rfl⟩ := mem_of_selected hselected
    obtain ⟨address, hcopy⟩ := hall entry hselected
    rw [h.last?_eq hcopy]
    rfl

/-! ## Records with their lines -/

/-- Where every record has its line, in the order of the records, the last one of a key is selected,
whatever lines are in front. -/
theorem selected_settled (base : List (Bytes × UInt64)) (hascending : found.Ascending)
    (hfits : ∀ entry ∈ found, entry.1 < UInt64.size) (key : Bytes) :
    selectedValue (AddressMap.ofEntries (base ++ found.lines)) found key =
      latest found.bindings key := by
  rw [Found.latest_bindings, selectedValue, selected, getElem?_ofEntries, latest_append,
    Found.latest_lines]
  rcases hlast : found.last? key with _ | last
  · -- a line in front may have the key, but no record does
    have hnone := Found.last?_eq_none_iff.mp hlast
    rw [Option.map_none, Option.none_or]
    rcases latest base key with _ | address
    · rfl
    · rw [Option.bind_some, newest_eq_none_iff.mpr fun entry hentry hkey =>
        absurd hkey (hnone entry hentry)]
  · obtain ⟨hmem, hkey, hmax⟩ := hascending.last?_eq_some_iff.mp hlast
    -- the index admits all records of the key, and the last one is the newest
    have hnewest : newest found key last.1 = some last :=
      (newest_eq_some_iff hascending).mpr
        ⟨hmem, hkey, Nat.le_refl _, fun other hother hother' _ => hmax other hother hother'⟩
    rw [Option.map_some, Option.some_or, Option.bind_some,
      UInt64.toNat_ofNat_of_lt' (hfits last hmem), hnewest]

/-- The ends of the records and of their lines are lost, but not what a barrier covers: a key has the
value that it had then, or one that was put since. -/
theorem selected_cut (base : AddressMap) {covered since : Found}
    (hascending : (covered ++ since).Ascending)
    (hfits : ∀ entry ∈ covered ++ since, entry.1 < UInt64.size) (lined records : Nat) (key : Bytes) :
    Survives (latest covered.bindings key)
      (selectedValue (overlay base (Found.lines (covered ++ since.take lined)))
        (covered ++ since.take records) key) since.bindings key := by
  have hpart : ∀ count, List.Sublist (covered ++ since.take count) (covered ++ since) :=
    fun count => (List.take_sublist _ _).append_left _
  have hkept : ∀ count, ∀ entry ∈ covered, entry ∈ covered ++ since.take count :=
    fun _ _ => List.mem_append_left _
  have hcovered : covered.Ascending := (List.pairwise_append.mp hascending).1
  -- what is selected was covered, or it was put since
  have hsince : ∀ entry ∈ covered ++ since.take records, entry ∉ covered →
      (entry.2.key, entry.2.value) ∈ since.bindings := fun entry hentry hnew =>
    List.mem_map_of_mem (List.mem_of_mem_take ((List.mem_append.mp hentry).resolve_left hnew))
  rw [selectedValue, selected_overlay]
  rcases hlast : Found.last? covered key with _ | last
  · have hnone := Found.last?_eq_none_iff.mp hlast
    rw [Found.latest_bindings, hlast]
    cases hvalue : (((Found.last? (covered ++ since.take lined) key).map fun entry =>
      UInt64.ofNat entry.1).or base[key]?).bind fun address =>
        newest (covered ++ since.take records) key address.toNat with
    | none => exact .inl rfl
    | some entry =>
      obtain ⟨address, -, hnewest⟩ := Option.bind_eq_some_iff.mp hvalue
      obtain ⟨hmem, rfl, -⟩ := mem_of_newest hnewest
      exact .inr ⟨_, rfl, hsince entry hmem fun hold => hnone entry hold rfl⟩
  · obtain ⟨hmem, hkey, hmax⟩ := hcovered.last?_eq_some_iff.mp hlast
    -- the index has the key at the last covered record of it, or behind that
    obtain ⟨indexed, hindexed⟩ : ∃ indexed,
        Found.last? (covered ++ since.take lined) key = some indexed := by
      have := Found.last?_isSome_of_mem (hkept lined last hmem)
      rwa [hkey] at this
    obtain ⟨hindexed', -, hindexedMax⟩ :=
      (Found.Ascending.last?_eq_some_iff (hascending.sublist (hpart lined))).mp hindexed
    have hbound : last.1 ≤ indexed.1 := hindexedMax last (hkept lined last hmem) hkey
    rw [hindexed, Option.map_some, Option.some_or, Option.bind_some,
      UInt64.toNat_ofNat_of_lt' (hfits _ ((hpart lined).subset hindexed'))]
    rcases hnewest : newest (covered ++ since.take records) key indexed.1 with _ | entry
    · have := newest_eq_none_iff.mp hnewest last (hkept records last hmem) hkey
      omega
    · obtain ⟨hentry, rfl, -, hentryMax⟩ :=
        (newest_eq_some_iff (hascending.sublist (hpart records))).mp hnewest
      by_cases hold : entry ∈ covered
      · -- no covered record of the key is newer than the last of them
        have hle := hentryMax last (hkept records last hmem) hkey hbound
        have hge := hmax entry hold rfl
        obtain rfl := hcovered.eq_of_address hold hmem (Nat.le_antisymm hge hle)
        exact .inl (by rw [Found.latest_bindings, hlast])
      · exact .inr ⟨_, rfl, hsince entry hentry hold⟩

end BarrierStore
