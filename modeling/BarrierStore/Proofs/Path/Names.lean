import BarrierStore.Path
import BarrierStore.Proofs.Disk.Places

/-!
# The names that paths end in

A path that ends in a proper name leads to that name in the directory in front of it. Names that are
made by appending to a stem, by joining to a directory or by changing an extension differ from the
others in that last piece only.

The module introduces:

* `Path.Proper` — a piece that names an entry of a directory;
* `Path.EndsIn path front name` — the path has these pieces in front and ends in that name;
* `Disk.locate_of_endsIn` — where such a path leads.

Main statements: `exists_endsIn_extend`, `exists_pieces_join` and `replaceExtension_join`.
-/

namespace BarrierStore

namespace Path

/-- A piece that names an entry of a directory. -/
structure Proper (name : Piece) : Prop where
  ne_nil : name ≠ []
  ne_dot : name ≠ dot
  ne_dotDot : name ≠ dotDot

instance (name : Piece) : Decidable (Proper name) :=
  decidable_of_iff (name ≠ [] ∧ name ≠ dot ∧ name ≠ dotDot)
    ⟨fun ⟨hnil, hdot, hup⟩ => ⟨hnil, hdot, hup⟩, fun ⟨hnil, hdot, hup⟩ => ⟨hnil, hdot, hup⟩⟩

/-- The path has the pieces `front`, some of them empty perhaps, and ends in a proper name. -/
structure EndsIn (path : Path) (front : List Piece) (name : Piece) : Prop where
  pieces_eq : path.pieces = front ++ [name]
  proper : Proper name

/-- The place of these pieces. -/
def placeOf (front : List Piece) : Location :=
  (front.filter (· ≠ [])).foldl step []

/-- The place of a path is the name at its end, below the place of the rest. -/
theorem EndsIn.place_eq {path : Path} {front : List Piece} {name : Piece}
    (h : path.EndsIn front name) : path.place = name :: placeOf front := by
  have hplain : ¬ name = dot ∧ ¬ name = dotDot := ⟨h.proper.ne_dot, h.proper.ne_dotDot⟩
  rw [place, h.pieces_eq, List.filter_append, List.foldl_append]
  simp [h.proper.ne_nil, step, hplain, placeOf]

/-- The last step of a path that ends in a proper name goes to the entry of that name. -/
theorem EndsIn.getLast?_components {path : Path} {front : List Piece} {name : Piece}
    (h : path.EndsIn front name) : path.components.getLast? = some (.entry name) := by
  have hname : [name].filterMap Component.ofPiece? = [.entry name] := by
    simp [Component.ofPiece?, h.proper.ne_nil, h.proper.ne_dot, h.proper.ne_dotDot]
  rw [components, h.pieces_eq, List.filterMap_append, hname, ← List.append_assoc,
    List.getLast?_concat]

/-! ## Pieces -/

theorem slash_not_mem_of_mem_pieces {path : Path} {piece : Piece} (h : piece ∈ path.pieces) :
    '/' ∉ piece := by
  unfold pieces at h
  generalize path.chars = chars at h
  -- on the characters: a slash begins a new piece, and any other one joins the piece behind it
  induction chars generalizing piece with
  | nil => simp_all
  | cons c rest ih =>
    rw [List.splitOn_cons_eq_if_modifyHead] at h
    split at h
    · rcases List.mem_cons.mp h with rfl | h
      · simp
      · exact ih h
    · rename_i hne
      have hne : c ≠ '/' := by simpa using hne
      rcases hpieces : rest.splitOn '/' with _ | ⟨first, others⟩
      · exact absurd hpieces (List.splitOn_ne_nil _ _)
      · rw [hpieces, List.modifyHead_cons] at h
        rw [hpieces] at ih
        rcases List.mem_cons.mp h with rfl | h
        · have := ih List.mem_cons_self
          simp [Ne.symm hne, this]
        · exact ih (List.mem_cons_of_mem _ h)

/-- More characters without a slash go to the last piece. -/
theorem exists_pieces_extend (path : Path) {more : List Char} (hmore : '/' ∉ more) :
    ∃ front last, path.pieces = front ++ [last] ∧
      (path.extend more).pieces = front ++ [last ++ more] := by
  unfold pieces extend
  generalize path.chars = chars
  -- on the characters: a slash begins another piece, any other character goes to the first one
  induction chars with
  | nil => exact ⟨[], [], by simp, by simp [List.splitOn_eq_singleton hmore]⟩
  | cons c rest ih =>
    obtain ⟨front, last, hrest, hmore'⟩ := ih
    dsimp only at hmore' ⊢
    rw [List.cons_append, List.splitOn_cons_eq_if_modifyHead, List.splitOn_cons_eq_if_modifyHead,
      hrest, hmore']
    split
    · exact ⟨[] :: front, last, rfl, rfl⟩
    · cases front with
      | nil => exact ⟨[], c :: last, rfl, rfl⟩
      | cons first others => exact ⟨(c :: first) :: others, last, rfl, rfl⟩

theorem not_isAbsolute {name : Piece} (h : '/' ∉ name) : isAbsolute ⟨name⟩ = false := by
  cases name with
  | nil => rfl
  | cons c rest =>
    have : c ≠ '/' := by
      rintro rfl
      exact h List.mem_cons_self
    simp [isAbsolute, this]

/-- The files of one directory have the same characters in front of their names. -/
theorem exists_chars_join (directory : Path) : ∃ front : List Char,
    (front = directory.chars ∨ front = directory.chars ++ ['/']) ∧
      ∀ name : Piece, '/' ∉ name → directory.join ⟨name⟩ = ⟨front ++ name⟩ := by
  by_cases hplain : directory.chars = [] ∨ directory.chars.getLast? = some '/'
  · refine ⟨directory.chars, .inl rfl, fun name hname => ?_⟩
    rw [join, if_neg (by simp [not_isAbsolute hname]), if_pos hplain]
  · refine ⟨directory.chars ++ ['/'], .inr rfl, fun name hname => ?_⟩
    rw [join, if_neg (by simp [not_isAbsolute hname]), if_neg hplain]
    simp

/-- The files of one directory have the same pieces in front of their names. -/
theorem exists_pieces_join (directory : Path) : ∃ front,
    front.filter (· ≠ []) = directory.pieces.filter (· ≠ []) ∧
      ∀ name : Piece, '/' ∉ name → (directory.join ⟨name⟩).pieces = front ++ [name] := by
  rcases List.eq_nil_or_concat directory.chars with hempty | ⟨chars, c, hchars⟩
  · refine ⟨[], by simp [pieces, hempty], fun name hname => ?_⟩
    simp [join, not_isAbsolute hname, hempty, pieces, List.splitOn_eq_singleton hname]
  rw [List.concat_eq_append] at hchars
  by_cases hslash : c = '/'
  · -- a slash is there already
    subst hslash
    refine ⟨chars.splitOn '/', ?_, fun name hname => ?_⟩
    · simp [pieces, hchars, List.splitOn_append_cons_self]
    · simp [join, not_isAbsolute hname, hchars, pieces, List.splitOn_append_cons_self,
        List.splitOn_eq_singleton hname]
  · refine ⟨directory.pieces, rfl, fun name hname => ?_⟩
    have hjoin : directory.join ⟨name⟩ = ⟨directory.chars ++ '/' :: name⟩ := by
      simp [join, not_isAbsolute hname, hchars, hslash]
    rw [hjoin, pieces, List.splitOn_append_cons_self, List.splitOn_eq_singleton hname, pieces]

/-- A piece that ends in characters without a dot is a proper name. -/
theorem proper_append (front : Piece) {more : Piece} (hne : more ≠ []) (hdot : '.' ∉ more) :
    Proper (front ++ more) := by
  have hlast : ∀ other : Piece, other.getLast? = some '.' → front ++ more ≠ other := by
    rintro other hother rfl
    rw [List.getLast?_append, List.getLast?_eq_some_getLast hne, Option.some_or,
      Option.some.injEq] at hother
    exact hdot (hother ▸ List.getLast_mem hne)
  exact ⟨by simp [hne], hlast _ rfl, hlast _ rfl⟩

/-- A stem with more characters, neither slash nor dot among them, ends in a name that starts as the
stem's last piece. -/
theorem exists_endsIn_extend (stem : Path) : ∃ front last, stem.pieces = front ++ [last] ∧
    ∀ more : List Char, more ≠ [] → '/' ∉ more → '.' ∉ more →
      (stem.extend more).EndsIn front (last ++ more) := by
  obtain ⟨front, last, hpieces, -⟩ := exists_pieces_extend stem (List.not_mem_nil (a := '/'))
  refine ⟨front, last, hpieces, fun more hne hslash hdot => ⟨?_, proper_append last hne hdot⟩⟩
  obtain ⟨front', last', hpieces', hextended⟩ := exists_pieces_extend stem hslash
  obtain ⟨rfl, hsame⟩ := List.append_inj' (hpieces.symm.trans hpieces') rfl
  obtain rfl : last = last' := by simpa using hsame
  exact hextended

/-! ## Extensions -/

/-- The stem and the extension of a file name. -/
structure Extended (stem extension : Piece) : Prop where
  stem_ne : stem ≠ []
  stem_dot : '.' ∉ stem
  extension_dot : '.' ∉ extension

instance (stem extension : Piece) : Decidable (Extended stem extension) :=
  decidable_of_iff (stem ≠ [] ∧ '.' ∉ stem ∧ '.' ∉ extension)
    ⟨fun ⟨hnil, hstem, hext⟩ => ⟨hnil, hstem, hext⟩, fun ⟨hnil, hstem, hext⟩ => ⟨hnil, hstem, hext⟩⟩

theorem Extended.proper {stem extension : Piece} (h : Extended stem extension) :
    Proper (stem ++ '.' :: extension) := by
  obtain ⟨c, rest, rfl⟩ := List.exists_cons_of_ne_nil h.stem_ne
  have hc : c ≠ '.' := by
    rintro rfl
    exact h.stem_dot List.mem_cons_self
  exact ⟨by simp, by simp [dot, hc], by simp [dotDot, hc]⟩

/-- An extended name splits into its stem and its extension. -/
theorem Extended.splitExtension_eq {stem extension : Piece} (h : Extended stem extension) :
    splitExtension (stem ++ '.' :: extension) = (stem, some extension) := by
  have hall : ∀ c ∈ extension.reverse, decide (c ≠ '.') = true := by
    intro c hc
    refine decide_eq_true ?_
    rintro rfl
    exact h.extension_dot (List.mem_reverse.mp hc)
  have hreverse : (stem ++ '.' :: extension).reverse = extension.reverse ++ '.' :: stem.reverse := by
    simp
  obtain ⟨c, rest, hstem⟩ := List.exists_cons_of_ne_nil (l := stem.reverse) (by simp [h.stem_ne])
  -- seen from its end, the name has the extension up to the first dot
  unfold splitExtension
  rw [hreverse, List.dropWhile_append_of_pos hall, List.takeWhile_append_of_pos hall,
    List.dropWhile_cons_of_neg (by simp), List.takeWhile_cons_of_neg (by simp), List.append_nil,
    List.reverse_reverse, hstem]
  show ((c :: rest).reverse, some extension) = _
  rw [← hstem, List.reverse_reverse]

/-- The name at the end of a path is its file name. -/
theorem EndsIn.fileName?_eq {path : Path} {front : List Piece} {name : Piece}
    (h : path.EndsIn front name) : path.fileName? = some (front, name) := by
  rw [fileName?, h.pieces_eq]
  simp [h.proper.ne_nil, h.proper.ne_dot, h.proper.ne_dotDot]

/-- A file that differs in its extension only is in the same directory. -/
theorem replaceExtension_join (directory : Path) {stem old new : Piece} (hold : Extended stem old)
    (hslash : '/' ∉ stem) (hslashOld : '/' ∉ old) (hslashNew : '/' ∉ new) :
    (directory.join ⟨stem ++ '.' :: old⟩).replaceExtension new =
      directory.join ⟨stem ++ '.' :: new⟩ := by
  obtain ⟨front, -, hpieces⟩ := exists_pieces_join directory
  have hjoin : ∀ extension : Piece, '/' ∉ extension →
      (directory.join ⟨stem ++ '.' :: extension⟩).pieces = front ++ [stem ++ '.' :: extension] :=
    fun extension hextension => hpieces _ (by simp [hslash, hextension])
  have hends : (directory.join ⟨stem ++ '.' :: old⟩).EndsIn front (stem ++ '.' :: old) :=
    ⟨hjoin old hslashOld, hold.proper⟩
  -- without its extension the path still ends in the dot
  have hcut : (⟨(directory.join ⟨stem ++ '.' :: old⟩).chars.take
      ((directory.join ⟨stem ++ '.' :: old⟩).chars.length - old.length)⟩ : Path) =
      directory.join ⟨stem ++ '.' :: []⟩ := by
    obtain ⟨before, -, hchars⟩ := exists_chars_join directory
    rw [hchars _ (by simp [hslash, hslashOld]), hchars _ (by simp [hslash])]
    have hsplit : before ++ (stem ++ '.' :: old) = before ++ (stem ++ '.' :: []) ++ old := by simp
    rw [hsplit, List.length_append, Nat.add_sub_cancel, List.take_left]
  have hbare : Extended stem [] := ⟨hold.stem_ne, hold.stem_dot, by simp⟩
  have hends' : (directory.join ⟨stem ++ '.' :: []⟩).EndsIn front (stem ++ '.' :: []) :=
    ⟨hjoin [] (by simp), hbare.proper⟩
  have hextension : (directory.join ⟨stem ++ '.' :: old⟩).extension? = some old := by
    simp [extension?, hends.fileName?_eq, hold.splitExtension_eq]
  rw [replaceExtension, hextension]
  dsimp only
  rw [hcut, setExtension, hends'.fileName?_eq]
  dsimp only
  rw [hbare.splitExtension_eq, ofPieces, ← hjoin new hslashNew, pieces, List.intercalate_splitOn]

end Path

namespace Disk

variable {disk : Disk}

/-- A path that ends in a proper name leads to it, in the directory of the pieces in front. -/
theorem locate_of_endsIn {path : Path} {front : List Path.Piece} {name : Path.Piece}
    (h : path.EndsIn front name) :
    disk.locate path =
      if '\x00' ∈ path.chars then .error .nulInPath
      else if longestPath < (Utf8.encode path.chars).length then .error .nameTooLong
      else do return .name (name :: (← disk.walk [] (front.filter (· ≠ [])))) false := by
  have hfilled : path.chars ≠ [] := by
    intro hempty
    have := h.pieces_eq
    rw [Path.pieces, hempty, List.splitOn_nil] at this
    have := List.append_eq_cons_iff.mp this.symm
    simp [h.proper.ne_nil] at this
  -- behind a slash the last piece would be empty
  have hlast : path.chars.getLast? ≠ some '/' := by
    intro hslash
    obtain ⟨chars, hchars⟩ := List.getLast?_eq_some_iff.mp hslash
    have := h.pieces_eq
    rw [Path.pieces, hchars, List.splitOn_append_cons_self, List.splitOn_nil] at this
    have := (List.append_inj' this rfl).2
    simp at this
    exact h.proper.ne_nil this
  have hreverse : (path.pieces.filter (· ≠ [])).reverse =
      name :: (front.filter (· ≠ [])).reverse := by
    rw [h.pieces_eq, List.filter_append, List.reverse_append]
    simp [h.proper.ne_nil]
  rw [locate, if_neg hfilled, hreverse]
  dsimp only
  rw [List.reverse_reverse]
  simp [h.proper.ne_dot, h.proper.ne_dotDot, hlast]

/-- A walk from the root ends at the place that its pieces say. -/
theorem walk_eq_placeOf {front : List Path.Piece} {place : Location}
    (h : disk.walk [] (front.filter (· ≠ [])) = .ok place) : place = Path.placeOf front :=
  eq_foldl_step_of_walk h

/-- What it takes for a path that ends in a proper name to lead to it. -/
theorem reaches_iff_of_endsIn {path : Path} {front : List Path.Piece} {name : Path.Piece}
    (h : path.EndsIn front name) :
    disk.Reaches path ↔
      '\x00' ∉ path.chars ∧ (Utf8.encode path.chars).length ≤ longestPath ∧
        disk.walk [] (front.filter (· ≠ [])) = .ok (Path.placeOf front) ∧
        (Utf8.encode name).length ≤ longestName := by
  constructor
  · rintro ⟨hlocate, hshort⟩
    -- the path was located, so it has passed the checks of it as a whole, and the walk
    rw [locate_of_endsIn h] at hlocate
    split at hlocate
    · cases hlocate
    · rename_i hnul
      split at hlocate
      · cases hlocate
      · rename_i hlength
        cases hwalk : disk.walk [] (front.filter (· ≠ [])) with
        | error cause =>
          rw [hwalk] at hlocate
          cases hlocate
        | ok place =>
          rw [h.place_eq] at hshort
          exact ⟨hnul, by omega, by rw [walk_eq_placeOf hwalk], hshort⟩
  · rintro ⟨hnul, hlength, hwalk, hshort⟩
    refine ⟨?_, by rwa [h.place_eq]⟩
    rw [locate_of_endsIn h, if_neg hnul, if_neg (by omega), hwalk, h.place_eq]
    rfl

/-- In a directory that another file's path leads to, a path that leads to nothing leads to a free
name. -/
theorem Reaches.of_notFound {path other : Path} {front : List Path.Piece}
    {name name' : Path.Piece} (hother : disk.Reaches other) (hends : other.EndsIn front name')
    (h : path.EndsIn front name) (hmissing : disk.nodeAt path = .error .notFound) :
    disk.Reaches path ∧ disk.node? path.place = none := by
  obtain ⟨-, -, hwalk, -⟩ := (reaches_iff_of_endsIn hends).mp hother
  -- a path that is refused as a whole, or a name that is too long, has another fault
  have hlocate : disk.locate path = .ok (.name path.place false) := by
    rw [nodeAt, locate_of_endsIn h] at hmissing
    rw [locate_of_endsIn h]
    split
    · rename_i hnul
      rw [if_pos hnul] at hmissing
      cases hmissing
    · rename_i hnul
      rw [if_neg hnul] at hmissing
      split
      · rename_i hlong
        rw [if_pos hlong] at hmissing
        cases hmissing
      · rw [hwalk, h.place_eq]
        rfl
  have hshort : ¬ longestName < (Utf8.encode (path.place.headD [])).length := by
    intro hlong
    have hentry : disk.entry path.place = .error .nameTooLong := by rw [entry, if_pos hlong]
    simp [nodeAt, hlocate, hentry, bind, Except.bind] at hmissing
  have hreaches : disk.Reaches path := ⟨hlocate, by omega⟩
  rw [hreaches.nodeAt_eq] at hmissing
  refine ⟨hreaches, ?_⟩
  split at hmissing
  · assumption
  · cases hmissing

end Disk

end BarrierStore
