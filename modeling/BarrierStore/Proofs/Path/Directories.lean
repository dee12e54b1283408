import BarrierStore.Proofs.Path.Names
import BarrierStore.Proofs.Text.Spelling

/-!
# The directories that paths lead to

A path leads to a directory exactly if its pieces can be walked to the last one. So a directory that
holds one file is there for all others whose names differ in the last piece only.

Main statements: `Disk.isDirectory_iff`, `Disk.hasParent_of_endsIn` and `Disk.reaches_join`.
-/

namespace BarrierStore

namespace Path

theorem sublist_intercalate {α : Type} (separator : List α) {few many : List (List α)}
    (h : few.Sublist many) : (separator.intercalate few).Sublist (separator.intercalate many) := by
  -- on which pieces are left out: a separator stands behind a piece only if another piece follows
  induction h with
  | slnil => exact List.Sublist.refl _
  | @cons few many piece h ih =>
    cases many with
    | nil =>
      obtain rfl := List.sublist_nil.mp h
      exact List.nil_sublist _
    | cons next rest =>
      rw [List.intercalate_cons_cons]
      exact ih.trans (List.sublist_append_right _ _)
  | @cons_cons few many piece h ih =>
    cases few with
    | nil =>
      cases many with
      | nil => exact List.Sublist.refl _
      | cons next rest =>
        rw [List.intercalate_singleton, List.intercalate_cons_cons, List.append_assoc]
        exact List.sublist_append_left _ _
    | cons first others =>
      cases many with
      | nil => cases h
      | cons next rest =>
        rw [List.intercalate_cons_cons, List.intercalate_cons_cons]
        exact ih.append_left _

/-- The named steps of some pieces are those pieces, without the empty ones and the dots. -/
theorem map_toPiece_filterMap (pieces : List Piece) :
    (pieces.filterMap Component.ofPiece?).map Component.toPiece =
      (pieces.filter (· ≠ [])).filter (· ≠ dot) := by
  induction pieces with
  | nil => rfl
  | cons piece rest ih =>
    by_cases hempty : piece = []
    · simp [Component.ofPiece?, hempty, ih]
    by_cases hdot : piece = dot
    · simp [Component.ofPiece?, hdot, ih]
    by_cases hup : piece = dotDot
    · simp [Component.ofPiece?, hup, Component.toPiece, dot, dotDot, ih]
    · simp [Component.ofPiece?, hempty, hdot, hup, Component.toPiece, ih]

end Path

namespace Disk

variable {disk : Disk}

/-- A walk may be taken in two parts. -/
theorem walk_append (start : Location) (front back : List Path.Piece) :
    disk.walk start (front ++ back) = disk.walk start front >>= fun place => disk.walk place back :=
  List.foldlM_append

theorem walk_cons (start : Location) (piece : Path.Piece) (rest : List Path.Piece) :
    disk.walk start (piece :: rest) = disk.enter start piece >>= fun place => disk.walk place rest :=
  rfl

/-- A dot leads nowhere else. -/
theorem walk_filter_dot (start : Location) (pieces : List Path.Piece) :
    disk.walk start (pieces.filter (· ≠ Path.dot)) = disk.walk start pieces := by
  induction pieces generalizing start with
  | nil => rfl
  | cons piece rest ih =>
    by_cases hdot : piece = Path.dot
    · have henter : disk.enter start piece = .ok start := by rw [enter, if_pos hdot]
      rw [List.filter_cons_of_neg (by simpa using hdot), walk_cons, henter, ih]
      rfl
    · rw [List.filter_cons_of_pos (by simpa using hdot), walk_cons, walk_cons]
      exact bind_congr fun place => ih place

/-- A directory is what the pieces of its path can be walked to. -/
theorem isDirectory_iff {path : Path} :
    disk.isDirectory path = true ↔
      '\x00' ∉ path.chars ∧ path.chars ≠ [] ∧ (Utf8.encode path.chars).length ≤ longestPath ∧
        ∃ place, disk.walk [] (path.pieces.filter (· ≠ [])) = .ok place := by
  have hnode : disk.isDirectory path = true ↔ disk.nodeAt path = .ok .directory := by
    unfold isDirectory
    split
    · rename_i hnode
      simp [hnode]
    · rename_i hother
      simp only [Bool.false_eq_true, false_iff]
      exact hother
  rw [hnode, nodeAt, locate]
  generalize path.pieces.filter (· ≠ []) = named
  by_cases hnul : '\x00' ∈ path.chars
  · simp [hnul, bind, Except.bind]
  by_cases hempty : path.chars = []
  · simp [hempty, bind, Except.bind]
  by_cases hlong : longestPath < (Utf8.encode path.chars).length
  · simp [hnul, hempty, hlong, bind, Except.bind]
  rw [if_neg hnul, if_neg hempty, if_neg hlong]
  simp only [hnul, hempty, Nat.le_of_not_lt hlong, not_false_eq_true, true_and, ne_eq]
  -- all pieces but the last are walked, and the last one is entered
  rcases List.eq_nil_or_concat named with rfl | ⟨before, last, rfl⟩
  · simp [walk, bind, Except.bind, pure, Except.pure]
  rw [List.concat_eq_append, List.reverse_append, List.reverse_singleton, List.singleton_append,
    walk_append]
  dsimp only
  rw [List.reverse_reverse]
  cases disk.walk [] before with
  | error cause => simp [bind, Except.bind]
  | ok place =>
    have hlast : disk.walk place [last] = disk.enter place last := bind_pure _
    simp only [bind, Except.bind, hlast]
    by_cases hdots : last = Path.dot ∨ last = Path.dotDot
    · rw [if_pos hdots]
      rcases hdots with rfl | rfl <;> simp [enter, Path.dot, Path.dotDot, pure, Except.pure]
    · rw [if_neg hdots]
      rw [not_or] at hdots
      simp only [enter, if_neg hdots.1, if_neg hdots.2, pure, Except.pure, bind, Except.bind]
      rcases disk.entry (last :: place) with cause | _ | _ | id
      · simp
      · simp [throw, throwThe, MonadExceptOf.throw]
      · simp
      · dsimp only
        split <;> simp [throw, throwThe, MonadExceptOf.throw]

end Disk

namespace Path

/-- The path of the directory that holds a file has some of the pieces in front of the file's name, and
leads where they do. -/
theorem EndsIn.parent?_eq {path : Path} {front : List Piece} {name : Piece}
    (h : path.EndsIn front name) : ∃ steps pieces, path.parent? = some (ofComponents steps) ∧
      steps.map Component.toPiece = pieces ∧ pieces.Sublist front ∧
      (pieces.filter (· ≠ [])).filter (· ≠ dot) = (front.filter (· ≠ [])).filter (· ≠ dot) := by
  have hname : Component.ofPiece? name = some (.entry name) := by
    simp [Component.ofPiece?, h.proper.ne_nil, h.proper.ne_dot, h.proper.ne_dotDot]
  have hparent : ∀ start, path.components = start ++ (front ++ [name]).filterMap Component.ofPiece? →
      path.parent? = some (ofComponents (start ++ front.filterMap Component.ofPiece?)) := by
    intro start hcomponents
    rw [parent?, hcomponents, List.filterMap_append]
    simp [hname]
  have hnamed : ∀ rest : List Piece,
      ((rest.filterMap Component.ofPiece?).map Component.toPiece).Sublist rest := by
    intro rest
    rw [map_toPiece_filterMap]
    exact List.filter_sublist.trans List.filter_sublist
  have hkept : ∀ rest : List Piece,
      (((rest.filterMap Component.ofPiece?).map Component.toPiece).filter (· ≠ [])).filter (· ≠ dot) =
        (rest.filter (· ≠ [])).filter (· ≠ dot) := by
    intro rest
    simp only [map_toPiece_filterMap, List.filter_filter]
    refine List.filter_congr fun piece _ => ?_
    by_cases piece = dot <;> by_cases piece = [] <;> simp [*]
  rw [components, h.pieces_eq] at hparent
  by_cases habsolute : path.isAbsolute = true
  · -- the piece in front of the first slash is empty
    obtain ⟨chars, hchars⟩ : ∃ chars, path.chars = '/' :: chars := by
      simp only [isAbsolute, beq_iff_eq] at habsolute
      exact List.head?_eq_some_iff.mp habsolute
    obtain ⟨rest, rfl⟩ : ∃ rest, front = [] :: rest := by
      have hpieces : [] :: chars.splitOn '/' = front ++ [name] := by
        rw [← h.pieces_eq, pieces, hchars, List.splitOn_cons_eq_if_modifyHead, if_pos (by simp)]
      cases front with
      | nil =>
        rw [List.nil_append, List.cons.injEq] at hpieces
        exact absurd hpieces.1.symm h.proper.ne_nil
      | cons first rest =>
        rw [List.cons_append, List.cons.injEq] at hpieces
        exact ⟨rest, by rw [hpieces.1]⟩
    refine ⟨_, _, hparent [.root] (by rw [if_pos habsolute]), rfl, ?_, ?_⟩
    · exact (hnamed rest).cons_cons []
    · simpa [Component.ofPiece?, Component.toPiece] using hkept rest
  by_cases hdot : (front ++ [name]).head? = some dot
  · obtain ⟨rest, rfl⟩ : ∃ rest, front = dot :: rest := by
      cases front with
      | nil => exact absurd (Option.some.inj hdot) h.proper.ne_dot
      | cons first rest => exact ⟨rest, by rw [← Option.some.inj hdot]⟩
    refine ⟨_, _, hparent [.current] (by rw [if_neg habsolute, if_pos hdot]), rfl, ?_, ?_⟩
    · exact (hnamed rest).cons_cons dot
    · simpa [Component.ofPiece?, Component.toPiece, dot] using hkept rest
  · refine ⟨_, _, hparent [] (by rw [if_neg habsolute, if_neg hdot]), rfl, hnamed front, hkept front⟩

end Path

namespace Disk

variable {disk : Disk}

/-- Where one file has its name, the directory of another with the same pieces in front is there. -/
theorem hasParent_of_endsIn {path other : Path} {front : List Path.Piece}
    {name name' : Path.Piece} (h : path.EndsIn front name) (hother : other.EndsIn front name')
    (hreaches : disk.Reaches other) : disk.HasParent path := by
  obtain ⟨hnul, hlength, hwalk, -⟩ := (reaches_iff_of_endsIn hother).mp hreaches
  obtain ⟨steps, pieces, hparent, hsteps, hsublist, hnamed⟩ := h.parent?_eq
  intro parent hparent'
  obtain rfl := Option.some.inj (hparent.symm.trans hparent')
  by_cases hroot : steps = [.root]
  · right
    rw [hroot]
    exact isDirectory_iff.mpr ⟨by decide, by decide, by decide, [], rfl⟩
  have hplain : Path.ofComponents steps = ⟨['/'].intercalate pieces⟩ := by
    rw [Path.ofComponents.eq_2 steps hroot, Path.ofPieces, hsteps]
  rw [hplain]
  refine or_iff_not_imp_left.mpr fun hfilled => ?_
  -- the path of the directory is a part of the other file's path
  have hchars : (['/'].intercalate pieces).Sublist other.chars := by
    have hwhole : other.chars = ['/'].intercalate (front ++ [name']) := by
      rw [← hother.pieces_eq, Path.pieces, List.intercalate_splitOn]
    rw [hwhole]
    exact Path.sublist_intercalate _ (hsublist.trans (List.sublist_append_left _ _))
  have hpieces : (⟨['/'].intercalate pieces⟩ : Path).pieces = pieces := by
    refine List.splitOn_intercalate '/' (fun piece hpiece => ?_) ?_
    · refine @Path.slash_not_mem_of_mem_pieces other piece ?_
      rw [hother.pieces_eq]
      exact List.mem_append_left _ (hsublist.mem hpiece)
    · rintro rfl
      exact hfilled rfl
  refine isDirectory_iff.mpr ⟨fun hmem => hnul (hchars.mem hmem), hfilled,
    Nat.le_trans (Utf8.length_encode_sublist hchars) hlength, Path.placeOf front, ?_⟩
  rw [hpieces, ← walk_filter_dot, hnamed, walk_filter_dot, hwalk]

/-- A file in a directory that is there has its name, if neither the name nor the path is too long. -/
theorem reaches_join {directory : Path} (hdirectory : disk.isDirectory directory = true)
    {name : Path.Piece} (hname : Path.Proper name) (hslash : '/' ∉ name) (hnul : '\x00' ∉ name)
    (hshort : (Utf8.encode name).length ≤ longestName)
    (hlength : (Utf8.encode directory.chars).length + 1 + (Utf8.encode name).length ≤ longestPath) :
    disk.Reaches (directory.join ⟨name⟩) := by
  obtain ⟨front, hnamed, hpieces⟩ := Path.exists_pieces_join directory
  obtain ⟨before, hbefore, hchars⟩ := Path.exists_chars_join directory
  obtain ⟨hnul', -, -, place, hwalk⟩ := isDirectory_iff.mp hdirectory
  refine (reaches_iff_of_endsIn ⟨hpieces name hslash, hname⟩).mpr ⟨?_, ?_, ?_, hshort⟩
  · rw [hchars name hslash]
    rcases hbefore with rfl | rfl <;> simp [hnul, hnul']
  · rw [hchars name hslash]
    have hslashes : (Utf8.encode ['/']).length = 1 := by decide
    rcases hbefore with rfl | rfl <;> simp only [Utf8.encode_append, List.length_append, hslashes] <;>
      omega
  · rw [hnamed, hwalk]
    exact congrArg Except.ok (walk_eq_placeOf (by rw [hnamed, hwalk]))

end Disk

end BarrierStore
