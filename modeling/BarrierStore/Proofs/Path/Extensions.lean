import BarrierStore.Proofs.Path.Names

/-!
# The file beside a file

A program that replaces a file writes the new contents to a file beside it, whose name has another
extension. For the replacement to be one, the two must differ. They do where the other extension has a
dot, since the extension of a name never has one.

The module introduces nothing but lemmas: how a name that ends in an extension is spelled
(`Path.eq_of_splitExtension`), and that the path of a file ends in a name
(`Disk.exists_endsIn_of_locate`).

Main statement: `Path.EndsIn.place_replaceExtension_ne`.
-/

namespace BarrierStore

namespace Path

/-- The last piece stands at the end of the path. -/
theorem exists_chars_of_pieces {path : Path} {front : List Piece} {last : Piece}
    (h : path.pieces = front ++ [last]) : ∃ before, path.chars = before ++ last := by
  have hwhole : path.chars = ['/'].intercalate (front ++ [last]) := by
    rw [← h, pieces, List.intercalate_splitOn]
  rw [hwhole]
  clear h hwhole
  induction front with
  | nil => exact ⟨[], by simp [List.intercalate]⟩
  | cons piece rest ih =>
    obtain ⟨before, hbefore⟩ := ih
    obtain ⟨next, others, hrest⟩ : ∃ next others, rest ++ [last] = next :: others :=
      List.exists_cons_of_ne_nil (by simp)
    refine ⟨piece ++ ['/'] ++ before, ?_⟩
    rw [List.cons_append, hrest, List.intercalate_cons_cons, ← hrest, hbefore, ← List.append_assoc]

/-- With a proper name behind them, pieces are the path of that name in their directory. -/
theorem place_ofPieces {front : List Piece} {name : Piece} (hfront : ∀ piece ∈ front, '/' ∉ piece)
    (hslash : '/' ∉ name) (hproper : Proper name) :
    (ofPieces (front ++ [name])).place = name :: placeOf front := by
  refine EndsIn.place_eq ⟨?_, hproper⟩
  rw [pieces, ofPieces, List.splitOn_intercalate '/' _ (by simp)]
  intro piece hpiece
  rcases List.mem_append.mp hpiece with hold | hnew
  · exact hfront piece hold
  · rwa [List.mem_singleton.mp hnew]

/-- A name with a stem and an extension is longer than those that mean a directory. -/
theorem proper_extended {stem extension : Piece} (hstem : stem ≠ []) (hextension : extension ≠ []) :
    Proper (stem ++ '.' :: extension) := by
  obtain ⟨c, stem, rfl⟩ := List.exists_cons_of_ne_nil hstem
  obtain ⟨d, extension, rfl⟩ := List.exists_cons_of_ne_nil hextension
  have hlong : ∀ other : Piece, other.length ≤ 2 →
      (c :: stem) ++ '.' :: d :: extension ≠ other := by
    rintro other hother rfl
    simp only [List.length_append, List.length_cons] at hother
    omega
  exact ⟨hlong _ (by simp), hlong _ (by simp [dot]), hlong _ (by simp [dotDot])⟩

/-! ## Stems -/

/-- An extension that was split off a name stands behind its last dot. -/
theorem eq_of_splitExtension {name stem extension : Piece}
    (h : splitExtension name = (stem, some extension)) :
    name = stem ++ '.' :: extension ∧ stem ≠ [] ∧ '.' ∉ extension := by
  unfold splitExtension at h
  split at h
  · cases h
  · cases h
  rename_i c before hne hdrop
  cases h
  -- the name is read from its end, up to the first dot
  have hc : c = '.' := by
    have hfilled : name.reverse.dropWhile (· ≠ '.') ≠ [] := by rw [hdrop]; simp
    have hhead := List.head_dropWhile_not (· ≠ '.') hfilled
    simpa only [hdrop, List.head_cons, decide_eq_false_iff_not, not_not] using hhead
  subst hc
  have hname : name.reverse = name.reverse.takeWhile (· ≠ '.') ++ '.' :: before := by
    rw [← hdrop, List.takeWhile_append_dropWhile]
  refine ⟨?_, ?_, fun hmem => ?_⟩
  · simpa using congrArg List.reverse hname
  · intro hnil
    exact hne rfl (List.reverse_eq_nil_iff.mp hnil)
  · have hplain := List.all_eq_true.mp List.all_takeWhile '.' (List.mem_reverse.mp hmem)
    simp at hplain

/-- A name without an extension is its own stem. -/
theorem eq_stem_of_splitExtension {name stem : Piece} (h : splitExtension name = (stem, none)) :
    stem = name := by
  unfold splitExtension at h
  split at h <;> cases h <;> rfl

/-- Behind a stem, a dot alone is an empty extension. -/
theorem splitExtension_concat_dot {stem : Piece} (h : stem ≠ []) :
    splitExtension (stem ++ ['.']) = (stem, some []) := by
  obtain ⟨c, rest, hrest⟩ := List.exists_cons_of_ne_nil (l := stem.reverse) (by simp [h])
  unfold splitExtension
  rw [List.reverse_append, List.reverse_singleton, List.singleton_append,
    List.dropWhile_cons_of_neg (by simp), List.takeWhile_cons_of_neg (by simp), hrest]
  show ((c :: rest).reverse, some []) = _
  rw [← hrest, List.reverse_reverse]

variable {path : Path} {front : List Piece} {name : Piece}

theorem EndsIn.slash_not_mem (h : path.EndsIn front name) :
    (∀ piece ∈ front, '/' ∉ piece) ∧ '/' ∉ name :=
  ⟨fun piece hpiece => @slash_not_mem_of_mem_pieces path piece (by simp [h.pieces_eq, hpiece]),
    @slash_not_mem_of_mem_pieces path name (by simp [h.pieces_eq])⟩

/-- Without its extension a path ends in the dot. -/
theorem EndsIn.pieces_take {stem extension : Piece}
    (h : path.EndsIn front (stem ++ '.' :: extension)) :
    pieces ⟨path.chars.take (path.chars.length - extension.length)⟩ = front ++ [stem ++ ['.']] := by
  obtain ⟨before, hchars⟩ := exists_chars_of_pieces h.pieces_eq
  have hsplit : path.chars = (before ++ (stem ++ ['.'])) ++ extension := by simp [hchars]
  have htake : path.chars.take (path.chars.length - extension.length) =
      before ++ (stem ++ ['.']) := by
    rw [hsplit, List.length_append, Nat.add_sub_cancel, List.take_left]
  have hslash : '/' ∉ extension := fun hmem => h.slash_not_mem.2 (by simp [hmem])
  -- what was cut off goes to the last piece again
  obtain ⟨front', last, hpieces, hextended⟩ :=
    exists_pieces_extend ⟨before ++ (stem ++ ['.'])⟩ hslash
  have hpath : extend ⟨before ++ (stem ++ ['.'])⟩ extension = path := by
    rw [extend, ← hsplit]
  rw [hpath, h.pieces_eq] at hextended
  obtain ⟨rfl, hlast⟩ := List.append_inj' hextended rfl
  have hlast : (stem ++ ['.']) ++ extension = last ++ extension := by simpa using hlast
  rw [htake, hpieces, List.append_cancel_right hlast]

/-! ## Beside a file -/

/-- The file beside another one is another one, if its extension has a dot. -/
theorem EndsIn.place_replaceExtension_ne (h : path.EndsIn front name) {extension : List Char}
    (hdot : '.' ∈ extension) (hslash : '/' ∉ extension) :
    (path.replaceExtension extension).place ≠ path.place := by
  have hne : extension ≠ [] := List.ne_nil_of_mem hdot
  obtain ⟨hfront, hname⟩ := h.slash_not_mem
  rw [h.place_eq, replaceExtension, extension?, h.fileName?_eq]
  dsimp only [bind, Option.bind]
  rcases hsplit : splitExtension name with ⟨stem, _ | old⟩
  · -- a name without an extension gets longer
    obtain rfl := eq_stem_of_splitExtension hsplit
    dsimp only
    rw [setExtension, h.fileName?_eq]
    dsimp only
    rw [hsplit, place_ofPieces hfront (by simp [hname, hslash])
      (proper_extended h.proper.ne_nil hne)]
    simp
  obtain ⟨rfl, hstem, hold⟩ := eq_of_splitExtension hsplit
  have hpieces := h.pieces_take
  dsimp only
  generalize path.chars.take (path.chars.length - old.length) = chars at hpieces ⊢
  rw [setExtension]
  by_cases hup : stem = ['.']
  · -- what is left of the name is the way up, and names no file
    subst hup
    have hnone : fileName? ⟨chars⟩ = none := by
      rw [fileName?, hpieces]
      simp [dot, dotDot]
    have hplace : place ⟨chars⟩ = (placeOf front).tail := by
      rw [place, hpieces]
      simp [placeOf, step, dot, dotDot]
    rw [hnone]
    dsimp only
    rw [hplace]
    intro heq
    have hlength := congrArg List.length heq
    simp at hlength
  · have hproper : Proper (stem ++ ['.']) := by
      obtain ⟨c, rest, rfl⟩ := List.exists_cons_of_ne_nil hstem
      refine ⟨by simp, by simp [dot], fun heq => hup ?_⟩
      simpa [dotDot] using heq
    have hslashStem : '/' ∉ stem := fun hmem => hname (by simp [hmem])
    rw [EndsIn.fileName?_eq ⟨hpieces, hproper⟩]
    dsimp only
    rw [splitExtension_concat_dot hstem, place_ofPieces hfront (by simp [hslashStem, hslash])
      (proper_extended hstem hne)]
    intro heq
    have hsame : extension = old := by simpa using heq
    exact hold (hsame ▸ hdot)

end Path

namespace Disk

/-- A path that leads to a name without promising a directory ends in that name. -/
theorem exists_endsIn_of_locate {disk : Disk} {path : Path} {place : Location}
    (h : disk.locate path = .ok (.name place false)) : ∃ front name, path.EndsIn front name := by
  unfold locate at h
  split at h
  · cases h
  split at h
  · cases h
  rename_i hfilled
  split at h
  · cases h
  split at h
  · cases h
  rename_i last before hreverse
  simp only [bind, Except.bind] at h
  split at h
  · cases h
  split at h
  · split at h <;> cases h
  rename_i hplain
  have hslashes : ¬ path.chars.getLast? = some '/' := by
    simpa [pure, Except.pure] using (Target.name.inj (Except.ok.inj h)).2
  -- the last character is no slash, so it is part of the last piece
  obtain ⟨chars, c, hchars⟩ := (List.eq_nil_or_concat path.chars).resolve_left hfilled
  rw [List.concat_eq_append] at hchars
  have hc : c ≠ '/' := by
    rintro rfl
    exact hslashes (by simp [hchars])
  have hslash : '/' ∉ [c] := by simp [Ne.symm hc]
  obtain ⟨front, piece, -, hpieces⟩ := Path.exists_pieces_extend ⟨chars⟩ hslash
  have hpath : Path.extend ⟨chars⟩ [c] = path := by rw [Path.extend, ← hchars]
  rw [hpath] at hpieces
  have hlast : last = piece ++ [c] := by
    rw [hpieces, List.filter_append, List.reverse_append] at hreverse
    simp at hreverse
    exact hreverse.1.symm
  refine ⟨front, piece ++ [c], hpieces, by simp, fun heq => hplain (.inl ?_),
    fun heq => hplain (.inr ?_)⟩
  · rw [hlast, heq]
  · rw [hlast, heq]

end Disk

end BarrierStore
