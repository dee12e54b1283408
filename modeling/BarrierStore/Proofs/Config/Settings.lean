import BarrierStore.Config
import Mathlib.Data.List.Induction

/-!
# The order of settings

A configuration is made from the defaults by settings, one after the other. A path can be set by its
own setting and by that of a data directory, and the later of the two decides: a data directory that is
set behind a path takes that path away.

The module introduces:

* `PathField` — the four paths of a configuration, each with the name of its file in a data directory;
* `lastOf` — what the last setting of a kind says;
* `PathField.given?` — what a setting makes of a path, be it the path's own setting or a data directory;
* `PathField.preferred` — the path that its own setting decides wherever there is one, in any order;
* `directoriesFirst` — the same settings, with the data directories in front.

Main statements: `path_build`, `path_build_eq_preferred_iff` and `paths_of_settings`.
-/

namespace BarrierStore.Config

/-! ## The last setting of a kind -/

section LastOf

variable {β : Type} {f : Setting → Option β} {value : β}

/-- What the last of these settings of which `f` has a value says. -/
def lastOf (f : Setting → Option β) (settings : List Setting) : Option β :=
  settings.reverse.findSome? f

@[simp]
theorem lastOf_nil : lastOf f [] = none := rfl

/-- What the later settings give counts, and without that what the earlier ones give. -/
@[simp]
theorem lastOf_append (before after : List Setting) :
    lastOf f (before ++ after) = (lastOf f after).or (lastOf f before) := by
  simp only [lastOf, List.reverse_append, List.findSome?_append]

@[simp]
theorem lastOf_singleton (setting : Setting) : lastOf f [setting] = f setting := by
  cases h : f setting <;> simp [lastOf, h]

/-- Nothing is given if no setting gives anything. -/
theorem lastOf_eq_none_iff {settings : List Setting} :
    lastOf f settings = none ↔ ∀ setting ∈ settings, f setting = none := by
  simp [lastOf]

/-- A setting that decides has none of its kind behind it. -/
theorem exists_split_of_lastOf {settings : List Setting} (h : lastOf f settings = some value) :
    ∃ before setting after, settings = before ++ setting :: after ∧ f setting = some value ∧
      lastOf f after = none := by
  obtain ⟨after, setting, before, hsplit, hvalue, hnone⟩ := List.findSome?_eq_some_iff.mp h
  refine ⟨before.reverse, setting, after.reverse, ?_, hvalue, ?_⟩
  · rw [← List.reverse_reverse settings, hsplit]
    simp
  · exact lastOf_eq_none_iff.mpr fun other hother => hnone other (List.mem_reverse.mp hother)

/-- What the settings give depends on what each of them gives. -/
theorem lastOf_congr {g : Setting → Option β} {settings : List Setting}
    (h : ∀ setting ∈ settings, f setting = g setting) : lastOf f settings = lastOf g settings := by
  induction settings using List.reverseRecOn with
  | nil => rfl
  | append_singleton settings setting ih =>
    have hlast := h setting (by simp)
    have hfront := ih fun other hother => h other (List.mem_append_left _ hother)
    rw [lastOf_append, lastOf_append, hfront, lastOf_singleton, lastOf_singleton, hlast]

/-- Settings of other kinds may be left out. -/
theorem lastOf_filter {p : Setting → Bool} (h : ∀ setting, p setting = false → f setting = none)
    (settings : List Setting) : lastOf f (settings.filter p) = lastOf f settings := by
  induction settings using List.reverseRecOn with
  | nil => rfl
  | append_singleton settings setting ih =>
    rw [List.filter_append, lastOf_append, lastOf_append, ih, lastOf_singleton]
    cases hp : p setting with
    | true => simp [hp]
    | false => simp [hp, h setting hp]

end LastOf

/-! ## The paths -/

/-- A path of a configuration. -/
inductive PathField where
  /-- The log of the value index. -/
  | indexLog
  /-- What the names of all segment files start with. -/
  | segmentStem
  /-- The range of segments in use. -/
  | rangeFile
  /-- The log of the numeric index. -/
  | numberLog
  deriving DecidableEq

/-- The directory that a setting is about, if it sets a data directory. -/
def Setting.directory? : Setting → Option Path
  | .dataDirectory directory => some directory
  | _ => none

namespace PathField

/-- The path in a configuration. -/
def path (config : Config) : PathField → Path
  | indexLog => config.indexLog
  | segmentStem => config.segmentStem
  | rangeFile => config.rangeFile
  | numberLog => config.numberLog

/-- The name in a data directory. -/
def name : PathField → Path
  | indexLog => indexLogName
  | segmentStem => segmentStemName
  | rangeFile => rangeFileName
  | numberLog => numberLogName

/-- The path that a setting sets explicitly. -/
def explicit? : PathField → Setting → Option Path
  | indexLog, .indexLog path => some path
  | segmentStem, .segmentStem path => some path
  | rangeFile, .rangeFile path => some path
  | numberLog, .numberLog path => some path
  | _, _ => none

/-- What a setting makes of the path: its own value, or the name under a data directory. -/
def given? (field : PathField) (setting : Setting) : Option Path :=
  (field.explicit? setting).or (setting.directory?.map fun directory => directory.join field.name)

/-- The path where explicit paths win over data directories: that of the last explicit setting if there
is one, else the name under the last data directory, else the default. -/
def preferred (field : PathField) (settings : List Setting) : Path :=
  ((lastOf field.explicit? settings).or
    ((lastOf Setting.directory? settings).map fun directory => directory.join field.name)).getD
    (field.path default)

variable (field : PathField)

/-- A directory gives each path its name in the directory. -/
@[simp]
theorem path_withDirectory (config : Config) (directory : Path) :
    field.path (config.withDirectory directory) = directory.join field.name := by
  cases field <;> rfl

/-- A setting of the directory gives no path of its own. -/
theorem explicit?_of_directory? {setting : Setting} {directory : Path}
    (h : setting.directory? = some directory) : field.explicit? setting = none := by
  cases setting <;> cases field <;> first | rfl | cases h

/-- One setting: it gives the path, or leaves it as it is. -/
theorem path_set (config : Config) (setting : Setting) :
    field.path (config.set setting) = (field.given? setting).getD (field.path config) := by
  cases setting <;> cases field <;> rfl

/-- Settings in a row: the last one that gives the path decides. -/
theorem path_foldl_set (config : Config) (settings : List Setting) :
    field.path (settings.foldl set config) =
      (lastOf field.given? settings).getD (field.path config) := by
  induction settings using List.reverseRecOn with
  | nil => rfl
  | append_singleton settings setting ih =>
    rw [List.foldl_append, List.foldl_cons, List.foldl_nil, path_set, ih, lastOf_append,
      lastOf_singleton, Option.getD_or]

/-- A path is the last one that is given, or that of the defaults. -/
theorem path_build (settings : List Setting) :
    field.path (build settings) = (lastOf field.given? settings).getD (field.path default) :=
  field.path_foldl_set default settings

/-- Behind the last explicit setting, only data directories give the path. -/
theorem lastOf_given?_of_explicit {settings : List Setting}
    (h : lastOf field.explicit? settings = none) :
    lastOf field.given? settings =
      (lastOf Setting.directory? settings).map fun directory => directory.join field.name := by
  -- from the end of the settings, as the last one decides
  induction settings using List.reverseRecOn with
  | nil => rfl
  | append_singleton settings setting ih =>
    rw [lastOf_append, Option.or_eq_none_iff, lastOf_singleton] at h
    rw [lastOf_append, lastOf_append, ih h.2, lastOf_singleton, lastOf_singleton, given?, h.1]
    cases setting.directory? <;> rfl

/-- The last data directory behind the last explicit setting takes its path away, and only that does. -/
theorem path_build_eq_preferred_iff (settings : List Setting) :
    field.path (build settings) = field.preferred settings ↔
      ∀ before after path directory, settings = before ++ after →
        lastOf field.explicit? before = some path → lastOf field.explicit? after = none →
        lastOf Setting.directory? after = some directory → directory.join field.name = path := by
  rw [path_build, preferred]
  constructor
  · rintro heq before after path directory rfl hbefore hafter hdirectory
    simpa [hbefore, hafter, hdirectory, field.lastOf_given?_of_explicit hafter] using heq
  · intro h
    cases hexplicit : lastOf field.explicit? settings with
    | none =>
      rw [field.lastOf_given?_of_explicit hexplicit, Option.none_or]
    | some path =>
      -- behind the last explicit setting there are data directories, or nothing that counts
      obtain ⟨before, setting, after, rfl, hsetting, hafter⟩ := exists_split_of_lastOf hexplicit
      have hgiven : field.given? setting = some path := by rw [given?, hsetting]; rfl
      rw [← List.singleton_append, ← List.append_assoc, lastOf_append,
        field.lastOf_given?_of_explicit hafter, lastOf_append, lastOf_singleton, hgiven]
      cases hdirectory : lastOf Setting.directory? after with
      | none => rfl
      | some directory =>
        refine h (before ++ [setting]) after path directory ?_ ?_ hafter hdirectory
        · rw [List.append_assoc, List.singleton_append]
        · rw [lastOf_append, lastOf_singleton, hsetting]; rfl

end PathField

/-! ## Data directories in front -/

/-- The same settings, the data directories in front of all others. -/
def directoriesFirst (settings : List Setting) : List Setting :=
  settings.filter (·.directory?.isSome) ++ settings.filter (·.directory?.isNone)

namespace PathField

variable (field : PathField) (settings : List Setting)

/-- Of the settings of the directory the last one gives the path. -/
theorem lastOf_given?_filter_isSome :
    lastOf field.given? (settings.filter (·.directory?.isSome)) =
      (lastOf Setting.directory? settings).map fun directory => directory.join field.name := by
  have hexplicit : lastOf field.explicit? (settings.filter (·.directory?.isSome)) = none := by
    refine lastOf_eq_none_iff.mpr fun setting hmem => ?_
    obtain ⟨directory, hdirectory⟩ := Option.isSome_iff_exists.mp (List.mem_filter.mp hmem).2
    exact field.explicit?_of_directory? hdirectory
  rw [field.lastOf_given?_of_explicit hexplicit, lastOf_filter]
  exact fun setting h => by simpa using h

/-- Of the other settings, the last one that is for the path gives it. -/
theorem lastOf_given?_filter_isNone :
    lastOf field.given? (settings.filter (·.directory?.isNone)) =
      lastOf field.explicit? settings := by
  have hgiven : ∀ setting ∈ settings.filter (·.directory?.isNone),
      field.given? setting = field.explicit? setting := by
    intro setting hmem
    have hnone : setting.directory? = none :=
      Option.isNone_iff_eq_none.mp (List.mem_filter.mp hmem).2
    rw [given?, hnone, Option.map_none, Option.or_none]
  rw [lastOf_congr hgiven, lastOf_filter]
  intro setting h
  obtain ⟨directory, hdirectory⟩ := Option.isSome_iff_exists.mp
    (Option.isNone_eq_false_iff.mp h)
  exact field.explicit?_of_directory? hdirectory

/-- Data directories in front of the paths take none of them away. -/
theorem path_build_directoriesFirst :
    field.path (build (directoriesFirst settings)) = field.preferred settings := by
  rw [path_build, directoriesFirst, lastOf_append, lastOf_given?_filter_isSome,
    lastOf_given?_filter_isNone, preferred]

end PathField

/-! ## The paths after any settings -/

/-- After any settings, in any order, each path is what the last setting that gives it says: its own
setting or a data directory, whichever comes later, and the default where there is neither. Its own
settings win over all data directories unless the last of them has a data directory behind it that makes
it another path. With the data directories in front, its own settings win always. -/
theorem paths_of_settings (settings : List Setting) (field : PathField) :
    field.path (build settings) = (lastOf field.given? settings).getD (field.path default) ∧
      (field.path (build settings) = field.preferred settings ↔
        ∀ before after path directory, settings = before ++ after →
          lastOf field.explicit? before = some path → lastOf field.explicit? after = none →
          lastOf Setting.directory? after = some directory → directory.join field.name = path) ∧
      field.path (build (directoriesFirst settings)) = field.preferred settings :=
  ⟨field.path_build settings, field.path_build_eq_preferred_iff settings,
    field.path_build_directoriesFirst settings⟩

/-- A data directory takes the path away that was set in front of it, and not the one set behind it. -/
theorem directory_takes_path :
    PathField.indexLog.preferred [.indexLog (.ofString "a"), .dataDirectory (.ofString "d")] =
        .ofString "a" ∧
      PathField.indexLog.path
          (build [.indexLog (.ofString "a"), .dataDirectory (.ofString "d")]) =
        .ofString "d/index.log" ∧
      PathField.indexLog.path
          (build [.dataDirectory (.ofString "d"), .indexLog (.ofString "a")]) = .ofString "a" ∧
      Path.ofString "d/index.log" ≠ Path.ofString "a" := by
  decide

end BarrierStore.Config
