import CanCodec.CommandLine.Run
import CanCodec.Proofs.Split

/-! # Files that a command writes

Where a path leads depends on the path alone, as long as it leads anywhere. So a run that
writes all its files leaves under each path the last text that was written there. -/

namespace CanCodec

/-! ## Paths -/

namespace FilePath

structure IsName (name : String) : Prop where
  nonempty : name ≠ ""
  notSelf : name ≠ "."
  notParent : name ≠ ".."
  noSlash : '/' ∉ name.toList

theorem exists_split_join (directory name : String) (noSlash : '/' ∉ name.toList) :
    ∃ parts, Text.split '/' (join directory name).toList = parts ++ [name.toList] ∧
      parts.filter (fun part => !part.isEmpty && part != ['.']) =
        (Text.split '/' directory.toList).filter
          (fun part => !part.isEmpty && part != ['.']) := by
  rw [join]
  split
  next empty =>
    rw [List.getLast?_eq_none_iff] at empty
    exact ⟨[], Text.split_of_notMem noSlash, by rw [empty]; rfl⟩
  next ended =>
    rcases List.getLast?_eq_some_iff.mp ended with ⟨before, directoryEqual⟩
    refine ⟨Text.split '/' before, ?_, ?_⟩
    · rw [String.toList_append, directoryEqual, List.append_assoc, List.singleton_append,
        Text.split_append_separator, Text.split_of_notMem noSlash]
    · rw [directoryEqual, Text.split_append_separator, List.filter_append]
      simp [Text.split]
  next =>
    refine ⟨Text.split '/' directory.toList, ?_, rfl⟩
    rw [String.toList_append, String.toList_append, List.append_assoc]
    exact (Text.split_append_separator '/' directory.toList name.toList).trans
      (congrArg _ (Text.split_of_notMem noSlash))

theorem components_join (directory : String) {name : String} (isName : IsName name) :
    components (join directory name) = components directory ++ [name] := by
  rcases exists_split_join directory name isName.noSlash with ⟨parts, split, filtered⟩
  have nonempty : name.toList.isEmpty = false := by
    rw [List.isEmpty_eq_false_iff]
    exact fun empty => isName.nonempty (String.toList_inj.mp empty)
  have notSelf : name.toList ≠ ['.'] := fun equal => isName.notSelf (String.toList_inj.mp equal)
  rw [components, split, List.filter_append, filtered, List.map_append, components]
  simp [nonempty, notSelf]

theorem namesDirectory_join (directory : String) {name : String} (isName : IsName name) :
    namesDirectory (join directory name) = false := by
  rcases exists_split_join directory name isName.noSlash with ⟨parts, split, -⟩
  have nonempty : name.toList ≠ [] := fun empty => isName.nonempty (String.toList_inj.mp empty)
  have notSelf : name.toList ≠ ['.'] := fun equal => isName.notSelf (String.toList_inj.mp equal)
  have notParent : name.toList ≠ ['.', '.'] :=
    fun equal => isName.notParent (String.toList_inj.mp equal)
  rw [namesDirectory, split, List.getLast?_concat]
  simp [nonempty, notSelf, notParent]

theorem isAbsolute_join (directory : String) {name : String} (isName : IsName name) :
    isAbsolute (join directory name) = isAbsolute directory := by
  have relative : name.toList.head? ≠ some '/' :=
    fun starts => isName.noSlash (List.mem_of_head? starts)
  rw [isAbsolute, isAbsolute, join]
  split
  next empty =>
    rw [List.getLast?_eq_none_iff] at empty
    simp [empty, relative]
  all_goals
    cases directoryEqual : directory.toList with
    | nil => simp_all
    | cons => simp [directoryEqual]

end FilePath

/-! ## Trees -/

namespace FileTree

def location (path : String) : Location := (FilePath.components path).foldl enter (origin path)

theorem location_join (directory : String) {name : String} (isName : FilePath.IsName name) :
    location (FilePath.join directory name) = location directory ++ [name] := by
  rw [location, FilePath.components_join directory isName, List.foldl_append, origin,
    FilePath.isAbsolute_join directory isName]
  simp [location, enter, isName.notParent, origin]

def Extends (later earlier : FileTree) : Prop :=
  ∀ location, earlier.isDirectory location = true → later.isDirectory location = true

theorem Extends.rfl {tree : FileTree} : tree.Extends tree := fun _ isDirectory => isDirectory

theorem Extends.trans {first second third : FileTree} (later : third.Extends second)
    (earlier : second.Extends first) : third.Extends first :=
  fun location isDirectory => later location (earlier location isDirectory)

theorem follow_eq_some {tree : FileTree} {start target : Location} {components : List String}
    (followed : tree.follow start components = some target) :
    target = components.foldl enter start := by
  induction components generalizing start with
  | nil => exact (Option.some.inj followed).symm
  | cons component rest induction =>
      rw [follow] at followed
      split at followed
      · exact induction followed
      · cases followed

theorem resolve_eq_some {tree : FileTree} {path : String} {target : Location}
    (resolved : tree.resolve path = some target) : target = location path :=
  follow_eq_some resolved

theorem Extends.follow {later earlier : FileTree} (extension : later.Extends earlier)
    {start target : Location} {components : List String}
    (followed : earlier.follow start components = some target) :
    later.follow start components = some target := by
  induction components generalizing start with
  | nil => exact followed
  | cons component rest induction =>
      rw [FileTree.follow] at followed ⊢
      split at followed
      next isDirectory =>
        rw [if_pos (extension start isDirectory)]
        exact induction followed
      next => cases followed

theorem extends_of_makeAlong {tree made : FileTree} {start : Location} {components : List String}
    (succeeded : tree.makeAlong start components = some made) :
    made.files = tree.files ∧ made.Extends tree := by
  induction components generalizing tree start with
  | nil =>
      cases succeeded
      exact ⟨rfl, .rfl⟩
  | cons component rest induction =>
      rw [makeAlong] at succeeded
      split at succeeded
      · cases succeeded
      split at succeeded
      · exact induction succeeded
      · rcases induction succeeded with ⟨files, extension⟩
        refine ⟨files, extension.trans fun location isDirectory => ?_⟩
        simp only [FileTree.isDirectory, List.contains_cons, Bool.or_eq_true] at isDirectory ⊢
        grind

theorem extends_of_write {tree written : FileTree} {path content : String}
    (succeeded : tree.write path content = some written) :
    written.files = tree.files.insert (location path) content ∧ written.Extends tree ∧
      written.resolve path = some (location path) := by
  simp only [write, Option.bind_eq_bind] at succeeded
  rcases Option.bind_eq_some_iff.mp succeeded with ⟨target, resolved, stored⟩
  have isLocation := resolve_eq_some resolved
  subst isLocation
  split at stored
  · cases stored
  cases stored
  have extension : ({ tree with files := tree.files.insert (location path) content } :
      FileTree).Extends tree := by
    intro place isDirectory
    simp only [FileTree.isDirectory, Bool.or_eq_true, List.any_eq_true] at isDirectory ⊢
    rcases isDirectory with known | ⟨file, member, within⟩
    · exact .inl known
    · exact .inr ⟨file, mem_keys_upsert.mpr (.inr member), within⟩
  exact ⟨rfl, extension, extension.follow resolved⟩

end FileTree

/-! ## Runs -/

namespace Command

open FileTree

theorem extends_of_writeFile {tree written : FileTree} {path content : String}
    (succeeded : writeFile tree path content = (written, none)) :
    written.files = tree.files.insert (location path) content ∧ written.Extends tree ∧
      written.resolve path = some (location path) := by
  rw [writeFile] at succeeded
  split at succeeded
  · cases succeeded
  next prepared made =>
    split at succeeded
    · cases succeeded
    next stored =>
      cases succeeded
      rcases extends_of_makeAlong made with ⟨files, prepares⟩
      rcases extends_of_write stored with ⟨writtenFiles, extension, resolved⟩
      exact ⟨by rw [writtenFiles, files], extension.trans prepares, resolved⟩

theorem files_of_writeFiles {tree written : FileTree} {files : List (String × String)}
    (succeeded : writeFiles tree files = (written, none)) :
    written.files =
        files.foldl (fun values file => values.insert (location file.1) file.2) tree.files ∧
      written.Extends tree ∧
      ∀ file ∈ files, written.resolve file.1 = some (location file.1) := by
  induction files generalizing tree with
  | nil =>
      cases succeeded
      exact ⟨rfl, .rfl, by simp⟩
  | cons file rest induction =>
      rw [writeFiles] at succeeded
      split at succeeded
      next next first =>
        rcases extends_of_writeFile first with ⟨files, extension, resolved⟩
        rcases induction succeeded with ⟨others, later, resolves⟩
        refine ⟨by rw [others, files, List.foldl_cons], later.trans extension, ?_⟩
        intro other member
        rcases List.mem_cons.mp member with rfl | member
        · exact later.follow resolved
        · exact resolves other member
      next failed => exact absurd succeeded (failed written)

/-- After a run that writes its files into one directory, each name holds the last text
written under it. -/
theorem read?_of_writeFiles {tree written : FileTree} {directory : String}
    {entries : List (String × String)} (names : ∀ entry ∈ entries, FilePath.IsName entry.1)
    (succeeded : writeFiles tree
      (entries.map fun entry => (FilePath.join directory entry.1, entry.2)) = (written, none))
    {entry : String × String} (member : entry ∈ entries) :
    written.read? (FilePath.join directory entry.1) = (OrderedMap.ofList entries).get? entry.1 := by
  rcases files_of_writeFiles succeeded with ⟨files, -, resolves⟩
  have isName := names entry member
  have resolved := resolves (FilePath.join directory entry.1, entry.2)
    (List.mem_map.mpr ⟨entry, member, rfl⟩)
  -- The locations that are set, in the order of the entries.
  have stored : written.files =
      (entries.map fun entry => (location (FilePath.join directory entry.1), entry.2)).foldl
        (fun values pair => values.insert pair.1 pair.2) tree.files := by
    rw [files, List.foldl_map, List.foldl_map]
  have sameLocation : ∀ other ∈ entries,
      location (FilePath.join directory other.1) = location (FilePath.join directory entry.1) ↔
        other.1 = entry.1 := by
    intro other otherMember
    rw [location_join directory isName, location_join directory (names other otherMember)]
    simp
  have selected : (entries.filter fun other =>
        decide (location (FilePath.join directory other.1) =
          location (FilePath.join directory entry.1))) =
      entries.filter fun other => decide (other.1 = entry.1) :=
    List.filter_congr fun other otherMember => decide_eq_decide.mpr (sameLocation other otherMember)
  have nonempty : (entries.filter fun other => decide (other.1 = entry.1)) ≠ [] :=
    List.ne_nil_of_mem (List.mem_filter.mpr ⟨member, decide_eq_true rfl⟩)
  rcases Option.isSome_iff_exists.mp (List.getLast?_isSome.mpr nonempty) with ⟨last, isLast⟩
  rw [FileTree.read?, resolved]
  simp only [Option.bind_eq_bind, Option.bind_some, FilePath.namesDirectory_join directory isName,
    Bool.false_eq_true, if_false]
  rw [stored, OrderedMap.get?_foldl_insert, OrderedMap.get?_ofList, List.filter_map,
    List.getLast?_map, Function.comp_def, selected, isLast]
  rfl

end Command

end CanCodec
