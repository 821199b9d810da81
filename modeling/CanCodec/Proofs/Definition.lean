import CanCodec.Proofs.Codebook.Partition
import CanCodec.Proofs.FileTree
import CanCodec.Proofs.Identifier
import CanCodec.Proofs.OrderedMap

/-! # Definitions under their names

Each message of a plan has one definition. The names of the definitions are shortened names
of the messages; what is kept by name, in a map or in files, is complete exactly when the
shortened names are distinct. -/

namespace CanCodec

/-! ## File names -/

namespace Definition

def fileName (codec : Codec) : String := stem codec ++ ".msg"

theorem isName_fileName (codec : Codec) : FilePath.IsName (fileName codec) := by
  have characters : (fileName codec).toList = (stem codec).toList ++ ['.', 'm', 's', 'g'] :=
    String.toList_append
  have long : 3 < (fileName codec).toList.length := by
    rw [characters, List.length_append]
    exact Nat.lt_of_lt_of_le (by decide) (Nat.le_add_left 4 _)
  constructor
  case noSlash =>
    rw [characters, List.mem_append]
    rintro (inStem | inSuffix)
    · exact absurd (Identifier.isAlphanum_of_mem_pascal inStem) (by decide)
    · exact absurd inSuffix (by decide)
  all_goals
    intro equal
    rw [equal] at long
    exact absurd long (by decide)

theorem fileName_inj {first second : Codec} :
    fileName first = fileName second ↔ stem first = stem second := by
  rw [fileName, fileName, ← String.toList_inj, String.toList_append, String.toList_append,
    List.append_left_inj, String.toList_inj]

def entries (codebook : Codebook) : List (String × String) :=
  codebook.codecs.map fun codec => (fileName codec, text codec)

def Distinct (codebook : Codebook) : Prop := (codebook.codecs.map stem).Nodup

instance (codebook : Codebook) : Decidable (Distinct codebook) :=
  inferInstanceAs (Decidable (List.Nodup _))

def artifact (entry : String × String) : Artifact := ⟨.interchange, entry.1 ++ ".msg", entry.2⟩

theorem map_artifact_inj {first second : List (String × String)} :
    first.map artifact = second.map artifact ↔ first = second := by
  refine List.map_inj_right fun left right same => ?_
  rw [artifact, artifact, Artifact.mk.injEq, ← String.toList_inj, String.toList_append,
    String.toList_append, List.append_left_inj, String.toList_inj] at same
  exact Prod.ext same.2.1 same.2.2

theorem artifacts_interchange (codebook : Codebook) :
    (Generated.interchange codebook).artifacts =
      (codebook.codecs.map fun codec => (stem codec, text codec)).map artifact := by
  rw [List.map_map]
  rfl

theorem nodup_fileNames_iff {codebook : Codebook} :
    (codebook.codecs.map fileName).Nodup ↔ Distinct codebook := by
  simp only [Distinct, List.Nodup, List.pairwise_map, fileName_inj, ne_eq]

theorem get?_entries (codebook : Codebook) (codec : Codec) :
    (OrderedMap.ofList (entries codebook)).get? (fileName codec) =
      (all codebook).get? (stem codec) := by
  rw [entries, all, OrderedMap.get?_ofList, OrderedMap.get?_ofList, List.filter_map,
    List.filter_map, List.getLast?_map, List.getLast?_map, Option.map_map, Option.map_map]
  simp only [Function.comp_def, fileName_inj]

theorem get?_all_of_distinct {codebook : Codebook} (distinct : Distinct codebook) {codec : Codec}
    (member : codec ∈ codebook.codecs) :
    (all codebook).get? (stem codec) = some (text codec) := by
  refine OrderedMap.get?_ofList_of_mem ?_ (List.mem_map.mpr ⟨codec, member, rfl⟩)
  rw [List.map_map]
  exact distinct

/-- A run that fails nowhere leaves in each of its files what the map holds under the name. -/
theorem read?_run {command : Command} {tree : FileTree} {schema : Schema} {codebook : Codebook}
    {directory : String}
    (loaded : command.source.load (tree.read? command.source.path) = .ok schema)
    (planned : Codebook.plan schema command.source.options = .ok codebook)
    (task : command.task = .definitions directory)
    (succeeded : (command.run tree).problem? = none) {codec : Codec}
    (member : codec ∈ codebook.codecs) :
    (command.run tree).tree.read? (FilePath.join directory (fileName codec)) =
      (all codebook).get? (stem codec) := by
  have performed : command.perform (tree.read? command.source.path) =
      (codebook.events, .ok (.definitions directory codebook)) := by
    rw [Command.perform, loaded, task]
    simp only [Task.perform, withCodebook, planned]
    rfl
  have files : (Product.definitions directory codebook).files =
      (entries codebook).map fun entry => (FilePath.join directory entry.1, entry.2) := by
    rw [entries, List.map_map, Product.definitions, Product.place, artifacts_interchange,
      List.map_map, List.map_map]
    rfl
  have names : ∀ entry ∈ entries codebook, FilePath.IsName entry.1 := by
    intro entry entryMember
    rcases List.mem_map.mp entryMember with ⟨other, -, rfl⟩
    exact isName_fileName other
  rw [Command.run, performed] at succeeded ⊢
  simp only [files] at succeeded ⊢
  split at succeeded
  · cases succeeded
  next written stored =>
    exact (Command.read?_of_writeFiles names stored
      (List.mem_map.mpr ⟨codec, member, rfl⟩)).trans (get?_entries codebook codec)

/-- The artifacts of a plan are one definition for each message in its frame, in catalog
order. The map of the same definitions has all of them, in the same order and with the same
texts, exactly when their names are distinct, and so are then the names of the files. In
any case a run that fails nowhere leaves in each file what the map holds: the text of the
last message with the name, which is the message's own if the names are distinct. -/
theorem definitions_kept_iff_distinct (schema : Schema) (options : Options) (codebook : Codebook)
    (planned : Codebook.plan schema options = .ok codebook) :
    codebook.codecs.map Codec.message =
        schema.messages.filter (fun message => message.InFrame) ∧
      (Generated.interchange codebook).artifacts = codebook.codecs.map
        (fun codec => ⟨.interchange, stem codec ++ ".msg", text codec⟩) ∧
      ((all codebook).size = codebook.codecs.length ↔ Distinct codebook) ∧
      ((all codebook).entries.map artifact = (Generated.interchange codebook).artifacts ↔
        Distinct codebook) ∧
      (((Generated.interchange codebook).artifacts.map Artifact.name).Nodup ↔
        Distinct codebook) ∧
      ∀ (command : Command) (tree : FileTree) (directory : String),
        command.source.options = options →
        command.source.load (tree.read? command.source.path) = .ok schema →
        command.task = .definitions directory → (command.run tree).problem? = none →
        ((codebook.codecs.map fun codec =>
          FileTree.location (FilePath.join directory (stem codec ++ ".msg"))).Nodup ↔
            Distinct codebook) ∧
        ∀ codec ∈ codebook.codecs,
          (command.run tree).tree.read? (FilePath.join directory (stem codec ++ ".msg")) =
              ((codebook.codecs.filter fun other => stem other = stem codec).getLast?).map text ∧
            (Distinct codebook →
              (command.run tree).tree.read? (FilePath.join directory (stem codec ++ ".msg")) =
                some (text codec)) := by
  have keys : (codebook.codecs.map fun codec => (stem codec, text codec)).map Prod.fst =
      codebook.codecs.map stem := by
    rw [List.map_map]
    rfl
  refine ⟨Codebook.map_message_codecs planned, rfl, ?_, ?_, ?_, ?_⟩
  · rw [Distinct, ← keys, ← OrderedMap.size_ofList_eq_iff, List.length_map, all]
  · rw [artifacts_interchange, map_artifact_inj, all, OrderedMap.entries_ofList_eq_iff, keys]
    rfl
  · rw [← nodup_fileNames_iff, artifacts_interchange, List.map_map, List.map_map]
    rfl
  · intro command tree directory sameOptions loaded task succeeded
    have read : ∀ codec ∈ codebook.codecs,
        (command.run tree).tree.read? (FilePath.join directory (stem codec ++ ".msg")) =
          (all codebook).get? (stem codec) := fun codec member =>
      read?_run loaded (sameOptions ▸ planned) task succeeded member
    refine ⟨?_, fun codec member => ⟨?_, fun distinct => ?_⟩⟩
    · have locations : ∀ codec, FileTree.location (FilePath.join directory (stem codec ++ ".msg")) =
          FileTree.location directory ++ [fileName codec] :=
        fun codec => FileTree.location_join directory (isName_fileName codec)
      simp only [← nodup_fileNames_iff, List.Nodup, List.pairwise_map, locations, ne_eq,
        List.append_cancel_left_eq, List.cons.injEq, and_true]
    · rw [read codec member, all, OrderedMap.get?_ofList, List.filter_map, List.getLast?_map,
        Option.map_map]
      rfl
    · rw [read codec member, get?_all_of_distinct distinct member]

def byteMessage (frameId : Nat) (name : String) : Message where
  frameId := frameId
  name := name
  length := 1
  signals := []

def byteCodec (frameId : Nat) (name : String) : Codec where
  message := byteMessage frameId name
  layout := .ofPlan name false []

def wheelSchema : Schema where
  version := none
  messages := [byteMessage 1 "wheel_speed", byteMessage 2 "brake"]
  sound := by decide

def wheelCodebook : Codebook := ⟨[byteCodec 1 "wheel_speed", byteCodec 2 "brake"], []⟩

def wheelTree : FileTree :=
  .ofFiles [("can.json", "\x7b\"messages\":[\x7b\"name\":\"wheel_speed\",\"frame_id\":1,\"length\":1\x7d,\x7b\"name\":\"brake\",\"frame_id\":2,\"length\":1\x7d]\x7d")]

def wheelCommand : Command where
  source := { path := "can.json" }
  task := .definitions "out"

theorem definitions_kept_iff_distinct_wheel :
    Codebook.plan wheelSchema wheelCommand.source.options = .ok wheelCodebook ∧
      (wheelCommand.run wheelTree).tree.read? "out/WheelSpeed.msg" =
        some "# wheel_speed (frame id 0x1, 1 bytes)\n" := by
  have planned : Codebook.plan wheelSchema wheelCommand.source.options = .ok wheelCodebook := by rfl
  have loaded : wheelCommand.source.load (wheelTree.read? wheelCommand.source.path) =
      .ok wheelSchema := by rfl
  have distinct : Distinct wheelCodebook := by decide
  have kept := definitions_kept_iff_distinct wheelSchema _ wheelCodebook planned
  have files := kept.2.2.2.2.2 wheelCommand wheelTree "out" rfl loaded rfl (by decide +kernel)
  exact ⟨planned, (files.2 _ List.mem_cons_self).2 distinct⟩

def collidingSchema : Schema where
  version := none
  messages := [byteMessage 1 "wheel_speed", byteMessage 2 "WheelSpeed"]
  sound := by decide

def collidingCodebook : Codebook := ⟨[byteCodec 1 "wheel_speed", byteCodec 2 "WheelSpeed"], []⟩

/-- Two messages with one shortened name: one entry, and two artifacts of one name. -/
theorem definition_lost_colliding :
    Codebook.plan collidingSchema {} = .ok collidingCodebook ∧
      (all collidingCodebook).entries =
        [("WheelSpeed", "# WheelSpeed (frame id 0x2, 1 bytes)\n")] ∧
      (Generated.interchange collidingCodebook).artifacts =
        [⟨.interchange, "WheelSpeed.msg", "# wheel_speed (frame id 0x1, 1 bytes)\n"⟩,
          ⟨.interchange, "WheelSpeed.msg", "# WheelSpeed (frame id 0x2, 1 bytes)\n"⟩] :=
  ⟨by rfl, by decide +kernel, by decide +kernel⟩

end Definition

end CanCodec
