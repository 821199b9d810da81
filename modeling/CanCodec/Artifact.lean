import CanCodec.C.Dispatch
import CanCodec.Definition

/-! # Artifacts

The named texts that one run generates from a schema. -/

namespace CanCodec

inductive Role
  | records
  | dispatchDeclarations
  | dispatchImplementation
  | interchange
  deriving Repr, DecidableEq

structure Artifact where
  role : Role
  name : String
  content : String
  deriving Repr, DecidableEq

structure Generated where
  artifacts : List Artifact
  skipped : List LayoutFault

def Generated.get? (generated : Generated) (role : Role) : Option Artifact :=
  generated.artifacts.find? fun artifact => artifact.role = role

structure ArtifactNames where
  records : String := "endec.hpp"
  declarations : String := "transceiver.h"
  implementation : String := "transceiver.cpp"
  declarationsPath : String := "transceiver.h"

def ArtifactNames.tree : ArtifactNames where
  records := "endec_autogen.hpp"
  declarations := "transceiver_autogen.h"
  implementation := "transceiver_autogen.cpp"
  declarationsPath := "can_lib/transceiver_autogen.h"

namespace Artifact

def recordHeader (schema : Schema) (options : Options) (name : String) (codebook : Codebook) :
    Artifact :=
  ⟨.records, name, (C.recordHeader options schema.version name codebook.codecs).text⟩

def ofCodec (codec : Codec) : Artifact :=
  ⟨.interchange, Definition.stem codec ++ ".msg", Definition.text codec⟩

end Artifact

namespace Generated

def records (schema : Schema) (options : Options) (codebook : Codebook) : Generated where
  artifacts := [.recordHeader schema options ({} : ArtifactNames).records codebook]
  skipped := codebook.skipped

def dispatch (schema : Schema) (options : Options) (names : ArtifactNames)
    (codebook : Codebook) : Generated where
  artifacts :=
    [.recordHeader schema options names.records codebook,
      ⟨.dispatchDeclarations, names.declarations,
        (C.dispatchHeader options schema.version names.declarations names.records
          codebook.codecs).text⟩,
      ⟨.dispatchImplementation, names.implementation,
        (C.dispatchSource options schema.version names.declarationsPath
          codebook.codecs).text⟩]
  skipped := codebook.skipped

def interchange (codebook : Codebook) : Generated where
  artifacts := codebook.codecs.map .ofCodec
  skipped := codebook.skipped

end Generated

end CanCodec
