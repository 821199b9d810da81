import CanCodec.C.Document
import CanCodec.Codebook
import CanCodec.Text.Identifier

/-! # Names in generated C

Every name of a message starts with the name of the database. -/

namespace CanCodec.C

def baseName (options : Options) (message : Message) : String :=
  options.database ++ "_" ++ Identifier.ofCamel message.name

def macroName (options : Options) (message : Message) : String :=
  Identifier.upper (baseName options message)

def memberName (signal : Signal) : String := Identifier.ofCamel signal.name

def signalName (options : Options) (message : Message) (signal : Signal) : String :=
  baseName options message ++ "_" ++ memberName signal

def recordTag (options : Options) (message : Message) : String :=
  baseName options message ++ "_t"

def packName (options : Options) (message : Message) : String :=
  baseName options message ++ "_pack"

def unpackName (options : Options) (message : Message) : String :=
  baseName options message ++ "_unpack"

def encodeName (options : Options) (message : Message) (signal : Signal) : String :=
  signalName options message signal ++ "_encode"

def decodeName (options : Options) (message : Message) (signal : Signal) : String :=
  signalName options message signal ++ "_decode"

def rangeName (options : Options) (message : Message) (signal : Signal) : String :=
  signalName options message signal ++ "_is_in_range"

def databaseMacro (options : Options) : String := Identifier.upper options.database

def guardName (options : Options) (fileName : String) : String :=
  databaseMacro options ++ "_" ++ String.ofList (fileName.toList.map fun character =>
    if character.isAlphanum then character.toUpper else '_')

def banner (options : Options) (version : Option String) (content : String) : Document :=
  [.comment "" "/*"
    ([docLine "Auto-generated by can_endec_gen.", docLine s!"Database: {options.database}",
        docLine content] ++
      (version.map fun version => docLine s!"Catalog version: {version}").toList ++
      if options.packed then [docLine "Records use bit fields."] else []),
    .blank]

end CanCodec.C
