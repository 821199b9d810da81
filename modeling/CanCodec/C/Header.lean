import CanCodec.C.Coding
import CanCodec.C.Conversion
import CanCodec.C.Declarations

/-! # The record header

One header holds the macros, the records and the functions of all messages. -/

namespace CanCodec.C

def linkageStart : Item := .code "#ifdef __cplusplus\nextern \"C\" \x7b\n#endif"

def linkageEnd : Item := .code "#ifdef __cplusplus\n\x7d\n#endif"

def guardStart (guard : String) : Document :=
  [.code s!"#ifndef {guard}", .code s!"#define {guard}", .blank]

def guardEnd (guard : String) : Item := .code s!"#endif /* {guard} */"

def systemHeaders : Item :=
  .code "#include <errno.h>\n#include <math.h>\n#include <stdbool.h>\n#include <stddef.h>\n#include <stdint.h>\n#include <string.h>"

def messageFunctions (options : Options) (codec : Codec) : Document :=
  packFunction options codec ++ unpackFunction options codec ++
    codec.fields.flatMap (conversionFunctions options codec.message)

def recordHeader (options : Options) (version : Option String) (fileName : String)
    (codecs : List Codec) : Document :=
  let guard := guardName options fileName
  banner options version "Message records and codecs" ++ guardStart guard ++
  [systemHeaders, .blank, linkageStart, .blank, .code helpersText] ++
  codecs.flatMap (fun codec => .blank :: macroItems options codec.message) ++
  codecs.flatMap (fun codec => .blank :: recordItems options codec) ++
  codecs.flatMap (fun codec => .blank :: messageFunctions options codec) ++
  [.blank, linkageEnd, .blank, guardEnd guard]

end CanCodec.C
