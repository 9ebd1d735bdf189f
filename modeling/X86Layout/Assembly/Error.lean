import X86Layout.DecodeError

namespace X86Layout.Assembly

inductive AssembleError where
  | empty
  | rejected (statement reason : String)
  deriving DecidableEq

def AssembleError.message : AssembleError → String
  | empty => "empty instruction text"
  | rejected statement reason => "failed to assemble `" ++ statement ++ "`: " ++ reason

inductive TextError where
  | assemble (e : AssembleError)
  | decode (e : DecodeError)
  deriving DecidableEq

namespace TextError

def message : TextError → String
  | assemble e => e.message
  | decode e => "assembled bytes could not be decoded: " ++ e.message

/-- Assembling reports for itself; a decode error is quoted as the cause. -/
def cause : TextError → Option DecodeError
  | assemble _ => none
  | decode e => some e

end TextError

end X86Layout.Assembly
