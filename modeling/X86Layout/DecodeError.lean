import X86Layout.Mode

namespace X86Layout

/-- The parts of an instruction that can be missing, in the order they are read. -/
inductive Field where
  | opcode
  | modrm
  | sib
  | displacement
  | immediate
  deriving DecidableEq

def Field.name : Field → String
  | opcode => "opcode"
  | modrm => "ModRM"
  | sib => "SIB"
  | displacement => "displacement"
  | immediate => "immediate"

inductive DecodeError where
  | truncated (field : Field) (offset : Nat)
  | unsupported (opcode : UInt8)
  | modeIncompatible (opcode : UInt8) (mode : Mode)
  | invalidMode (bitness : Nat)
  deriving DecidableEq

/-- A bitness of zero stands for a request that named no number at all. -/
def DecodeError.message : DecodeError → String
  | truncated field offset =>
    "truncated instruction: " ++ field.name ++ " missing at byte offset " ++ Text.decimal offset
  | unsupported opcode => "unsupported opcode 0x" ++ Text.hexByte opcode
  | modeIncompatible opcode mode =>
    "opcode 0x" ++ Text.hexByte opcode ++ " is not valid in " ++ mode.description
  | invalidMode 0 => "invalid operating mode: not a bitness"
  | invalidMode bitness => "invalid operating mode: " ++ Text.decimal bitness ++ "-bit"

end X86Layout
