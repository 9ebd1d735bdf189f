import X86Layout.Opcode
import X86Layout.Prefix

namespace X86Layout

structure Instruction where
  prefixes : List Prefix
  opcode : Opcode
  addressing : Option Addressing
  immediate : Option Immediate
  addressSize : AddressSize
  operandSize : OperandSize
  segment : Segment
  length : Nat
  deriving DecidableEq

namespace Instruction

def modrm (i : Instruction) : Option ModRM := i.addressing.map (·.modrm)

def sib (i : Instruction) : Option SIB := i.addressing.bind (·.sib)

def displacement (i : Instruction) : Option Displacement := i.addressing.bind (·.displacement)

def displacementSize (i : Instruction) : Nat :=
  match i.addressing with
  | some a => a.displacementSize
  | none => 0

def immediateSize (i : Instruction) : Nat :=
  match i.immediate with
  | some imm => imm.width.bytes
  | none => 0

def rex (i : Instruction) : Option Rex := i.prefixes.findSome? Prefix.rex?

/-- The bytes an operand takes: an opcode with a fixed width keeps it, with or without an
immediate. -/
def effectiveOperandSize (i : Instruction) : Nat :=
  i.opcode.fixedWidth.elim i.operandSize.bytes Width.bytes

/-- The bytes the instruction is made of, field by field. -/
def encode (i : Instruction) : List UInt8 :=
  i.prefixes.map Prefix.byte ++ i.opcode.byte ::
    ((i.addressing.map Addressing.encode).getD [] ++ (i.immediate.map Immediate.encode).getD [])

end Instruction

end X86Layout
