import X86Layout.Addressing
import X86Layout.Prefix

namespace X86Layout

/-- The register an address is built on, as far as it decides the segment. -/
inductive BaseRegister where
  | stackPointer
  | framePointer
  | instructionPointer
  | other
  deriving DecidableEq

def BaseRegister.segment : BaseRegister → Segment
  | stackPointer => .ss
  | framePointer => .ss
  | instructionPointer => .cs
  | other => .ds

namespace Addressing

def base16 (m : ModRM) : BaseRegister :=
  match m.rm with
  | 0b010 => .framePointer
  | 0b011 => .framePointer
  | 0b110 => if m.mod = 0b00 then .other else .framePointer
  | _ => .other

def scaledBase (m : ModRM) (s : SIB) : BaseRegister :=
  match s.base with
  | 0b100 => .stackPointer
  | 0b101 => if m.mod = 0b00 then .other else .framePointer
  | _ => .other

/-- A bare address is relative to the instruction pointer in 64-bit code only. -/
def bareBase (mode : Mode) : BaseRegister :=
  if mode = .bits64 then .instructionPointer else .other

def base32 (mode : Mode) (a : Addressing) : BaseRegister :=
  match a.modrm.rm with
  | 0b100 => (a.sib.map (scaledBase a.modrm)).getD .other
  | 0b101 => if a.modrm.mod = 0b00 then bareBase mode else .framePointer
  | _ => .other

def base (mode : Mode) (a : Addressing) : BaseRegister :=
  if a.modrm.isRegister then .other
  else
    match mode with
    | .bits16 => base16 a.modrm
    | _ => base32 mode a

end Addressing

namespace Segment

def implied (mode : Mode) (addressing : Option Addressing) : Segment :=
  match addressing with
  | some a => (a.base mode).segment
  | none => .ds

def overrides (prefixes : List Prefix) : List Segment := prefixes.filterMap Prefix.segment?

/-- Among overrides precedence decides, not their order in the instruction. -/
def select (mode : Mode) (prefixes : List Prefix) (addressing : Option Addressing) : Segment :=
  (overrides prefixes).min?.getD (implied mode addressing)

end Segment

end X86Layout
