import X86Layout.Width

namespace X86Layout

structure ModRM where
  mod : BitVec 2
  reg : BitVec 3
  rm : BitVec 3
  deriving DecidableEq

structure SIB where
  scale : BitVec 2
  index : BitVec 3
  base : BitVec 3
  deriving DecidableEq

namespace SIB

def ofByte (v : UInt8) : SIB where
  scale := v.toBitVec.extractLsb' 6 2
  index := v.toBitVec.extractLsb' 3 3
  base := v.toBitVec.extractLsb' 0 3

def byte (s : SIB) : UInt8 := UInt8.ofBitVec (s.scale ++ s.index ++ s.base)

theorem byte_ofByte (v : UInt8) : (ofByte v).byte = v := by
  have key : ∀ u : BitVec 8, (ofByte ⟨u⟩).byte = ⟨u⟩ := by decide
  exact key v.toBitVec

theorem ofByte_byte (s : SIB) : ofByte s.byte = s := by
  obtain ⟨scale, index, base⟩ := s
  revert scale index base
  decide

end SIB

namespace ModRM

def ofByte (v : UInt8) : ModRM where
  mod := v.toBitVec.extractLsb' 6 2
  reg := v.toBitVec.extractLsb' 3 3
  rm := v.toBitVec.extractLsb' 0 3

def byte (m : ModRM) : UInt8 := UInt8.ofBitVec (m.mod ++ m.reg ++ m.rm)

def isRegister (m : ModRM) : Bool := m.mod == 0b11

/-- A scaled index follows whenever the operand is in memory and names no register of its own;
the mode has no say in it. -/
def needsSIB (m : ModRM) : Bool := !m.isRegister && m.rm == 0b100

/-- The form of a bare address, where mod 00 is followed by a displacement. -/
def bareAddress : Mode → BitVec 3
  | .bits16 => 0b110
  | .bits32 => 0b101
  | .bits64 => 0b101

def fullDisplacement : Mode → Width
  | .bits16 => .word
  | .bits32 => .dword
  | .bits64 => .dword

/-- How much displacement follows; an address-size override does not change it. -/
def displacementWidth? (mode : Mode) (m : ModRM) : Option Width :=
  match m.mod with
  | 0b00 => if m.rm = bareAddress mode then some (fullDisplacement mode) else none
  | 0b01 => some .byte
  | 0b10 => some (fullDisplacement mode)
  | _ => none

theorem byte_ofByte (v : UInt8) : (ofByte v).byte = v := by
  have key : ∀ u : BitVec 8, (ofByte ⟨u⟩).byte = ⟨u⟩ := by decide
  exact key v.toBitVec

theorem ofByte_byte (m : ModRM) : ofByte m.byte = m := by
  obtain ⟨mod, reg, rm⟩ := m
  revert mod reg rm
  decide

end ModRM

end X86Layout
