import X86Layout.Mode

namespace X86Layout

/-- The widths a displacement or an immediate can have. -/
inductive Width where
  | byte
  | word
  | dword
  deriving DecidableEq

def Width.all : List Width := [.byte, .word, .dword]

def Width.bytes : Width → Nat
  | byte => 1
  | word => 2
  | dword => 4

theorem Width.bytes_pos (w : Width) : 0 < w.bytes := by cases w <;> decide

inductive OperandSize where
  | bits16
  | bits32
  deriving DecidableEq

namespace OperandSize

def all : List OperandSize := [bits16, bits32]

/-- The width of an immediate that is as wide as the operands. -/
def width : OperandSize → Width
  | bits16 => .word
  | bits32 => .dword

def bytes : OperandSize → Nat
  | bits16 => 2
  | bits32 => 4

/-- 64-bit code starts from 32-bit operands. -/
def ofMode : Mode → OperandSize
  | .bits16 => bits16
  | .bits32 => bits32
  | .bits64 => bits32

def toggle : OperandSize → OperandSize
  | bits16 => bits32
  | bits32 => bits16

def resolve (m : Mode) (overridden : Bool) : OperandSize :=
  if overridden then (ofMode m).toggle else ofMode m

theorem bytes_width (s : OperandSize) : s.width.bytes = s.bytes := by cases s <;> rfl

/-- There is no size of eight bytes in any mode. -/
theorem bytes_resolve (m : Mode) (overridden : Bool) :
    (resolve m overridden).bytes =
      match m, overridden with
      | .bits16, false => 2
      | .bits16, true => 4
      | .bits32, false => 4
      | .bits32, true => 2
      | .bits64, false => 4
      | .bits64, true => 2 := by
  cases m <;> cases overridden <;> rfl

end OperandSize

inductive AddressSize where
  | bits16
  | bits32
  | bits64
  deriving DecidableEq

namespace AddressSize

def all : List AddressSize := [bits16, bits32, bits64]

def bytes : AddressSize → Nat
  | bits16 => 2
  | bits32 => 4
  | bits64 => 8

def ofMode : Mode → AddressSize
  | .bits16 => bits16
  | .bits32 => bits32
  | .bits64 => bits64

/-- The other size an address can have: 64-bit code falls back to 32 bits. -/
def other : Mode → AddressSize
  | .bits16 => bits32
  | .bits32 => bits16
  | .bits64 => bits32

def resolve (m : Mode) (overridden : Bool) : AddressSize :=
  if overridden then other m else ofMode m

theorem bytes_resolve (m : Mode) (overridden : Bool) :
    (resolve m overridden).bytes =
      match m, overridden with
      | .bits16, false => 2
      | .bits16, true => 4
      | .bits32, false => 4
      | .bits32, true => 2
      | .bits64, false => 8
      | .bits64, true => 4 := by
  cases m <;> cases overridden <;> rfl

end AddressSize

end X86Layout
