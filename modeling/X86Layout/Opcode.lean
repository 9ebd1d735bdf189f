import X86Layout.Addressing
import X86Layout.Immediate

namespace X86Layout

/-- What the opcode map knows about one opcode. -/
structure Opcode where
  byte : UInt8 := 0
  mnemonic : String
  hasModRM : Bool := false
  hasImmediate : Bool := false
  /-- A width that does not follow the operand size. -/
  fixedWidth : Option Width := none
  invalidIn64Bit : Bool := false
  only64Bit : Bool := false
  /-- The immediate depends on the reg field of ModRM, as in the unary group with `test`. -/
  testGroup : Bool := false
  deriving DecidableEq

namespace Opcode

def named (mnemonic : String) : Opcode := { mnemonic }

def withModRM (o : Opcode) : Opcode := { o with hasModRM := true }

def withImmediate (o : Opcode) : Opcode := { o with hasImmediate := true, fixedWidth := none }

def withFixedImmediate (w : Width) (o : Opcode) : Opcode :=
  { o with hasImmediate := true, fixedWidth := some w }

def withTestGroup (w : Option Width) (o : Opcode) : Opcode :=
  { o with testGroup := true, fixedWidth := w }

def notIn64Bit (o : Opcode) : Opcode := { o with invalidIn64Bit := true }

def requiring64Bit (o : Opcode) : Opcode := { o with only64Bit := true }

def validIn (o : Opcode) (mode : Mode) : Bool :=
  if mode = .bits64 then !o.invalidIn64Bit else !o.only64Bit

/-- In a test group only the first two operations carry an immediate. -/
def takesImmediate (o : Opcode) (addressing : Option Addressing) : Bool :=
  o.hasImmediate || (o.testGroup && addressing.any (·.modrm.reg ≤ 1))

def operandWidth (o : Opcode) (size : OperandSize) : Width := o.fixedWidth.getD size.width

def immediateWidth? (o : Opcode) (addressing : Option Addressing) (size : OperandSize) :
    Option Width :=
  if o.takesImmediate addressing then some (o.operandWidth size) else none

end Opcode

end X86Layout
