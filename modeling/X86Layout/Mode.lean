import X86Layout.Text.Numeral

namespace X86Layout

inductive Mode where
  | bits16
  | bits32
  | bits64
  deriving DecidableEq

namespace Mode

def all : List Mode := [bits16, bits32, bits64]

def bitness : Mode → Nat
  | bits16 => 16
  | bits32 => 32
  | bits64 => 64

/-- REX prefixes exist in 64-bit code only; elsewhere their bytes are opcodes. -/
def allowsRex (m : Mode) : Bool := m == bits64

def ofBitness? (n : Nat) : Option Mode := all.find? (·.bitness == n)

def description (m : Mode) : String := Text.decimal m.bitness ++ "-bit mode"

theorem mem_all (m : Mode) : m ∈ all := by cases m <;> decide

theorem ofBitness?_eq_some_iff {n : Nat} {m : Mode} : ofBitness? n = some m ↔ m.bitness = n := by
  constructor
  · intro h
    simpa using List.find?_some h
  · rintro rfl
    cases m <;> rfl

end Mode

end X86Layout
