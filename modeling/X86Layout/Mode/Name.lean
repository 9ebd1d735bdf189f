import X86Layout.DecodeError
import X86Layout.Text.Blank

namespace X86Layout

/-- What a caller may give to choose a mode. -/
inductive ModeName where
  | bitness (n : Nat)
  | text (s : String)
  deriving DecidableEq

namespace Mode

def ofBitness (n : Nat) : Except DecodeError Mode :=
  match ofBitness? n with
  | some m => .ok m
  | none => .error (.invalidMode n)

def dropUnit (cs : List Char) : List Char :=
  (("-bit".toList.isSuffixOf? cs).or ("bit".toList.isSuffixOf? cs)).getD cs

def dropSign : List Char → List Char
  | '+' :: cs => cs
  | cs => cs

/-- The number a mode text names; it has to fit 32 bits. -/
def bitnessOfText? (cs : List Char) : Option Nat :=
  (Text.decimalValue? (dropSign (dropUnit (Text.trim cs)))).filter (· < UInt32.size)

def ofText (s : String) : Except DecodeError Mode :=
  ofBitness ((bitnessOfText? s.toList).getD 0)

end Mode

def ModeName.resolve : ModeName → Except DecodeError Mode
  | bitness n => Mode.ofBitness n
  | text s => Mode.ofText s

end X86Layout
