import X86Layout.Text.Numeral

namespace X86Layout.Log

inductive Level where
  | trace
  | debug
  deriving DecidableEq

inductive Value where
  | number (n : Nat)
  | text (s : String)
  deriving DecidableEq

namespace Value

def byte (b : UInt8) : Value := number b.toNat

def optionalByte : Option UInt8 → Value
  | some b => text ("Some(" ++ Text.decimal b.toNat ++ ")")
  | none => text "None"

def byteList (bs : List UInt8) : Value :=
  text ("[" ++ ", ".intercalate (bs.map fun b => Text.decimal b.toNat) ++ "]")

end Value

/-- A span is announced, entered and left; events fall in between. -/
inductive Entry where
  | span (level : Level) (name : String) (fields : List (String × Value))
  | enter
  | exit
  | event (level : Level) (message : String) (fields : List (String × Value))
  deriving DecidableEq

def Level.name : Level → String
  | trace => "TRACE"
  | debug => "DEBUG"

end X86Layout.Log

namespace X86Layout

abbrev Log := List Log.Entry

end X86Layout
