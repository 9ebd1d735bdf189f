import X86Layout.Assembly.Assembler

namespace X86Layout.Assembly.Corpus

inductive Outcome where
  | empty
  | reject (reason : String)
  | bytes (bs : List UInt8)
  deriving DecidableEq

/-- A prepared answer; what an entry leaves open matches anything. -/
structure Entry where
  statement : Option String
  bitness : Option Nat
  outcome : Outcome
  deriving DecidableEq

def Entry.covers (e : Entry) (statement : String) (mode : Mode) : Bool :=
  e.statement.all (· == statement) && e.bitness.all (· == mode.bitness)

def Outcome.result (statement : String) : Outcome → Except AssembleError (List UInt8)
  | empty => .error .empty
  | reject reason => .error (.rejected statement reason)
  | bytes bs => .ok bs

/-- The first entry that covers the request answers it. -/
def assembler (entries : List Entry) : Assembler Id := fun statement mode =>
  match entries.find? (·.covers statement mode) with
  | some e => e.outcome.result statement
  | none => .error (.rejected statement "not in corpus")

end X86Layout.Assembly.Corpus
