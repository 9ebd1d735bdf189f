import X86Layout.Decoder
import X86Layout.Mode.Name

namespace X86Layout

/-- A decoder in use, and beside it a map under construction. -/
structure Session where
  draft : OpcodeMap
  decoder : Decoder

namespace Session

inductive Step where
  | edit (e : OpcodeMap.Edit)
  | build
  | usePrimary
  | setMode (name : ModeName)
  | mode
  | lookup (byte : UInt8)
  | list
  | decode (bytes : List UInt8)

inductive Answer where
  | count (n : Nat)
  | mode (m : Mode)
  | failed (e : DecodeError)
  | opcode (o : Option Opcode)
  | opcodes (os : List Opcode)
  | decoded (run : Decoder.Run)

/-- A session decodes with the primary map until it builds one of its own. -/
def start (mode : Mode) (draft : OpcodeMap) : Session := ⟨draft, .ofMode mode⟩

def useMap (s : Session) (map : OpcodeMap) : Session :=
  { s with decoder := { s.decoder with map } }

def useMode (s : Session) (mode : Mode) : Session :=
  { s with decoder := { s.decoder with mode } }

def next (s : Session) : Step → Session
  | .edit e => { s with draft := s.draft.apply e }
  | .build => s.useMap s.draft
  | .usePrimary => s.useMap .primary
  | .setMode name =>
    match name.resolve with
    | .ok mode => s.useMode mode
    | .error _ => s
  | .mode => s
  | .lookup _ => s
  | .list => s
  | .decode _ => s

/-- A step is answered from the state it leaves. -/
def answer (s : Session) : Step → Answer
  | .edit _ => .count s.draft.size
  | .build => .count s.decoder.map.size
  | .usePrimary => .count s.decoder.map.size
  | .setMode name =>
    match name.resolve with
    | .ok _ => .mode s.decoder.mode
    | .error e => .failed e
  | .mode => .mode s.decoder.mode
  | .lookup byte => .opcode (s.decoder.map.get? byte)
  | .list => .opcodes s.decoder.map.toList
  | .decode bytes => .decoded (s.decoder.run bytes)

def run (s : Session) : List Step → List Answer
  | [] => []
  | step :: steps => (s.next step).answer step :: (s.next step).run steps

end Session

end X86Layout
