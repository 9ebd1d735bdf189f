import X86Layout.Reader

namespace X86Layout.Reader

/-- What one may do at a position of a buffer. -/
inductive Step where
  | peek
  | skip
  | byte (field : Field)
  | take (n : Nat) (field : Field)
  deriving DecidableEq

inductive Outcome where
  | peeked (b : Option UInt8)
  | skipped
  | byte (b : UInt8)
  | bytes (bs : List UInt8)
  | failed (e : DecodeError)
  deriving DecidableEq

def attempt {α : Type} (read : ReadM α) (report : α → Outcome) (r : Reader) : Outcome × Reader :=
  match read.run r with
  | .ok (a, after) => (report a, after)
  | .error e => (.failed e, r)

def perform : Step → Reader → Outcome × Reader
  | .peek, r => (.peeked r.peek?, r)
  | .skip, r => (.skipped, r.advance 1)
  | .byte field, r => attempt (Reader.byte field) .byte r
  | .take n field, r => attempt (Reader.take n field) .bytes r

/-- Each step's outcome with the position it leaves. -/
def performAll : List Step → Reader → List (Outcome × Reader)
  | [], _ => []
  | s :: steps, r => perform s r :: performAll steps (perform s r).2

end X86Layout.Reader
