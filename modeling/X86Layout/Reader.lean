import X86Layout.DecodeError

namespace X86Layout

/-- A position in a buffer, as the bytes before it and the bytes after it. -/
structure Reader where
  taken : List UInt8
  rest : List UInt8
  deriving DecidableEq

/-- Reads move forward; one that fails leaves no trace of itself but its error. -/
abbrev ReadM := StateT Reader (Except DecodeError)

namespace Reader

def ofBytes (bytes : List UInt8) : Reader := ⟨[], bytes⟩

def buffer (r : Reader) : List UInt8 := r.taken ++ r.rest

def position (r : Reader) : Nat := r.taken.length

def remaining (r : Reader) : Nat := r.rest.length

def peek? (r : Reader) : Option UInt8 := r.rest.head?

/-- At the end of the buffer there is nothing to step over. -/
def advance (n : Nat) (r : Reader) : Reader := ⟨r.taken ++ r.rest.take n, r.rest.drop n⟩

def take (n : Nat) (field : Field) : ReadM (List UInt8) := fun r =>
  if n ≤ r.remaining then .ok (r.rest.take n, r.advance n)
  else .error (.truncated field r.position)

def byte (field : Field) : ReadM UInt8 := fun r =>
  match r.peek? with
  | some b => .ok (b, r.advance 1)
  | none => .error (.truncated field r.position)

@[simp] theorem buffer_ofBytes (bytes : List UInt8) : (ofBytes bytes).buffer = bytes := rfl

@[simp] theorem buffer_advance (n : Nat) (r : Reader) : (r.advance n).buffer = r.buffer := by
  simp [advance, buffer]

theorem position_add_remaining (r : Reader) : r.position + r.remaining = r.buffer.length := by
  simp [position, remaining, buffer]

theorem taken_eq (r : Reader) : r.taken = r.buffer.take r.position := by
  simp [buffer, position]

theorem position_advance (n : Nat) (r : Reader) :
    (r.advance n).position = r.position + min n r.remaining := by
  simp [advance, position, remaining]

end Reader

end X86Layout
