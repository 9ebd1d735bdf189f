import X86Layout.Mode
import X86Layout.Segment

namespace X86Layout

/-- The prefix bytes that every mode knows. -/
inductive LegacyPrefix where
  | lock
  | repeatUnequal
  | repeatEqual
  | segment (register : Segment)
  | operandSize
  | addressSize
  deriving DecidableEq

namespace LegacyPrefix

def byte : LegacyPrefix → UInt8
  | lock => 0xF0
  | repeatUnequal => 0xF2
  | repeatEqual => 0xF3
  | segment register => register.overrideByte
  | operandSize => 0x66
  | addressSize => 0x67

def name : LegacyPrefix → String
  | lock => "LOCK"
  | repeatUnequal => "REPNE"
  | repeatEqual => "REP/REPE"
  | segment register => register.name
  | operandSize => "Operand-size override"
  | addressSize => "Address-size override"

def all : List LegacyPrefix :=
  [lock, repeatUnequal, repeatEqual] ++ Segment.all.map segment ++ [operandSize, addressSize]

def ofByte? (b : UInt8) : Option LegacyPrefix := all.find? (·.byte == b)

theorem mem_all (p : LegacyPrefix) : p ∈ all := by
  cases p with
  | segment s => cases s <;> decide
  | _ => decide

theorem ofByte?_byte (p : LegacyPrefix) : ofByte? p.byte = some p := by
  cases p with
  | segment s => cases s <;> rfl
  | _ => rfl

theorem ofByte?_eq_some_iff {b : UInt8} {p : LegacyPrefix} : ofByte? b = some p ↔ p.byte = b := by
  constructor
  · intro h
    simpa using List.find?_some h
  · rintro rfl
    exact ofByte?_byte p

end LegacyPrefix

/-- The four payload bits of a REX prefix. -/
structure Rex where
  w : Bool
  r : Bool
  x : Bool
  b : Bool
  deriving DecidableEq

namespace Rex

/-- The payload is the low half of the byte, whatever the high half is. -/
def ofByte (v : UInt8) : Rex where
  w := v.toBitVec[3]
  r := v.toBitVec[2]
  x := v.toBitVec[1]
  b := v.toBitVec[0]

def isRexByte (v : UInt8) : Bool := 0x40 ≤ v && v ≤ 0x4F

def ofByte? (v : UInt8) : Option Rex := if isRexByte v then some (ofByte v) else none

def byte (p : Rex) : UInt8 :=
  0x40 + (if p.w then 8 else 0) + (if p.r then 4 else 0) + (if p.x then 2 else 0)
    + (if p.b then 1 else 0)

def letters (p : Rex) : List Char :=
  [(p.w, 'W'), (p.r, 'R'), (p.x, 'X'), (p.b, 'B')].filterMap
    fun (present, letter) => if present then some letter else none

def name (p : Rex) : String :=
  if p.letters.isEmpty then "REX" else "REX." ++ String.ofList p.letters

theorem ofByte?_byte (p : Rex) : ofByte? p.byte = some p := by
  obtain ⟨w, r, x, b⟩ := p
  revert w r x b
  decide

theorem byte_of_ofByte? {v : UInt8} {p : Rex} (h : ofByte? v = some p) : p.byte = v := by
  have key : ∀ u : BitVec 8, isRexByte ⟨u⟩ → (ofByte ⟨u⟩).byte = ⟨u⟩ := by decide
  unfold ofByte? at h
  split at h
  · rename_i hv
    cases h
    exact key v.toBitVec hv
  · cases h

end Rex

inductive Prefix where
  | legacy (p : LegacyPrefix)
  | rex (p : Rex)
  deriving DecidableEq

namespace Prefix

def byte : Prefix → UInt8
  | legacy p => p.byte
  | rex p => p.byte

def name : Prefix → String
  | legacy p => p.name
  | rex p => p.name

def ofByte? (b : UInt8) : Option Prefix :=
  ((LegacyPrefix.ofByte? b).map legacy).or ((Rex.ofByte? b).map rex)

def rex? : Prefix → Option Rex
  | legacy _ => none
  | rex p => some p

def segment? : Prefix → Option Segment
  | legacy (.segment register) => some register
  | _ => none

/-- The longest run of legacy prefixes at the front. -/
def legacyRun : List UInt8 → List LegacyPrefix
  | [] => []
  | b :: bytes =>
    match LegacyPrefix.ofByte? b with
    | some p => p :: legacyRun bytes
    | none => []

def rexAt? (m : Mode) (bytes : List UInt8) : Option Rex :=
  if m.allowsRex then bytes.head?.bind Rex.ofByte? else none

/-- Legacy prefixes first and then at most one REX; a legacy prefix after the REX is no prefix. -/
def run (m : Mode) (bytes : List UInt8) : List Prefix :=
  let legacies := legacyRun bytes
  legacies.map legacy ++ ((rexAt? m (bytes.drop legacies.length)).map rex).toList

end Prefix

end X86Layout
