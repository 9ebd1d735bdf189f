import X86Layout.Opcode

namespace X86Layout

/-- A partial map from opcode bytes; an opcode is always filed under its own byte. -/
structure OpcodeMap where
  get? : UInt8 → Option Opcode
  byte_of_get? : ∀ b o, get? b = some o → o.byte = b

namespace OpcodeMap

def allBytes : List UInt8 := (List.range 256).map UInt8.ofNat

theorem mem_allBytes (b : UInt8) : b ∈ allBytes :=
  List.mem_map.mpr ⟨b.toNat, List.mem_range.mpr b.toNat_lt, UInt8.ofNat_toNat⟩

def empty : OpcodeMap where
  get? _ := none
  byte_of_get? _ _ h := by cases h

/-- Files the opcode under every byte from `first` to `last`, both included. -/
def insertRange (m : OpcodeMap) (first last : UInt8) (o : Opcode) : OpcodeMap where
  get? b := if first ≤ b ∧ b ≤ last then some { o with byte := b } else m.get? b
  byte_of_get? b p h := by
    split at h
    · cases h
      rfl
    · exact m.byte_of_get? b p h

def insert (m : OpcodeMap) (byte : UInt8) (o : Opcode) : OpcodeMap where
  get? b := if b = byte then some { o with byte := b } else m.get? b
  byte_of_get? b p h := by
    split at h
    · cases h
      rfl
    · exact m.byte_of_get? b p h

def erase (m : OpcodeMap) (byte : UInt8) : OpcodeMap where
  get? b := if b = byte then none else m.get? b
  byte_of_get? b p h := by
    split at h
    · cases h
    · exact m.byte_of_get? b p h

/-- The mapped opcodes in the order of their bytes. -/
def toList (m : OpcodeMap) : List Opcode := allBytes.filterMap m.get?

def size (m : OpcodeMap) : Nat := m.toList.length

theorem mem_toList {m : OpcodeMap} {o : Opcode} : o ∈ m.toList ↔ m.get? o.byte = some o := by
  constructor
  · intro h
    obtain ⟨b, _, hb⟩ := List.mem_filterMap.mp h
    rwa [m.byte_of_get? b o hb]
  · intro h
    exact List.mem_filterMap.mpr ⟨o.byte, mem_allBytes _, h⟩

inductive Edit where
  | insert (byte : UInt8) (o : Opcode)
  | insertRange (first last : UInt8) (o : Opcode)
  | erase (byte : UInt8)

def apply (m : OpcodeMap) : Edit → OpcodeMap
  | .insert byte o => m.insert byte o
  | .insertRange first last o => m.insertRange first last o
  | .erase byte => m.erase byte

def applyAll (m : OpcodeMap) (edits : List Edit) : OpcodeMap := edits.foldl apply m

end OpcodeMap

end X86Layout
