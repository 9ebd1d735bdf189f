import X86Layout.Instruction
import X86Layout.Log
import X86Layout.OpcodeMap.Primary
import X86Layout.Segment.Selection

namespace X86Layout

structure Decoder where
  mode : Mode
  map : OpcodeMap

namespace Decoder

def ofMode (mode : Mode) : Decoder := ⟨mode, .primary⟩

/-- What one decode did and what came of it. -/
structure Run where
  log : Log
  result : Except DecodeError Instruction

structure State where
  reader : Reader
  log : Log

/-- The log outlives an error. -/
abbrev DecodeM := ExceptT DecodeError (StateM State)

def read {α : Type} (action : ReadM α) : DecodeM α := ExceptT.mk fun s =>
  match action.run s.reader with
  | .ok (a, reader) => (.ok a, { s with reader })
  | .error e => (.error e, s)

def emit (entry : Log.Entry) : DecodeM Unit :=
  ExceptT.mk fun s => (.ok (), { s with log := s.log ++ [entry] })

def prefixesEvent (count : Nat) : Log.Entry := .event .trace "prefixes" [("count", .number count)]

def opcodeEvent (o : Opcode) : Log.Entry :=
  .event .trace "opcode" [("opcode", .byte o.byte), ("mnemonic", .text o.mnemonic)]

def addressingEvent (a : Addressing) : Log.Entry :=
  .event .trace "addressing" [("modrm", .byte a.modrm.byte),
    ("sib", .optionalByte (a.sib.map SIB.byte)), ("displacement_size", .number a.displacementSize)]

def immediateEvent (w : Width) : Log.Entry := .event .trace "immediate" [("size", .number w.bytes)]

def readPrefixes (mode : Mode) : ReadM (List Prefix) := fun r =>
  let prefixes := Prefix.run mode r.rest
  .ok (prefixes, r.advance prefixes.length)

def prefixes (d : Decoder) : DecodeM (List Prefix) := do
  let found ← read (readPrefixes d.mode)
  emit (prefixesEvent found.length)
  return found

/-- An unknown opcode is refused before one that the mode does not have. -/
def resolve (d : Decoder) (b : UInt8) : Except DecodeError Opcode :=
  match d.map.get? b with
  | none => .error (.unsupported b)
  | some o => if o.validIn d.mode then .ok o else .error (.modeIncompatible b d.mode)

def readOpcode (d : Decoder) : ReadM Opcode := do
  d.resolve (← Reader.byte .opcode)

def opcode (d : Decoder) : DecodeM Opcode := do
  let o ← read d.readOpcode
  emit (opcodeEvent o)
  return o

def addressing (d : Decoder) (o : Opcode) : DecodeM (Option Addressing) := do
  if o.hasModRM then
    let a ← read (Addressing.read d.mode)
    emit (addressingEvent a)
    return some a
  else
    return none

/-- The width is logged before the bytes are there to be read. -/
def immediate (width : Option Width) : DecodeM (Option Immediate) := do
  match width with
  | some w =>
    emit (immediateEvent w)
    return some (← read (Immediate.read w))
  | none => return none

/-- What stands behind the prefixes of an instruction. -/
structure Body where
  opcode : Opcode
  addressing : Option Addressing
  immediate : Option Immediate

def body (d : Decoder) (size : OperandSize) : DecodeM Body := do
  let opcode ← d.opcode
  let addressing ← d.addressing opcode
  let immediate ← immediate (opcode.immediateWidth? addressing size)
  return { opcode, addressing, immediate }

def operandSize (d : Decoder) (prefixes : List Prefix) : OperandSize :=
  OperandSize.resolve d.mode (prefixes.contains (.legacy .operandSize))

/-- The record of a body behind these prefixes. -/
def Body.instruction (mode : Mode) (prefixes : List Prefix) (length : Nat) (b : Body) :
    Instruction where
  prefixes := prefixes
  opcode := b.opcode
  addressing := b.addressing
  immediate := b.immediate
  addressSize := AddressSize.resolve mode (prefixes.contains (.legacy .addressSize))
  operandSize := OperandSize.resolve mode (prefixes.contains (.legacy .operandSize))
  segment := Segment.select mode prefixes b.addressing
  length := length

/-- Of all that the prefixes say, only the operand size reaches the bytes behind them. -/
def instruction (d : Decoder) : DecodeM Instruction := do
  let prefixes ← d.prefixes
  let body ← d.body (d.operandSize prefixes)
  return body.instruction d.mode prefixes (← get).reader.position

def opening (d : Decoder) (bytes : List UInt8) : Log :=
  [.span .trace "decode" [("mode", .number d.mode.bitness), ("len", .number bytes.length)], .enter]

def run (d : Decoder) (bytes : List UInt8) : Run :=
  let (result, final) := d.instruction.run.run ⟨.ofBytes bytes, d.opening bytes⟩
  { result, log := final.log ++ [.exit] }

def decode (d : Decoder) (bytes : List UInt8) : Except DecodeError Instruction :=
  (d.run bytes).result

end Decoder

end X86Layout
