import X86Layout.OpcodeMap

namespace X86Layout.OpcodeMap

/-- Consecutive opcode bytes that share one description. -/
structure Row where
  first : UInt8
  last : UInt8
  opcode : Opcode

def Row.covers (r : Row) (b : UInt8) : Bool := r.first ≤ b && b ≤ r.last

def row (byte : UInt8) (o : Opcode) : Row := ⟨byte, byte, o⟩

def ofRows (rows : List Row) : OpcodeMap where
  get? b := (rows.find? (·.covers b)).map fun r => { r.opcode with byte := b }
  byte_of_get? b o h := by
    obtain ⟨r, _, rfl⟩ := Option.map_eq_some_iff.mp h
    rfl

open Opcode

/-- The eight two-operand operations, each with six encodings in a block of eight. -/
def arithmeticRows : List Row :=
  ["add", "or", "adc", "sbb", "and", "sub", "xor", "cmp"].zipIdx.flatMap fun (name, i) =>
    let base := UInt8.ofNat (8 * i)
    [⟨base, base + 3, (named name).withModRM⟩,
      row (base + 4) ((named name).withFixedImmediate .byte),
      row (base + 5) (named name).withImmediate]

def legacyRows : List Row :=
  [row 0x06 (named "push es").notIn64Bit,
    row 0x07 (named "pop es").notIn64Bit,
    row 0x0E (named "push cs").notIn64Bit,
    row 0x16 (named "push ss").notIn64Bit,
    row 0x17 (named "pop ss").notIn64Bit,
    row 0x1E (named "push ds").notIn64Bit,
    row 0x1F (named "pop ds").notIn64Bit,
    row 0x27 (named "daa").notIn64Bit,
    row 0x2F (named "das").notIn64Bit,
    row 0x37 (named "aaa").notIn64Bit,
    row 0x3F (named "aas").notIn64Bit]

def registerAndStackRows : List Row :=
  [⟨0x40, 0x47, (named "inc").notIn64Bit⟩,
    ⟨0x48, 0x4F, (named "dec").notIn64Bit⟩,
    ⟨0x50, 0x57, named "push"⟩,
    ⟨0x58, 0x5F, named "pop"⟩,
    row 0x60 (named "pusha").notIn64Bit,
    row 0x61 (named "popa").notIn64Bit,
    row 0x62 (named "bound").withModRM.notIn64Bit,
    row 0x63 (named "arpl/movsxd").withModRM,
    row 0x68 (named "push").withImmediate,
    row 0x69 (named "imul").withModRM.withImmediate,
    row 0x6A ((named "push").withFixedImmediate .byte),
    row 0x6B ((named "imul").withModRM.withFixedImmediate .byte),
    row 0x6C (named "insb"),
    row 0x6D (named "ins"),
    row 0x6E (named "outsb"),
    row 0x6F (named "outs"),
    ⟨0x70, 0x7F, (named "jcc").withFixedImmediate .byte⟩]

def moveRows : List Row :=
  [row 0x80 ((named "grp1").withModRM.withFixedImmediate .byte),
    row 0x81 (named "grp1").withModRM.withImmediate,
    row 0x82 ((named "grp1").withModRM.withFixedImmediate .byte).notIn64Bit,
    row 0x83 ((named "grp1").withModRM.withFixedImmediate .byte),
    ⟨0x84, 0x85, (named "test").withModRM⟩,
    ⟨0x86, 0x87, (named "xchg").withModRM⟩,
    ⟨0x88, 0x8C, (named "mov").withModRM⟩,
    row 0x8D (named "lea").withModRM,
    row 0x8E (named "mov").withModRM,
    row 0x8F (named "pop").withModRM,
    row 0x90 (named "nop"),
    ⟨0x91, 0x97, named "xchg"⟩,
    row 0x98 (named "cbw"),
    row 0x99 (named "cwd"),
    row 0x9B (named "fwait"),
    row 0x9C (named "pushf"),
    row 0x9D (named "popf"),
    row 0x9E (named "sahf"),
    row 0x9F (named "lahf")]

def stringRows : List Row :=
  [row 0xA4 (named "movsb"),
    row 0xA5 (named "movs"),
    row 0xA6 (named "cmpsb"),
    row 0xA7 (named "cmps"),
    row 0xA8 ((named "test").withFixedImmediate .byte),
    row 0xA9 (named "test").withImmediate,
    row 0xAA (named "stosb"),
    row 0xAB (named "stos"),
    row 0xAC (named "lodsb"),
    row 0xAD (named "lods"),
    row 0xAE (named "scasb"),
    row 0xAF (named "scas"),
    ⟨0xB0, 0xB7, (named "mov").withFixedImmediate .byte⟩,
    ⟨0xB8, 0xBF, (named "mov").withImmediate⟩]

def returnAndShiftRows : List Row :=
  [⟨0xC0, 0xC1, (named "grp2").withModRM.withFixedImmediate .byte⟩,
    row 0xC2 ((named "ret").withFixedImmediate .word),
    row 0xC3 (named "ret"),
    row 0xC4 (named "les").withModRM.notIn64Bit,
    row 0xC5 (named "lds").withModRM.notIn64Bit,
    row 0xC6 ((named "mov").withModRM.withFixedImmediate .byte),
    row 0xC7 (named "mov").withModRM.withImmediate,
    row 0xC9 (named "leave"),
    row 0xCA ((named "retf").withFixedImmediate .word),
    row 0xCB (named "retf"),
    row 0xCC (named "int3"),
    row 0xCD ((named "int").withFixedImmediate .byte),
    row 0xCE (named "into").notIn64Bit,
    row 0xCF (named "iret"),
    ⟨0xD0, 0xD3, (named "grp2").withModRM⟩,
    row 0xD4 ((named "aam").withFixedImmediate .byte).notIn64Bit,
    row 0xD5 ((named "aad").withFixedImmediate .byte).notIn64Bit,
    row 0xD7 (named "xlat"),
    ⟨0xD8, 0xDF, (named "esc").withModRM⟩]

def controlRows : List Row :=
  [row 0xE0 ((named "loopne").withFixedImmediate .byte),
    row 0xE1 ((named "loope").withFixedImmediate .byte),
    row 0xE2 ((named "loop").withFixedImmediate .byte),
    row 0xE3 ((named "jcxz").withFixedImmediate .byte),
    ⟨0xE4, 0xE5, (named "in").withFixedImmediate .byte⟩,
    ⟨0xE6, 0xE7, (named "out").withFixedImmediate .byte⟩,
    row 0xE8 (named "call").withImmediate,
    row 0xE9 (named "jmp").withImmediate,
    row 0xEB ((named "jmp").withFixedImmediate .byte),
    ⟨0xEC, 0xED, named "in"⟩,
    ⟨0xEE, 0xEF, named "out"⟩,
    row 0xF1 (named "int1"),
    row 0xF4 (named "hlt"),
    row 0xF5 (named "cmc"),
    row 0xF6 ((named "grp3").withModRM.withTestGroup (some .byte)),
    row 0xF7 ((named "grp3").withModRM.withTestGroup none),
    row 0xF8 (named "clc"),
    row 0xF9 (named "stc"),
    row 0xFA (named "cli"),
    row 0xFB (named "sti"),
    row 0xFC (named "cld"),
    row 0xFD (named "std"),
    row 0xFE (named "grp4").withModRM,
    row 0xFF (named "grp5").withModRM]

def primaryRows : List Row :=
  arithmeticRows ++ legacyRows ++ registerAndStackRows ++ moveRows ++ stringRows
    ++ returnAndShiftRows ++ controlRows

/-- The one-byte opcodes. Prefix bytes, the escape to longer opcodes and a few far or reserved
forms have no entry. -/
def primary : OpcodeMap := ofRows primaryRows

end X86Layout.OpcodeMap
