import X86Layout.Proofs.Failure

namespace X86Layout

namespace Prefix

/-- No REX shares its byte with a legacy prefix, so a byte of the run tells which one it is. -/
theorem byte_eq_legacy_iff {p : Prefix} {q : LegacyPrefix} : p.byte = q.byte ↔ p = .legacy q := by
  constructor
  · intro h
    cases p with
    | legacy p =>
      have hp := LegacyPrefix.ofByte?_byte p
      rw [show p.byte = q.byte from h, LegacyPrefix.ofByte?_byte] at hp
      rw [Option.some.inj hp]
    | rex x =>
      have hx := legacy_ofByte?_rex x
      rw [show x.byte = q.byte from h, LegacyPrefix.ofByte?_byte] at hx
      cases hx
  · rintro rfl
    rfl

theorem contains_legacy_iff {ps : List Prefix} {q : LegacyPrefix} :
    ps.contains (.legacy q) = true ↔ q.byte ∈ ps.map byte := by
  rw [List.contains_iff_mem, List.mem_map]
  constructor
  · intro h
    exact ⟨.legacy q, h, rfl⟩
  · intro h
    obtain ⟨p, hp, hb⟩ := h
    rwa [byte_eq_legacy_iff.mp hb] at hp

theorem contains_legacy (ps : List Prefix) (q : LegacyPrefix) :
    ps.contains (.legacy q) = decide (q.byte ∈ ps.map byte) := by
  rw [Bool.eq_iff_iff, decide_eq_true_iff]
  exact contains_legacy_iff

end Prefix

theorem ModRM.needsSIB_iff (m : ModRM) : m.needsSIB = true ↔ m.mod ≠ 0b11 ∧ m.rm = 0b100 := by
  simp [needsSIB, isRegister]

theorem ModRM.reg_le_one_iff (m : ModRM) : m.reg ≤ 1 ↔ m.reg = 0 ∨ m.reg = 1 := by
  have key : ∀ reg : BitVec 3, reg ≤ 1 ↔ reg = 0 ∨ reg = 1 := by decide
  exact key m.reg

namespace Instruction

/-- How the fields of a record go together. Sizes and presence are said of the record as a reader
of it sees them, and the size overrides of the bytes that stand in its prefixes. -/
structure Coherent (d : Decoder) (i : Instruction) : Prop where
  mapped : d.map.get? i.opcode.byte = some i.opcode
  valid : i.opcode.validIn d.mode = true
  modrm : i.modrm.isSome = true ↔ i.opcode.hasModRM = true
  sib : i.sib.isSome = true ↔ ∃ m ∈ i.modrm, m.mod ≠ 0b11 ∧ m.rm = 0b100
  displacementSize : i.displacementSize = i.modrm.elim 0 (ModRM.displacementSize d.mode)
  displacement : i.displacement.isSome = true ↔ i.displacementSize ≠ 0
  immediate : i.immediate.isSome = true ↔
    i.opcode.hasImmediate = true ∨
      i.opcode.testGroup = true ∧ ∃ m ∈ i.modrm, m.reg = 0 ∨ m.reg = 1
  immediateSize : i.immediate.isSome = true ↔ i.immediateSize ≠ 0
  effectiveSize : i.immediate.isSome = true → i.effectiveOperandSize = i.immediateSize
  operandSize : i.operandSize =
    if 0x66 ∈ i.prefixes.map Prefix.byte then (OperandSize.ofMode d.mode).toggle
    else OperandSize.ofMode d.mode
  addressSize : i.addressSize =
    if 0x67 ∈ i.prefixes.map Prefix.byte then AddressSize.other d.mode
    else AddressSize.ofMode d.mode
  length : i.prefixes.length + 1 ≤ i.length ∧ i.length ≤ i.prefixes.length + 11

variable {d : Decoder} {i : Instruction}

theorem displacement_isSome_iff (i : Instruction) :
    i.displacement.isSome = true ↔ i.displacementSize ≠ 0 := by
  cases ha : i.addressing with
  | none => simp [displacement, displacementSize, ha]
  | some a =>
    cases hd : a.displacement with
    | none => simp [displacement, displacementSize, Addressing.displacementSize, ha, hd]
    | some x =>
      have hpos : x.width.bytes ≠ 0 := Nat.ne_of_gt x.width.bytes_pos
      simp [displacement, displacementSize, Addressing.displacementSize, ha, hd, hpos]

theorem immediate_isSome_iff (i : Instruction) :
    i.immediate.isSome = true ↔ i.immediateSize ≠ 0 := by
  cases hi : i.immediate with
  | none => simp [immediateSize, hi]
  | some x =>
    have hpos : x.width.bytes ≠ 0 := Nat.ne_of_gt x.width.bytes_pos
    simp [immediateSize, hi, hpos]

theorem displacementSize_le (i : Instruction) : i.displacementSize ≤ 4 := by
  unfold displacementSize Addressing.displacementSize
  split
  · split
    · exact Width.bytes_le _
    · omega
  · omega

theorem immediateSize_le (i : Instruction) : i.immediateSize ≤ 4 := by
  unfold immediateSize
  split
  · exact Width.bytes_le _
  · omega

theorem Canonical.sib_isSome_iff (h : i.Canonical d) :
    i.sib.isSome = true ↔ ∃ m ∈ i.modrm, m.mod ≠ 0b11 ∧ m.rm = 0b100 := by
  cases ha : i.addressing with
  | none => simp [sib, Instruction.modrm, ha]
  | some a =>
    have hsib := (h.addressing a ha).sib
    simp [sib, Instruction.modrm, ha, hsib, ModRM.needsSIB_iff]

theorem Canonical.displacementSize_eq (h : i.Canonical d) :
    i.displacementSize = i.modrm.elim 0 (ModRM.displacementSize d.mode) := by
  cases ha : i.addressing with
  | none => simp [displacementSize, Instruction.modrm, ha]
  | some a =>
    have hwidth := (h.addressing a ha).displacement
    simp only [displacementSize, Instruction.modrm, ha, Addressing.displacementSize,
      Option.map_some, Option.elim_some, ModRM.displacementSize, ← hwidth]
    cases a.displacement <;> rfl

theorem effectiveOperandSize_eq_width (i : Instruction) :
    i.effectiveOperandSize = (i.opcode.fixedWidth.getD i.operandSize.width).bytes := by
  unfold effectiveOperandSize
  cases i.opcode.fixedWidth with
  | none => exact i.operandSize.bytes_width.symm
  | some w => rfl

/-- The immediate is as wide as the operands are shown to be. -/
theorem Canonical.effectiveOperandSize_eq (h : i.Canonical d) (hsome : i.immediate.isSome = true) :
    i.effectiveOperandSize = i.immediateSize := by
  obtain ⟨x, hx⟩ := Option.isSome_iff_exists.mp hsome
  rw [effectiveOperandSize_eq_width, ← h.immediateWidth x hx]
  simp [immediateSize, hx]

theorem Canonical.operandSize_eq (h : i.Canonical d) :
    i.operandSize = if 0x66 ∈ i.prefixes.map Prefix.byte then (OperandSize.ofMode d.mode).toggle
      else OperandSize.ofMode d.mode := by
  have hbyte : i.prefixes.contains (.legacy .operandSize) = true ↔
    0x66 ∈ i.prefixes.map Prefix.byte := Prefix.contains_legacy_iff
  simp only [h.operandSize, OperandSize.resolve, hbyte]

theorem Canonical.addressSize_eq (h : i.Canonical d) :
    i.addressSize = if 0x67 ∈ i.prefixes.map Prefix.byte then AddressSize.other d.mode
      else AddressSize.ofMode d.mode := by
  have hbyte : i.prefixes.contains (.legacy .addressSize) = true ↔
    0x67 ∈ i.prefixes.map Prefix.byte := Prefix.contains_legacy_iff
  simp only [h.addressSize, AddressSize.resolve, hbyte]

theorem Canonical.length_bounds (h : i.Canonical d) :
    i.prefixes.length + 1 ≤ i.length ∧ i.length ≤ i.prefixes.length + 11 := by
  have hm : i.modrm.toList.length ≤ 1 := by cases i.modrm <;> simp
  have hs : i.sib.toList.length ≤ 1 := by cases i.sib <;> simp
  have hd := i.displacementSize_le
  have hi := i.immediateSize_le
  have hlength := h.length
  omega

theorem Canonical.coherent (h : i.Canonical d) : i.Coherent d where
  mapped := h.mapped
  valid := h.valid
  modrm := by rw [h.modrm]
  sib := h.sib_isSome_iff
  displacementSize := h.displacementSize_eq
  displacement := i.displacement_isSome_iff
  immediate := by
    rw [h.immediate]
    simp only [Opcode.CarriesImmediate, ModRM.reg_le_one_iff]
  immediateSize := i.immediate_isSome_iff
  effectiveSize := h.effectiveOperandSize_eq
  operandSize := h.operandSize_eq
  addressSize := h.addressSize_eq
  length := h.length_bounds

end Instruction

namespace Decoder

/-- The two sizes of a record in bytes. An override swaps two and four, except that addresses of
64-bit code come down from eight to four. -/
theorem sizes_of_decode {d : Decoder} {bytes : List UInt8} {i : Instruction}
    (h : d.decode bytes = .ok i) :
    (i.operandSize.bytes =
        match d.mode, decide (0x66 ∈ i.prefixes.map Prefix.byte) with
        | .bits16, false => 2
        | .bits16, true => 4
        | .bits32, false => 4
        | .bits32, true => 2
        | .bits64, false => 4
        | .bits64, true => 2) ∧
      i.addressSize.bytes =
        match d.mode, decide (0x67 ∈ i.prefixes.map Prefix.byte) with
        | .bits16, false => 2
        | .bits16, true => 4
        | .bits32, false => 4
        | .bits32, true => 2
        | .bits64, false => 8
        | .bits64, true => 4 := by
  have hcanonical := (decode_eq_ok_iff.mp h).1
  refine ⟨?_, ?_⟩
  · rw [hcanonical.operandSize, OperandSize.bytes_resolve, Prefix.contains_legacy]
    rfl
  · rw [hcanonical.addressSize, AddressSize.bytes_resolve, Prefix.contains_legacy]
    rfl

/-- Whatever the map holds, a decoder hands out records whose fields fit each other. -/
theorem coherent_of_decode {d : Decoder} {bytes : List UInt8} {i : Instruction}
    (h : d.decode bytes = .ok i) : i.Coherent d :=
  (decode_eq_ok_iff.mp h).1.coherent

/-- A test group whose immediate keeps its width, in a mode that knows no SIB of its own. -/
def testGroup16 : Decoder where
  mode := .bits16
  map := OpcodeMap.empty.insert 0xF6 ((Opcode.named "test").withModRM.withTestGroup (some .byte))

def testInstruction : Instruction where
  prefixes := [.legacy .operandSize, .legacy .addressSize]
  opcode :=
    { byte := 0xF6, mnemonic := "test", hasModRM := true, fixedWidth := some .byte,
      testGroup := true }
  addressing := some ⟨⟨0b01, 0b001, 0b100⟩, some ⟨0b00, 0b100, 0b100⟩, some ⟨.byte, -1⟩⟩
  immediate := some ⟨.byte, 0xFE⟩
  addressSize := .bits32
  operandSize := .bits32
  segment := .ds
  length := 7

theorem coherent_testInstruction :
    testGroup16.decode [0x66, 0x67, 0xF6, 0x4C, 0x24, 0xFF, 0xFE] = .ok testInstruction ∧
      testInstruction.Coherent testGroup16 := by
  have h : testGroup16.decode [0x66, 0x67, 0xF6, 0x4C, 0x24, 0xFF, 0xFE] = .ok testInstruction :=
    rfl
  exact ⟨h, coherent_of_decode h⟩

end Decoder

end X86Layout
