import X86Layout.Proofs.Canonical

namespace X86Layout.Decoder

variable {d : Decoder} {bytes : List UInt8} {i : Instruction}

/-- Decoding looks no further than the bytes it consumes. -/
theorem decode_append_of_ok (h : d.decode bytes = .ok i) (tail : List UInt8) :
    d.decode (bytes ++ tail) = .ok i := by
  obtain ⟨hcanonical, hfront⟩ := decode_eq_ok_iff.mp h
  exact decode_eq_ok_iff.mpr ⟨hcanonical, hfront.trans (List.prefix_append bytes tail)⟩

theorem length_of_ok (h : d.decode bytes = .ok i) : i.length = i.encode.length :=
  (decode_eq_ok_iff.mp h).1.length_eq

theorem take_length_of_ok (h : d.decode bytes = .ok i) : bytes.take i.length = i.encode := by
  rw [length_of_ok h]
  exact (List.prefix_iff_eq_take.mp (decode_eq_ok_iff.mp h).2).symm

theorem length_le_of_ok (h : d.decode bytes = .ok i) : i.length ≤ bytes.length := by
  rw [length_of_ok h]
  exact (decode_eq_ok_iff.mp h).2.length_le

theorem decode_encode_of_ok (h : d.decode bytes = .ok i) (tail : List UInt8) :
    d.decode (i.encode ++ tail) = .ok i :=
  decode_eq_ok_iff.mpr ⟨(decode_eq_ok_iff.mp h).1, List.prefix_append i.encode tail⟩

/-- Two instructions made of the same bytes are the same instruction. -/
theorem eq_of_encode_eq {d : Decoder} {bytes bytes' : List UInt8} {i j : Instruction}
    (hi : d.decode bytes = .ok i) (hj : d.decode bytes' = .ok j) (he : j.encode = i.encode) :
    j = i := by
  have hi' := decode_encode_of_ok hi []
  have hj' := decode_encode_of_ok hj []
  rw [he, hi'] at hj'
  exact (Except.ok.inj hj').symm

theorem fitsSigned_of_ok (h : d.decode bytes = .ok i) :
    ∀ x ∈ i.displacement, LittleEndian.FitsSigned i.displacementSize x.value := by
  intro x hx
  obtain ⟨a, ha, hd⟩ := Option.bind_eq_some_iff.mp hx
  have hfits := ((decode_eq_ok_iff.mp h).1.addressing a ha).fits x hd
  simpa [Instruction.displacementSize, Addressing.displacementSize, ha, hd, Displacement.Fits]
    using hfits

theorem fitsUnsigned_of_ok (h : d.decode bytes = .ok i) :
    ∀ x ∈ i.immediate, LittleEndian.FitsUnsigned i.immediateSize x.value := by
  intro x hx
  have hfits := (decode_eq_ok_iff.mp h).1.immediateFits x hx
  have hsome : i.immediate = some x := hx
  simpa [Instruction.immediateSize, hsome, Immediate.Fits] using hfits

/-- Every consumed byte is accounted for by one field, in the order of the fields, and the values
are the only ones of their widths that these bytes can stand for. -/
theorem decode_consumes_fields {d : Decoder} {bytes : List UInt8} {i : Instruction}
    (h : d.decode bytes = .ok i) :
    bytes.take i.length =
        i.prefixes.map Prefix.byte ++ [i.opcode.byte] ++ (i.modrm.map ModRM.byte).toList ++
          (i.sib.map SIB.byte).toList ++
          LittleEndian.signedBytes i.displacementSize ((i.displacement.map (·.value)).getD 0) ++
          LittleEndian.bytes i.immediateSize ((i.immediate.map (·.value)).getD 0) ∧
      1 ≤ i.length ∧ i.length ≤ bytes.length ∧
      (∀ x ∈ i.displacement, LittleEndian.FitsSigned i.displacementSize x.value) ∧
      (∀ x ∈ i.immediate, LittleEndian.FitsUnsigned i.immediateSize x.value) ∧
      ∀ bytes' j, d.decode bytes' = .ok j → bytes'.take j.length = bytes.take i.length → j = i := by
  refine ⟨?_, decode_length_pos h, length_le_of_ok h, fitsSigned_of_ok h, fitsUnsigned_of_ok h, ?_⟩
  · rw [take_length_of_ok h, Instruction.encode_eq_fields]
  · intro bytes' j hj he
    rw [take_length_of_ok hj, take_length_of_ok h] at he
    exact eq_of_encode_eq h hj he

/-- An opcode in the place of the operand-size prefix: only a REX before it brings it into reach. -/
def behindRex : Decoder where
  mode := .bits64
  map := OpcodeMap.primary.insert 0x66 (Opcode.named "escape").withModRM.withImmediate

def behindRexBytes : List UInt8 :=
  [0x66, 0x48, 0x66, 0x84, 0x8B, 0xFC, 0xFF, 0xFF, 0xFF, 0x34, 0x12, 0x90]

def behindRexInstruction : Instruction where
  prefixes := [.legacy .operandSize, .rex ⟨true, false, false, false⟩]
  opcode := { byte := 0x66, mnemonic := "escape", hasModRM := true, hasImmediate := true }
  addressing := some ⟨⟨0b10, 0b000, 0b100⟩, some ⟨0b10, 0b001, 0b011⟩, some ⟨.dword, -4⟩⟩
  immediate := some ⟨.word, 0x1234⟩
  addressSize := .bits64
  operandSize := .bits16
  segment := .ds
  length := 11

theorem decode_behindRexBytes : behindRex.decode behindRexBytes = .ok behindRexInstruction := rfl

theorem decode_consumes_fields_behindRex :
    behindRex.decode behindRexBytes = .ok behindRexInstruction ∧
      behindRexBytes.take 11 =
        [0x66, 0x48] ++ [0x66] ++ [0x84] ++ [0x8B] ++ LittleEndian.signedBytes 4 (-4) ++
          LittleEndian.bytes 2 0x1234 ∧
      LittleEndian.FitsSigned 4 (-4) ∧ LittleEndian.FitsUnsigned 2 0x1234 := by
  obtain ⟨hbytes, _, _, hsigned, hunsigned, _⟩ := decode_consumes_fields decode_behindRexBytes
  exact ⟨decode_behindRexBytes, hbytes, hsigned ⟨.dword, -4⟩ rfl, hunsigned ⟨.word, 0x1234⟩ rfl⟩

/-- Decoding undoes encoding on the canonical records, whatever bytes follow, and on no others. -/
theorem canonical_iff_decode_encode (d : Decoder) (i : Instruction) :
    i.Canonical d ↔ ∀ tail, d.decode (i.encode ++ tail) = .ok i := by
  constructor
  · intro h tail
    exact decode_eq_ok_iff.mpr ⟨h, List.prefix_append i.encode tail⟩
  · intro h
    exact (decode_eq_ok_iff.mp (h [])).1

theorem decode_encode_behindRex :
    behindRexInstruction.Canonical behindRex ∧
      ∀ tail,
        behindRex.decode (behindRexInstruction.encode ++ tail) = .ok behindRexInstruction := by
  have h : behindRexInstruction.Canonical behindRex := (decode_eq_ok_iff.mp decode_behindRexBytes).1
  exact ⟨h, (canonical_iff_decode_encode behindRex behindRexInstruction).mp h⟩

end X86Layout.Decoder
