import X86Layout.Proofs.Quiet

namespace X86Layout

namespace Opcode

/-- Whether an opcode with this ModRM byte, or without one, carries an immediate. -/
def CarriesImmediate (o : Opcode) (modrm : Option ModRM) : Prop :=
  o.hasImmediate = true ∨ o.testGroup = true ∧ ∃ m ∈ modrm, m.reg ≤ 1

theorem takesImmediate_iff (o : Opcode) (addressing : Option Addressing) :
    o.takesImmediate addressing = true ↔ o.CarriesImmediate (addressing.map (·.modrm)) := by
  cases addressing <;> simp [takesImmediate, CarriesImmediate]

/-- The width an immediate must have, said of the immediate itself. -/
theorem width_eq_immediateWidth?_iff (o : Opcode) (addressing : Option Addressing)
    (size : OperandSize) (immediate : Option Immediate) :
    immediate.map (·.width) = o.immediateWidth? addressing size ↔
      (immediate.isSome = true ↔ o.CarriesImmediate (addressing.map (·.modrm))) ∧
      ∀ x ∈ immediate, x.width = o.fixedWidth.getD size.width := by
  rw [← takesImmediate_iff]
  cases h : o.takesImmediate addressing <;> cases immediate <;>
    simp [immediateWidth?, operandWidth, h]

end Opcode

namespace Decoder.Body

def encode (b : Body) : List UInt8 :=
  [b.opcode.byte] ++ ((b.addressing.map Addressing.encode).getD [] ++
    (b.immediate.map Immediate.encode).getD [])

/-- What the opcode map, the mode and the operand size ask of the fields behind the prefixes. -/
structure Valid (d : Decoder) (size : OperandSize) (b : Body) : Prop where
  mapped : d.map.get? b.opcode.byte = some b.opcode
  valid : b.opcode.validIn d.mode = true
  modrm : b.addressing.isSome = b.opcode.hasModRM
  addressing : ∀ a ∈ b.addressing, a.Complete d.mode
  immediateWidth : b.immediate.map (·.width) = b.opcode.immediateWidth? b.addressing size
  immediateFits : ∀ x ∈ b.immediate, x.Fits

end Decoder.Body

namespace Instruction

/-- The record that the opcode map, the mode and the record's own bytes dictate. Nothing is said
of bytes to decode it from. -/
structure Canonical (d : Decoder) (i : Instruction) : Prop where
  prefixes : Prefix.IsRun d.mode i.prefixes
  mapped : d.map.get? i.opcode.byte = some i.opcode
  valid : i.opcode.validIn d.mode = true
  stops : Prefix.Stops d.mode i.prefixes i.opcode.byte
  modrm : i.modrm.isSome = i.opcode.hasModRM
  addressing : ∀ a ∈ i.addressing, a.Complete d.mode
  immediate : i.immediate.isSome = true ↔ i.opcode.CarriesImmediate i.modrm
  immediateWidth : ∀ x ∈ i.immediate, x.width = i.opcode.fixedWidth.getD i.operandSize.width
  immediateFits : ∀ x ∈ i.immediate, x.Fits
  operandSize : i.operandSize =
    OperandSize.resolve d.mode (i.prefixes.contains (.legacy .operandSize))
  addressSize : i.addressSize =
    AddressSize.resolve d.mode (i.prefixes.contains (.legacy .addressSize))
  segment : i.segment = Segment.select d.mode i.prefixes i.addressing
  length : i.length = i.prefixes.length + 1 + i.modrm.toList.length + i.sib.toList.length +
    i.displacementSize + i.immediateSize

def body (i : Instruction) : Decoder.Body := ⟨i.opcode, i.addressing, i.immediate⟩

theorem encode_eq_body (i : Instruction) :
    i.encode = i.prefixes.map Prefix.byte ++ i.body.encode :=
  rfl

theorem encode_eq_fields (i : Instruction) :
    i.encode = i.prefixes.map Prefix.byte ++ [i.opcode.byte] ++ (i.modrm.map ModRM.byte).toList ++
      (i.sib.map SIB.byte).toList ++
      LittleEndian.signedBytes i.displacementSize ((i.displacement.map (·.value)).getD 0) ++
      LittleEndian.bytes i.immediateSize ((i.immediate.map (·.value)).getD 0) := by
  have himm : (i.immediate.map Immediate.encode).getD [] =
      LittleEndian.bytes i.immediateSize ((i.immediate.map (·.value)).getD 0) := by
    cases h : i.immediate <;> simp [immediateSize, h, Immediate.encode, LittleEndian.bytes]
  rw [encode_eq_body, body, Decoder.Body.encode, himm]
  cases ha : i.addressing with
  | none =>
    simp [modrm, sib, displacement, displacementSize, ha, LittleEndian.signedBytes,
      LittleEndian.bytes]
  | some a =>
    cases hd : a.displacement <;>
      simp [modrm, sib, displacement, displacementSize, ha, hd, Addressing.encode_eq,
        Addressing.displacementSize, Displacement.encode, LittleEndian.signedBytes,
        LittleEndian.bytes]

theorem length_encode (i : Instruction) :
    i.encode.length = i.prefixes.length + 1 + i.modrm.toList.length + i.sib.toList.length +
      i.displacementSize + i.immediateSize := by
  rw [encode_eq_fields]
  cases i.modrm <;> cases i.sib <;> simp <;> omega

theorem Canonical.length_eq {d : Decoder} {i : Instruction} (h : i.Canonical d) :
    i.length = i.encode.length := by
  rw [h.length, length_encode]

/-- The scanner finds the prefixes of the record in its bytes, whatever follows them. -/
theorem Canonical.run_encode {d : Decoder} {i : Instruction} (h : i.Canonical d)
    (tail : List UInt8) : Prefix.run d.mode (i.encode ++ tail) = i.prefixes := by
  have hstop := Prefix.run_append_stop h.prefixes h.stops
    ((i.addressing.map Addressing.encode).getD [] ++
      (i.immediate.map Immediate.encode).getD [] ++ tail)
  simpa [encode, List.append_assoc] using hstop

end Instruction

namespace Decoder

theorem resolve_ok {d : Decoder} {b : UInt8} {o : Opcode} :
    d.resolve b = .ok o ↔ d.map.get? b = some o ∧ o.validIn d.mode = true := by
  unfold resolve
  cases d.map.get? b with
  | none => simp
  | some p =>
    by_cases hp : p.validIn d.mode = true
    · simp only [hp, ↓reduceIte, Except.ok.injEq, Option.some.injEq]
      exact ⟨fun h => ⟨h, h ▸ hp⟩, fun h => h.1⟩
    · simp only [hp, ↓reduceIte, Option.some.injEq, reduceCtorEq, false_iff]
      intro h
      exact hp (h.1 ▸ h.2)

/-- The look-up has no say in what is read. -/
theorem run_liftM_ok {α : Type} {e : Except DecodeError α} {r after : Reader} {a : α} :
    (liftM e : ReadM α).run r = .ok (a, after) ↔ e = .ok a ∧ after = r := by
  cases e with
  | error e =>
    refine ⟨fun h => ?_, fun h => ?_⟩
    · cases h
    · cases h.1
  | ok b =>
    refine ⟨fun h => ?_, fun h => ?_⟩
    · cases h
      exact ⟨rfl, rfl⟩
    · obtain ⟨hb, rfl⟩ := h
      cases hb
      rfl

theorem accepts_readOpcode (d : Decoder) :
    ReadM.Accepts d.readOpcode
      (fun o => d.map.get? o.byte = some o ∧ o.validIn d.mode = true) (fun o => [o.byte]) := by
  intro r o after
  unfold readOpcode
  rw [ReadM.bind_ok]
  constructor
  · intro h
    obtain ⟨b, mid, hb, hlift⟩ := h
    obtain ⟨hresolve, rfl⟩ := run_liftM_ok.mp hlift
    obtain ⟨hget, hvalid⟩ := resolve_ok.mp hresolve
    -- the map files an opcode under its own byte, so the byte read is the byte of the entry
    have hbyte := d.map.byte_of_get? b o hget
    subst b
    exact ⟨⟨hget, hvalid⟩, ((ReadM.accepts_byte _ r _ after).mp hb).2⟩
  · intro h
    obtain ⟨hentry, hc⟩ := h
    exact ⟨o.byte, after, (ReadM.accepts_byte _ r _ after).mpr ⟨trivial, hc⟩,
      run_liftM_ok.mpr ⟨resolve_ok.mpr hentry, rfl⟩⟩

theorem accepts_readAddressing (mode : Mode) (o : Opcode) :
    ReadM.Accepts (readAddressing mode o)
      (fun a => a.isSome = o.hasModRM ∧ ∀ x ∈ a, x.Complete mode)
      (fun a => (a.map Addressing.encode).getD []) := by
  intro r a after
  unfold readAddressing
  cases o.hasModRM with
  | false =>
    simp only [Bool.false_eq_true, ↓reduceIte]
    rw [ReadM.accepts_none Addressing.encode r a after]
    cases a <;> simp
  | true =>
    simp only [↓reduceIte]
    rw [(ReadM.accepts_addressing mode).some r a after]
    cases a <;> simp

theorem accepts_readImmediate (w : Option Width) :
    ReadM.Accepts (readImmediate w)
      (fun i => i.map (·.width) = w ∧ ∀ x ∈ i, x.Fits)
      (fun i => (i.map Immediate.encode).getD []) := by
  intro r i after
  cases w with
  | none =>
    rw [readImmediate, ReadM.accepts_none Immediate.encode r i after]
    cases i <;> simp
  | some w =>
    rw [readImmediate, (ReadM.accepts_immediate w).some r i after]
    cases i <;> simp

/-- Nothing is lost and nothing invented: a body is read from its own bytes in order. -/
theorem accepts_readBody (d : Decoder) (size : OperandSize) :
    ReadM.Accepts (d.readBody size) (Body.Valid d size) Body.encode := by
  intro r b after
  simp only [readBody, readFields, ReadM.bind_ok, ReadM.pure_ok, Body.encode,
    Reader.consumes_append]
  constructor
  · rintro ⟨o, r1, ho, a, r2, ha, imm, r3, hi, rfl, rfl⟩
    obtain ⟨⟨hmapped, hvalid⟩, hoc⟩ := (accepts_readOpcode d r o r1).mp ho
    obtain ⟨⟨hmodrm, hcomplete⟩, hac⟩ := (accepts_readAddressing d.mode o r1 a r2).mp ha
    obtain ⟨⟨hwidth, hfits⟩, hic⟩ := (accepts_readImmediate _ r2 imm _).mp hi
    exact ⟨⟨hmapped, hvalid, hmodrm, hcomplete, hwidth, hfits⟩, r1, hoc, r2, hac, hic⟩
  · rintro ⟨hb, r1, hoc, r2, hac, hic⟩
    exact ⟨b.opcode, r1, (accepts_readOpcode d r _ r1).mpr ⟨⟨hb.mapped, hb.valid⟩, hoc⟩,
      b.addressing, r2,
      (accepts_readAddressing d.mode _ r1 _ r2).mpr ⟨⟨hb.modrm, hb.addressing⟩, hac⟩,
      b.immediate, after,
      (accepts_readImmediate _ r2 _ after).mpr ⟨⟨hb.immediateWidth, hb.immediateFits⟩, hic⟩,
      rfl, rfl⟩

/-- A canonical record is a valid body behind a prefix run that its opcode ends, and says nothing
that these two do not. -/
theorem canonical_iff {d : Decoder} {i : Instruction} :
    i.Canonical d ↔
      Prefix.IsRun d.mode i.prefixes ∧ Prefix.Stops d.mode i.prefixes i.opcode.byte ∧
        i.body.Valid d (d.operandSize i.prefixes) ∧
        i = i.body.instruction d.mode i.prefixes i.encode.length := by
  have hisSome : i.modrm.isSome = i.addressing.isSome := Option.isSome_map
  constructor
  · intro h
    have hwidth := (i.opcode.width_eq_immediateWidth?_iff i.addressing i.operandSize
      i.immediate).mpr ⟨h.immediate, h.immediateWidth⟩
    rw [h.operandSize] at hwidth
    refine ⟨h.prefixes, h.stops, ⟨h.mapped, h.valid, hisSome ▸ h.modrm, h.addressing, hwidth,
      h.immediateFits⟩, ?_⟩
    rw [← h.length_eq, Body.instruction, ← h.operandSize, ← h.addressSize]
    exact congrArg (fun segment => { i with segment }) h.segment
  · intro h
    obtain ⟨hrun, hstops, hbody, heq⟩ := h
    have hsize : i.operandSize = d.operandSize i.prefixes := congrArg Instruction.operandSize heq
    have hlength : i.length = i.encode.length := congrArg Instruction.length heq
    have hwidth : i.immediate.map (·.width) =
        i.opcode.immediateWidth? i.addressing i.operandSize := hsize ▸ hbody.immediateWidth
    obtain ⟨himm, himmWidth⟩ := (i.opcode.width_eq_immediateWidth?_iff _ _ _).mp hwidth
    exact ⟨hrun, hbody.mapped, hbody.valid, hstops, hisSome ▸ hbody.modrm, hbody.addressing, himm,
      himmWidth, hbody.immediateFits, hsize, congrArg Instruction.addressSize heq,
      congrArg Instruction.segment heq, hlength.trans i.length_encode⟩

/-- The instructions a decoder knows are the canonical records, and it finds one exactly where the
record's own bytes stand at the front. -/
theorem decode_eq_ok_iff {d : Decoder} {bytes : List UInt8} {i : Instruction} :
    d.decode bytes = .ok i ↔ i.Canonical d ∧ i.encode <+: bytes := by
  rw [decode_eq_ok_iff_readBody]
  constructor
  · rintro ⟨b, after, hread, rfl⟩
    obtain ⟨hvalid, hconsumes⟩ := (accepts_readBody d _ _ b after).mp hread
    have hrest : bytes.drop (Prefix.run d.mode bytes).length = b.encode ++ after.rest :=
      hconsumes.1
    have hstops : Prefix.Stops d.mode (Prefix.run d.mode bytes) b.opcode.byte :=
      Prefix.stops_run hrest
    refine ⟨canonical_iff.mpr ⟨Prefix.isRun_run d.mode bytes, hstops, hvalid, ?_⟩, after.rest, ?_⟩
    · rw [hconsumes.position, position_afterPrefixes, Instruction.encode_eq_body,
        List.length_append, List.length_map]
      rfl
    · rw [Instruction.encode_eq_body, List.append_assoc]
      exact hrest ▸ Prefix.run_append_drop d.mode bytes
  · rintro ⟨hcanonical, tail, rfl⟩
    obtain ⟨_, _, hvalid, heq⟩ := canonical_iff.mp hcanonical
    have hrun := hcanonical.run_encode tail
    rw [hrun]
    refine ⟨i.body, ⟨i.encode, tail⟩, (accepts_readBody d _ _ _ _).mpr ⟨hvalid, ?_, ?_⟩, heq.symm⟩
    · rw [rest_afterPrefixes, hrun]
      simp [Instruction.encode_eq_body]
    · rw [taken_afterPrefixes, hrun]
      simp [Instruction.encode_eq_body]

end Decoder

end X86Layout
