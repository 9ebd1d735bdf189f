import X86Layout.Proofs.RexTransparency
import X86Layout.Proofs.SegmentRules

namespace X86Layout

namespace LegacyPrefix

/-- Two runs of prefixes that make up for the difference between 16-bit and 32-bit code: each of the
two sizes is overridden in exactly one of them, and the same override decides the segment. -/
structure Opposed (ps qs : List LegacyPrefix) : Prop where
  operandSize : .operandSize ∈ ps ↔ .operandSize ∉ qs
  addressSize : .addressSize ∈ ps ↔ .addressSize ∉ qs
  segment : override? ps = override? qs

variable {p : LegacyPrefix} {ps qs : List LegacyPrefix}

/-- How often a prefix stands in a run does not count, only whether it does. -/
theorem contains_of_opposed (h : p ∈ ps ↔ p ∉ qs) :
    (qs.map Prefix.legacy).contains (.legacy p) =
      !(ps.map Prefix.legacy).contains (.legacy p) := by
  by_cases hq : p ∈ qs
  · have hp : p ∉ ps := fun hp => h.mp hp hq
    simp [List.contains_eq_mem, hp, hq]
  · have hp : p ∈ ps := h.mpr hq
    simp [List.contains_eq_mem, hp, hq]

end LegacyPrefix

theorem OperandSize.resolve_bits32_not (overridden : Bool) :
    resolve .bits32 (!overridden) = resolve .bits16 overridden := by
  cases overridden <;> rfl

theorem AddressSize.resolve_bits32_not (overridden : Bool) :
    resolve .bits32 (!overridden) = resolve .bits16 overridden := by
  cases overridden <;> rfl

theorem Segment.select_of_register {ps qs : List LegacyPrefix}
    (hsame : LegacyPrefix.override? ps = LegacyPrefix.override? qs)
    {addressing : Option Addressing} (h : ∀ a ∈ addressing, a.modrm.mod = 0b11)
    (mode mode' : Mode) :
    select mode (ps.map .legacy) addressing = select mode' (qs.map .legacy) addressing := by
  have himplied : implied mode addressing = implied mode' addressing := by
    cases addressing with
    | none => rfl
    | some a => rw [implied_of_register (h a rfl), implied_of_register (h a rfl)]
  rw [select, select, ← LegacyPrefix.override?_eq_min?, ← LegacyPrefix.override?_eq_min?, hsame,
    himplied]

/-- A register takes neither a scaled index nor a displacement, so the mode has no say. -/
theorem Addressing.read_of_register {r : Reader}
    (h : ∀ b ∈ r.peek?, (ModRM.ofByte b).mod = 0b11) (mode mode' : Mode) :
    (Addressing.read mode).run r = (Addressing.read mode').run r := by
  obtain ⟨taken, rest⟩ := r
  cases rest with
  | nil => rfl
  | cons b rest =>
    have hwidth : ∀ mode, (ModRM.ofByte b).displacementWidth? mode = none := by
      intro mode
      simp [ModRM.displacementWidth?, h b rfl]
    have hread : ∀ mode, (Addressing.read mode).run ⟨taken, b :: rest⟩ =
        (do
          let sib ← readSIB (.ofByte b)
          let displacement ← readDisplacement mode (.ofByte b)
          return Addressing.mk (.ofByte b) sib displacement : ReadM Addressing).run
          ⟨taken ++ [b], rest⟩ := fun _ => rfl
    simp only [hread, readDisplacement, hwidth]

namespace Decoder

/-- Behind an opcode at the front that asks for a ModRM byte the bytes end, or that byte names a
register. -/
def NamesRegister (map : OpcodeMap) (bytes : List UInt8) : Prop :=
  ∀ b ∈ bytes.head?, ∀ o ∈ map.get? b, o.hasModRM = true →
    ∀ c ∈ bytes[1]?, (ModRM.ofByte c).mod = 0b11

/-- The same once the opcode is read, of the position behind it. -/
def InRegister (o : Opcode) (r : Reader) : Prop :=
  o.hasModRM = true → ∀ c ∈ r.peek?, (ModRM.ofByte c).mod = 0b11

/-- The results of the same bytes behind two runs of legacy prefixes, in 16-bit and in 32-bit code:
records that differ in the prefixes and by their number, or one error, with its offset as far
behind the one run as behind the other, or a refusal by each of the two modes. -/
inductive Mirrored (ps qs : List LegacyPrefix) :
    Except DecodeError Instruction → Except DecodeError Instruction → Prop where
  | decoded (i : Instruction) (n : Nat) :
      Mirrored ps qs (.ok { i with prefixes := ps.map .legacy, length := ps.length + n })
        (.ok { i with prefixes := qs.map .legacy, length := qs.length + n })
  | truncated (field : Field) (n : Nat) :
      Mirrored ps qs (.error (.truncated field (ps.length + n)))
        (.error (.truncated field (qs.length + n)))
  | unsupported (b : UInt8) : Mirrored ps qs (.error (.unsupported b)) (.error (.unsupported b))
  | modeIncompatible (b : UInt8) :
      Mirrored ps qs (.error (.modeIncompatible b .bits16)) (.error (.modeIncompatible b .bits32))

variable {map : OpcodeMap} {ps qs : List LegacyPrefix} {size : OperandSize} {o : Opcode}
  {r : Reader}

theorem readFields_of_register (h : InRegister o r) (mode mode' : Mode) :
    (readFields mode size o).run r = (readFields mode' size o).run r := by
  apply readFields_congr
  unfold readAddressing
  split
  · rename_i hmodrm
    rw [StateT.run_map, StateT.run_map, Addressing.read_of_register (h hmodrm) mode mode']
  · rfl

theorem register_of_readFields (h : InRegister o r) {mode : Mode} {body : Body} {after : Reader}
    (hread : (readFields mode size o).run r = .ok (body, after)) :
    ∀ a ∈ body.addressing, a.modrm.mod = 0b11 := by
  simp only [readFields, ReadM.bind_ok, ReadM.pure_ok] at hread
  obtain ⟨addressing, mid, ha, _, _, _, rfl, _⟩ := hread
  have hmodrm := modrm_of_readAddressing ha
  intro a hmem
  rw [show addressing = some a from hmem] at hmodrm
  split at hmodrm
  · rename_i hasModRM
    obtain ⟨c, hc, he⟩ := Option.map_eq_some_iff.mp hmodrm.symm
    rw [← show ModRM.ofByte c = a.modrm from he]
    exact h hasModRM c hc
  · cases hmodrm

theorem operandSize_of_opposed (h : LegacyPrefix.Opposed ps qs) :
    (Decoder.mk .bits32 map).operandSize (qs.map .legacy) =
      (Decoder.mk .bits16 map).operandSize (ps.map .legacy) := by
  rw [operandSize, LegacyPrefix.contains_of_opposed h.operandSize, OperandSize.resolve_bits32_not]
  rfl

/-- Both overrides are made up for and no default segment comes in, so nothing is left of the
difference but the prefixes themselves. -/
theorem instruction_of_opposed (h : LegacyPrefix.Opposed ps qs) {body : Body}
    (hregister : ∀ a ∈ body.addressing, a.modrm.mod = 0b11) (m n : Nat) :
    body.instruction .bits32 (qs.map .legacy) n =
      { body.instruction .bits16 (ps.map .legacy) m with
        prefixes := qs.map .legacy, length := n } := by
  simp only [Body.instruction, LegacyPrefix.contains_of_opposed h.operandSize,
    LegacyPrefix.contains_of_opposed h.addressSize, OperandSize.resolve_bits32_not,
    AddressSize.resolve_bits32_not, Segment.select_of_register h.segment hregister .bits16 .bits32]

/-- The two modes are asked about one opcode. Neither the map nor what an opcode says of 64-bit
code tells them apart. -/
theorem resolve_bits16_bits32 (map : OpcodeMap) (b : UInt8) :
    (∃ o ∈ map.get? b, (Decoder.mk .bits16 map).resolve b = .ok o ∧
        (Decoder.mk .bits32 map).resolve b = .ok o) ∨
      ((Decoder.mk .bits16 map).resolve b = .error (.unsupported b) ∧
        (Decoder.mk .bits32 map).resolve b = .error (.unsupported b)) ∨
      ((Decoder.mk .bits16 map).resolve b = .error (.modeIncompatible b .bits16) ∧
        (Decoder.mk .bits32 map).resolve b = .error (.modeIncompatible b .bits32)) := by
  unfold resolve
  cases ho : map.get? b with
  | none => exact .inr (.inl ⟨rfl, rfl⟩)
  | some o =>
    cases honly : o.only64Bit with
    | false => exact .inl ⟨o, rfl, by simp [Opcode.validIn, honly], by simp [Opcode.validIn, honly]⟩
    | true =>
      exact .inr (.inr ⟨by simp [Opcode.validIn, honly], by simp [Opcode.validIn, honly]⟩)

theorem mirrored_of_truncated (field : Field) (n : Nat) :
    Mirrored ps qs
      ((Decoder.mk .bits16 map).assemble (ps.map .legacy) (.error (.truncated field n)))
      ((Decoder.mk .bits32 map).assemble (qs.map .legacy) (.error (.truncated field n))) := by
  have hmirrored : Mirrored ps qs _ _ := .truncated field n
  simpa [assemble, DecodeError.shift] using hmirrored

theorem mirrored_of_readFields (h : LegacyPrefix.Opposed ps qs) (hregister : InRegister o r) :
    Mirrored ps qs
      ((Decoder.mk .bits16 map).assemble (ps.map .legacy) ((readFields .bits16 size o).run r))
      ((Decoder.mk .bits32 map).assemble (qs.map .legacy) ((readFields .bits32 size o).run r)) := by
  rw [readFields_of_register hregister .bits32 .bits16]
  cases hread : (readFields .bits16 size o).run r with
  | error e =>
    obtain ⟨field, offset, rfl⟩ := truncated_of_readFields_error hread
    exact mirrored_of_truncated field offset
  | ok pair =>
    obtain ⟨body, after⟩ := pair
    have hmirrored : Mirrored ps qs _ _ :=
      .decoded (body.instruction .bits16 (ps.map .legacy) 0) after.position
    simp only [assemble, List.length_map,
      instruction_of_opposed h (register_of_readFields hregister hread) 0]
    exact hmirrored

/-- What is 16-bit code behind one run of prefixes is the same in 32-bit code behind an opposed run,
as long as no operand is in memory. An override turns each mode's default into the other's, once
and for all however often it stands there. -/
theorem decode_override_duality {map : OpcodeMap} {ps qs : List LegacyPrefix} {bytes : List UInt8}
    (hopposed : LegacyPrefix.Opposed ps qs)
    (hfront : ∀ b ∈ bytes.head?, Prefix.isLegacy b = false) (hregister : NamesRegister map bytes) :
    Mirrored ps qs ((Decoder.mk .bits16 map).decode (ps.map LegacyPrefix.byte ++ bytes))
      ((Decoder.mk .bits32 map).decode (qs.map LegacyPrefix.byte ++ bytes)) := by
  have hrun : ∀ mode : Mode, mode ≠ .bits64 → Prefix.run mode bytes = [] := by
    intro mode hmode
    apply run_eq_nil_of_head
    intro b hb
    exact ⟨hfront b hb, fun h => absurd h hmode⟩
  rw [decode_of_run_eq_nil (hrun .bits16 (by decide)),
    decode_of_run_eq_nil (hrun .bits32 (by decide)), afterLegacies, afterLegacies,
    operandSize_of_opposed hopposed]
  cases bytes with
  | nil =>
    rw [readBody_nil, readBody_nil]
    exact mirrored_of_truncated .opcode 0
  | cons b rest =>
    rcases resolve_bits16_bits32 map b with ⟨o, ho, h16, h32⟩ | ⟨h16, h32⟩ | ⟨h16, h32⟩
    · rw [readBody_of_ok h16, readBody_of_ok h32]
      apply mirrored_of_readFields hopposed
      intro hasModRM c hc
      apply hregister b rfl o ho hasModRM c
      rwa [List.getElem?_cons_succ, ← List.head?_eq_getElem?]
    · rw [readBody_of_error h16, readBody_of_error h32]
      exact .unsupported b
    · rw [readBody_of_error h16, readBody_of_error h32]
      exact .modeIncompatible b

/-- An addition of a doubleword to a register. -/
def addDoubleword : List UInt8 := [0x81, 0xC0, 0x78, 0x56, 0x34, 0x12]

theorem decode_override_duality_addDoubleword :
    LegacyPrefix.Opposed [.operandSize, .segment .cs, .operandSize]
        [.segment .gs, .addressSize, .lock, .segment .cs] ∧
      NamesRegister .primary addDoubleword ∧
      Mirrored [.operandSize, .segment .cs, .operandSize]
        [.segment .gs, .addressSize, .lock, .segment .cs]
        ((ofMode .bits16).decode ([0x66, 0x2E, 0x66] ++ addDoubleword))
        ((ofMode .bits32).decode ([0x65, 0x67, 0xF0, 0x2E] ++ addDoubleword)) ∧
      ∃ i, (ofMode .bits32).decode ([0x65, 0x67, 0xF0, 0x2E] ++ addDoubleword) = .ok i ∧
        i.operandSize = .bits32 ∧ i.addressSize = .bits16 ∧ i.segment = .cs ∧ i.length = 10 := by
  have hopposed : LegacyPrefix.Opposed [.operandSize, .segment .cs, .operandSize]
      [.segment .gs, .addressSize, .lock, .segment .cs] := ⟨by decide, by decide, by decide⟩
  have hregister : NamesRegister .primary addDoubleword := by
    intro b _ o _ _ c hc
    cases hc
    rfl
  refine ⟨hopposed, hregister, decode_override_duality hopposed ?_ hregister, _, rfl, rfl, rfl, rfl,
    rfl⟩
  intro b hb
  cases hb
  rfl

-- with an operand in memory the two modes part: they do not read the same displacement
example : (∃ i, (ofMode .bits16).decode [0x8B, 0x06, 0x34, 0x12] = .ok i ∧ i.length = 4) ∧
    ∃ i, (ofMode .bits32).decode [0x66, 0x67, 0x8B, 0x06, 0x34, 0x12] = .ok i ∧ i.length = 4 :=
  ⟨⟨_, rfl, rfl⟩, _, rfl, rfl⟩

end Decoder

end X86Layout
