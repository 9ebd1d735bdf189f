import X86Layout.Proofs.ModeAgreement

namespace X86Layout

theorem Prefix.contains_append_rex (ps : List Prefix) (x : Rex) (p : LegacyPrefix) :
    (ps ++ [rex x]).contains (legacy p) = ps.contains (legacy p) := by
  simp [List.contains_eq_mem]

theorem Segment.select_append_rex (mode : Mode) (ps : List Prefix) (x : Rex)
    (addressing : Option Addressing) :
    select mode (ps ++ [.rex x]) addressing = select mode ps addressing := by
  have hnone : overrides [.rex x] = [] := rfl
  rw [select, select, overrides_append, hnone, List.append_nil]

namespace Decoder

/-- The same result with a REX between the legacy prefixes and the body: one record more, and one
byte more before everything that follows it. -/
def withRex (x : Rex) : Except DecodeError Instruction → Except DecodeError Instruction
  | .ok i => .ok { i with prefixes := i.prefixes ++ [.rex x], length := i.length + 1 }
  | .error e => .error (e.shift 1)

variable {d : Decoder}

theorem operandSize_append_rex (d : Decoder) (ps : List Prefix) (x : Rex) :
    d.operandSize (ps ++ [.rex x]) = d.operandSize ps := by
  rw [operandSize, operandSize, Prefix.contains_append_rex]

/-- Nothing that is resolved from the prefixes looks at a REX. -/
theorem instruction_append_rex (mode : Mode) (ps : List Prefix) (x : Rex) (n : Nat) (b : Body) :
    b.instruction mode (ps ++ [.rex x]) n =
      { b.instruction mode ps n with prefixes := ps ++ [.rex x] } := by
  simp only [Body.instruction, Prefix.contains_append_rex, Segment.select_append_rex]

theorem assemble_append_rex (d : Decoder) (ps : List Prefix) (x : Rex)
    (outcome : Except DecodeError (Body × Reader)) :
    d.assemble (ps ++ [.rex x]) outcome = withRex x (d.assemble ps outcome) := by
  cases outcome with
  | error e =>
    have hlength : (ps ++ [Prefix.rex x]).length = 1 + ps.length := by simp [Nat.add_comm]
    simp only [assemble, withRex, DecodeError.shift_shift, hlength]
  | ok pair =>
    obtain ⟨body, after⟩ := pair
    have hlength : (ps ++ [Prefix.rex x]).length + after.position =
        ps.length + after.position + 1 := by
      rw [List.length_append, List.length_singleton]
      omega
    simp only [assemble, withRex, hlength, instruction_append_rex]
    rfl

/-- The result for the body at the front of the bytes, behind these legacy prefixes alone. -/
def afterLegacies (d : Decoder) (ps : List LegacyPrefix) (bytes : List UInt8) :
    Except DecodeError Instruction :=
  d.assemble (ps.map .legacy) ((d.readBody (d.operandSize (ps.map .legacy))).run (.ofBytes bytes))

theorem bodyAt_of_run {bytes : List UInt8} {ps : List Prefix} (h : Prefix.run d.mode bytes = ps)
    (size : OperandSize) :
    d.bodyAt size bytes = (d.readBody size).run (.ofBytes (bytes.drop ps.length)) := by
  rw [bodyAt, runLength, h]

theorem decode_rex (hd : d.mode = .bits64) (ps : List LegacyPrefix) (x : Rex)
    (bytes : List UInt8) :
    d.decode (ps.map LegacyPrefix.byte ++ x.byte :: bytes) =
      withRex x (d.afterLegacies ps bytes) := by
  have hrun := Prefix.run_rex hd x bytes
  rw [decode_append_legacies, bodyAt_of_run hrun, hrun, assemble_append_rex,
    operandSize_append_rex]
  rfl

/-- The bytes are at their end, or the first one is neither a legacy prefix nor a REX. -/
def StartsBody (bytes : List UInt8) : Prop :=
  ∀ b ∈ bytes.head?, Prefix.isLegacy b = false ∧ Rex.isRexByte b = false

/-- A REX counts in 64-bit code only. -/
theorem run_eq_nil_of_head {m : Mode} {bytes : List UInt8}
    (h : ∀ b ∈ bytes.head?,
      Prefix.isLegacy b = false ∧ (m = .bits64 → Rex.isRexByte b = false)) :
    Prefix.run m bytes = [] := by
  cases bytes with
  | nil => exact Prefix.run_nil m
  | cons b bytes =>
    obtain ⟨hlegacy, hrex⟩ := h b rfl
    have hnone : LegacyPrefix.ofByte? b = none := by simpa [Prefix.isLegacy] using hlegacy
    exact Prefix.run_other (fun _ => ⟨hnone, hrex⟩) bytes

theorem decode_of_run_eq_nil {bytes : List UInt8} (h : Prefix.run d.mode bytes = [])
    (ps : List LegacyPrefix) :
    d.decode (ps.map LegacyPrefix.byte ++ bytes) = d.afterLegacies ps bytes := by
  rw [decode_append_legacies, bodyAt_of_run h, h, List.append_nil]
  rfl

theorem decode_of_startsBody {bytes : List UInt8} (h : StartsBody bytes)
    (ps : List LegacyPrefix) :
    d.decode (ps.map LegacyPrefix.byte ++ bytes) = d.afterLegacies ps bytes := by
  apply decode_of_run_eq_nil
  apply run_eq_nil_of_head
  intro b hb
  exact ⟨(h b hb).1, fun _ => (h b hb).2⟩

theorem prefixes_of_afterLegacies {ps : List LegacyPrefix} {bytes : List UInt8} {i : Instruction}
    (h : d.afterLegacies ps bytes = .ok i) : i.prefixes = ps.map .legacy := by
  obtain ⟨body, after, _, rfl⟩ := assemble_ok h
  rfl

/-- In 64-bit code one REX is as good as another: behind the same legacy prefixes the results are
one error, or records that differ in the REX alone. Where the opcode follows, the result without
the REX is the same again, less its record and one byte shorter. -/
theorem decode_rex_transparent {d : Decoder} (hd : d.mode = .bits64) (ps : List LegacyPrefix)
    (x y : Rex) (bytes : List UInt8) :
    ((∃ e, d.decode (ps.map LegacyPrefix.byte ++ x.byte :: bytes) = .error e ∧
          d.decode (ps.map LegacyPrefix.byte ++ y.byte :: bytes) = .error e) ∨
        ∃ i : Instruction,
          d.decode (ps.map LegacyPrefix.byte ++ x.byte :: bytes) =
            .ok { i with prefixes := ps.map .legacy ++ [.rex x] } ∧
          d.decode (ps.map LegacyPrefix.byte ++ y.byte :: bytes) =
            .ok { i with prefixes := ps.map .legacy ++ [.rex y] }) ∧
      (StartsBody bytes →
        d.decode (ps.map LegacyPrefix.byte ++ x.byte :: bytes) =
          withRex x (d.decode (ps.map LegacyPrefix.byte ++ bytes))) := by
  refine ⟨?_, ?_⟩
  · rw [decode_rex hd, decode_rex hd]
    cases h : d.afterLegacies ps bytes with
    | error e => exact .inl ⟨_, rfl, rfl⟩
    | ok i =>
      refine .inr ⟨{ i with length := i.length + 1 }, ?_, ?_⟩
      all_goals rw [← prefixes_of_afterLegacies h, withRex]
  · intro hstart
    rw [decode_rex hd, decode_of_startsBody hstart]

/-- An addition to memory at the frame pointer, or at the register that REX.B puts in its place. -/
def addToFrame : List UInt8 := [0x81, 0x45, 0x08, 0x34, 0x12]

theorem decode_rex_transparent_addToFrame :
    (∃ i : Instruction, i.operandSize = .bits16 ∧ i.segment = .ss ∧
        (ofMode .bits64).decode ([0x66, 0x4F] ++ addToFrame) =
          .ok { i with prefixes := [.legacy .operandSize, .rex ⟨true, true, true, true⟩] } ∧
        (ofMode .bits64).decode ([0x66, 0x40] ++ addToFrame) =
          .ok { i with prefixes := [.legacy .operandSize, .rex ⟨false, false, false, false⟩] }) ∧
      (ofMode .bits64).decode ([0x66, 0x4F] ++ addToFrame) =
        withRex ⟨true, true, true, true⟩ ((ofMode .bits64).decode ([0x66] ++ addToFrame)) := by
  obtain ⟨hsame, hwithout⟩ := decode_rex_transparent (d := ofMode .bits64) rfl [.operandSize]
    ⟨true, true, true, true⟩ ⟨false, false, false, false⟩ addToFrame
  refine ⟨?_, hwithout ?_⟩
  · rcases hsame with ⟨e, he, _⟩ | ⟨i, hi, hj⟩
    · cases he
    · obtain ⟨ps, opcode, addressing, immediate, addressSize, operandSize, segment, length⟩ := i
      cases hi
      exact ⟨_, rfl, rfl, rfl, hj⟩
  · intro b hb
    cases hb
    exact ⟨rfl, rfl⟩

-- where a legacy prefix follows, the REX makes an opcode of it
example : (ofMode .bits64).decode [0x48, 0x66, 0x90] = .error (.unsupported 0x66) ∧
    ∃ i, (ofMode .bits64).decode [0x66, 0x90] = .ok i := ⟨rfl, _, rfl⟩

end Decoder

end X86Layout
