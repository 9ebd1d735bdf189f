import X86Layout.Proofs.Truncation

namespace X86Layout.Decoder

variable {d : Decoder} {bytes : List UInt8}

/-- Some continuation of these bytes begins with an instruction. -/
def Viable (d : Decoder) (bytes : List UInt8) : Prop :=
  ∃ tail i, d.decode (bytes ++ tail) = .ok i

/-- Some opcode of this map and mode can stand without a prefix. -/
def KnowsOpcode (d : Decoder) : Prop :=
  ∃ b o, Prefix.Stops d.mode [] b ∧ d.resolve b = .ok o

theorem decode_ok_of_resolved {b : UInt8} {o : Opcode} (hb : bytes[d.runLength bytes]? = some b)
    (ho : d.resolve b = .ok o) (hlen : d.runLength bytes + 11 ≤ bytes.length) :
    ∃ i, d.decode bytes = .ok i := by
  have h := decode_of_resolved hb ho
  cases hcut : d.cut? bytes with
  | none => simpa [hcut] using h
  | some cut =>
    obtain ⟨field, offset⟩ := cut
    obtain ⟨_, _, hlt⟩ := cut?_eq_some_iff.mp hcut
    have hle := d.start_add_width_le bytes field
    omega

/-- Bytes that end behind the opcode have one that the map and the mode accept. -/
theorem resolved_of_truncated {field : Field} {offset : Nat}
    (h : d.decode bytes = .error (.truncated field offset)) (hfield : field ≠ .opcode) :
    ∃ b o, bytes[d.runLength bytes]? = some b ∧ d.resolve b = .ok o := by
  rcases d.opcode_cases bytes with hlen | ⟨b, e, hb, hr⟩ | hresolved
  · rw [decode_of_no_opcode hlen] at h
    cases h
    exact absurd rfl hfield
  · rw [decode_of_refused hb hr] at h
    cases h
    rcases resolve_error hr with ⟨he, _⟩ | ⟨he, _⟩ <;> cases he
  · exact hresolved

/-- Behind an opcode no instruction wants more than ten bytes, and it takes any ten. -/
theorem completes_of_truncated {field : Field} {offset : Nat}
    (h : d.decode bytes = .error (.truncated field offset)) (hfield : field ≠ .opcode)
    (tail : List UInt8) (htail : 10 ≤ tail.length) :
    ∃ i, d.decode (bytes ++ tail) = .ok i ∧ bytes.length < i.length := by
  obtain ⟨b, o, hb, ho⟩ := resolved_of_truncated h hfield
  obtain ⟨hlt, _⟩ := List.getElem?_eq_some_iff.mp hb
  have henough : d.runLength (bytes ++ tail) + 11 ≤ (bytes ++ tail).length := by
    rw [runLength_append hlt, List.length_append]
    omega
  obtain ⟨i, hi⟩ := decode_ok_of_resolved (opcode_append hb tail) ho henough
  exact ⟨i, hi, (runsOut_iff_of_ok hi).mp ⟨field, offset, h⟩⟩

example : (ofMode .bits32).decode ([0x81] ++ List.replicate 9 0x84) =
    .error (.truncated .immediate 7) := rfl

/-- Prefixes alone are continued by any opcode that is no prefix itself. -/
theorem completes_of_no_opcode {b : UInt8} {o : Opcode} (hstops : Prefix.Stops d.mode [] b)
    (ho : d.resolve b = .ok o) (h : bytes.length = d.runLength bytes) (tail : List UInt8)
    (htail : 10 ≤ tail.length) : ∃ i, d.decode (bytes ++ b :: tail) = .ok i := by
  have hbytes : (Prefix.run d.mode bytes).map Prefix.byte = bytes := by
    rw [Prefix.map_byte_run]
    exact List.take_of_length_le (Nat.le_of_eq h)
  have hstop : Prefix.Stops d.mode (Prefix.run d.mode bytes) b := fun _ => hstops rfl
  have hrun := Prefix.run_append_stop (Prefix.isRun_run d.mode bytes) hstop tail
  rw [hbytes] at hrun
  have hlen : d.runLength (bytes ++ b :: tail) = bytes.length := by
    rw [runLength, hrun]
    exact h.symm
  have hb : (bytes ++ b :: tail)[d.runLength (bytes ++ b :: tail)]? = some b := by simp [hlen]
  apply decode_ok_of_resolved hb ho
  rw [hlen, List.length_append, List.length_cons]
  omega

theorem viable_of_runsOut (hd : d.KnowsOpcode) (h : d.RunsOut bytes) : d.Viable bytes := by
  have hten : 10 ≤ (List.replicate 10 (0 : UInt8)).length := by simp
  obtain ⟨field, offset, he⟩ := h
  by_cases hfield : field = .opcode
  · subst hfield
    obtain ⟨_, hle, hlt⟩ := cut?_eq_some_iff.mp (cut?_of_truncated he)
    simp only [start, width] at hle hlt
    have hlen : bytes.length = d.runLength bytes := by omega
    obtain ⟨b, o, hstops, ho⟩ := hd
    obtain ⟨i, hi⟩ := completes_of_no_opcode hstops ho hlen _ hten
    exact ⟨_, i, hi⟩
  · obtain ⟨i, hi, _⟩ := completes_of_truncated he hfield _ hten
    exact ⟨_, i, hi⟩

theorem not_viable_of_refusal {e : DecodeError} (he : e.IsRefusal) (h : d.decode bytes = .error e) :
    ¬ d.Viable bytes := by
  intro hviable
  obtain ⟨tail, i, hi⟩ := hviable
  rw [decode_append_of_refusal he h tail] at hi
  cases hi

/-- Running out of bytes is the state between an instruction and a refusal. -/
theorem runsOut_iff_viable (hd : d.KnowsOpcode) :
    d.RunsOut bytes ↔ (∀ i, d.decode bytes ≠ .ok i) ∧ d.Viable bytes := by
  constructor
  · intro hout
    refine ⟨?_, viable_of_runsOut hd hout⟩
    intro i hi
    exact not_runsOut_of_ok hi hout
  · intro h
    obtain ⟨hnone, hviable⟩ := h
    rcases d.decode_cases bytes with ⟨i, hi⟩ | ⟨e, he, hrefused⟩ | hout
    · exact absurd hi (hnone i)
    · exact absurd hviable (not_viable_of_refusal he hrefused)
    · exact hout

theorem refused_iff_not_viable (hd : d.KnowsOpcode) :
    (∃ e, e.IsRefusal ∧ d.decode bytes = .error e) ↔ ¬ d.Viable bytes := by
  constructor
  · intro h
    obtain ⟨e, he, hrefused⟩ := h
    exact not_viable_of_refusal he hrefused
  · intro hnot
    rcases d.decode_cases bytes with ⟨i, hi⟩ | hrefused | hout
    · have hviable : d.Viable bytes := ⟨[], i, by simpa using hi⟩
      exact absurd hviable hnot
    · exact hrefused
    · exact absurd (viable_of_runsOut hd hout) hnot

/-- No operation is an opcode in every mode. -/
theorem knowsOpcode_ofMode (mode : Mode) : (ofMode mode).KnowsOpcode := by
  have hstops : Prefix.Stops mode [] 0x90 := fun _ => ⟨rfl, fun _ => rfl⟩
  cases mode <;> exact ⟨0x90, _, hstops, rfl⟩

/-- With the primary map, bytes are called truncated exactly if they are no instruction yet and can
still become one, and refused exactly if nothing can follow that makes them one. Behind the opcode,
whatever the map, any ten bytes more complete the instruction. -/
theorem truncated_iff_viable (mode : Mode) (bytes : List UInt8) :
    ((∃ field offset, (ofMode mode).decode bytes = .error (.truncated field offset)) ↔
        (∀ i, (ofMode mode).decode bytes ≠ .ok i) ∧
          ∃ tail i, (ofMode mode).decode (bytes ++ tail) = .ok i) ∧
      ((∃ e, e.IsRefusal ∧ (ofMode mode).decode bytes = .error e) ↔
        ∀ tail i, (ofMode mode).decode (bytes ++ tail) ≠ .ok i) ∧
      ∀ (map : OpcodeMap) (field : Field) (offset : Nat),
        (Decoder.mk mode map).decode bytes = .error (.truncated field offset) → field ≠ .opcode →
        ∀ tail, 10 ≤ tail.length →
          ∃ i, (Decoder.mk mode map).decode (bytes ++ tail) = .ok i ∧ bytes.length < i.length := by
  have hknows := knowsOpcode_ofMode mode
  refine ⟨runsOut_iff_viable hknows, ?_, ?_⟩
  · rw [refused_iff_not_viable hknows]
    simp only [Viable, not_exists, ne_eq]
  · intro map field offset h hfield tail htail
    exact completes_of_truncated h hfield tail htail

theorem truncated_iff_viable_samples :
    (∃ tail i, (ofMode .bits64).decode ([0x66, 0x48] ++ tail) = .ok i) ∧
      (∀ tail i, (ofMode .bits64).decode ([0x48, 0x48] ++ tail) ≠ .ok i) ∧
      ∃ i, (ofMode .bits16).decode ([0xF7] ++ List.replicate 10 0x86) = .ok i ∧ 1 < i.length := by
  refine ⟨?_, ?_, ?_⟩
  · exact ((truncated_iff_viable .bits64 [0x66, 0x48]).1.mp ⟨.opcode, 2, rfl⟩).2
  · exact (truncated_iff_viable .bits64 [0x48, 0x48]).2.1.mp
      ⟨.modeIncompatible 0x48 .bits64, trivial, rfl⟩
  · exact (truncated_iff_viable .bits16 [0xF7]).2.2 .primary .modrm 1 rfl (by decide) _ (by decide)

end X86Layout.Decoder
