import X86Layout.Proofs.AssembledText
import X86Layout.Proofs.Truncation

namespace X86Layout

/-- What a log says of the fields of an instruction. Of a ModRM byte or an immediate that is not
there it says nothing. -/
def Log.ofFields (o : Opcode) (modrm sib : Option UInt8) (displacementSize : Nat)
    (immediateSize : Option Nat) : Log :=
  [.event .trace "opcode" [("opcode", .byte o.byte), ("mnemonic", .text o.mnemonic)]] ++
    (modrm.map fun m => Entry.event .trace "addressing" [("modrm", .byte m),
      ("sib", .optionalByte sib), ("displacement_size", .number displacementSize)]).toList ++
    (immediateSize.map fun n => Entry.event .trace "immediate" [("size", .number n)]).toList

namespace Decoder

/-- What the log of a decode says of this result, between the prefixes and its end. -/
inductive Tells (d : Decoder) (bytes : List UInt8) : Except DecodeError Instruction → Log → Prop
  | decoded (i : Instruction) (hcount : i.prefixes.length = d.runLength bytes) :
      Tells d bytes (.ok i) (.ofFields i.opcode (i.modrm.map ModRM.byte) (i.sib.map SIB.byte)
        i.displacementSize (i.immediate.map fun _ => i.immediateSize))
  | refused (e : DecodeError) (he : e.IsRefusal) : Tells d bytes (.error e) []
  | noOpcode : Tells d bytes (.error (.truncated .opcode (d.runLength bytes))) []
  | noAddressing (field : Field) (offset : Nat) (o : Opcode)
      (hfield : field ∈ [Field.modrm, .sib, .displacement]) (ho : d.entryAt? bytes = some o) :
      Tells d bytes (.error (.truncated field offset)) (.ofFields o none none 0 none)
  /-- The size is the one that `rest`, all that is left behind the addressing bytes, cannot fill. -/
  | noImmediate (offset : Nat) (o : Opcode) (a : Option Addressing) (w : Width) (rest : List UInt8)
      (ho : d.entryAt? bytes = some o) (hmodrm : a.isSome = o.hasModRM)
      (hcomplete : ∀ x ∈ a, x.Complete d.mode)
      (hbytes : bytes.drop (d.runLength bytes + 1) = (a.map Addressing.encode).getD [] ++ rest)
      (hwidth : o.immediateWidth? a (d.operandSize (Prefix.run d.mode bytes)) = some w)
      (hoffset : offset + rest.length = bytes.length) (hshort : rest.length < w.bytes) :
      Tells d bytes (.error (.truncated .immediate offset))
        (.ofFields o (a.map (·.modrm.byte)) ((a.bind (·.sib)).map SIB.byte)
          (a.elim 0 Addressing.displacementSize) (some w.bytes))

/-- Bytes are the addressing bytes of an opcode in one way only. -/
theorem addressing_unique {mode : Mode} {o : Opcode} {a a' : Option Addressing}
    {rest rest' : List UInt8} (hmodrm : a.isSome = o.hasModRM) (hmodrm' : a'.isSome = o.hasModRM)
    (hcomplete : ∀ x ∈ a, x.Complete mode) (hcomplete' : ∀ x ∈ a', x.Complete mode)
    (h : (a.map Addressing.encode).getD [] ++ rest = (a'.map Addressing.encode).getD [] ++ rest') :
    a = a' := by
  have hread := (accepts_readAddressing mode o ⟨[], _⟩ a ⟨_, rest⟩).mpr
    ⟨⟨hmodrm, hcomplete⟩, rfl, rfl⟩
  have hread' := (accepts_readAddressing mode o ⟨[], _⟩ a' ⟨_, rest'⟩).mpr
    ⟨⟨hmodrm', hcomplete'⟩, rfl, rfl⟩
  rw [h, hread'] at hread
  cases hread
  rfl

/-- The result leaves no choice of what to say. -/
theorem Tells.unique {d : Decoder} {bytes : List UInt8} {result : Except DecodeError Instruction}
    {told told' : Log} (h : d.Tells bytes result told) (h' : d.Tells bytes result told') :
    told' = told := by
  cases h with
  | decoded i hcount =>
    cases h'
    rfl
  | refused e he =>
    cases h' with
    | refused => rfl
    | _ => exact he.elim
  | noOpcode =>
    cases h' with
    | noOpcode => rfl
    | refused _ he => exact he.elim
    | noAddressing _ _ _ hfield => simp at hfield
  | noAddressing field offset o hfield ho =>
    cases h' with
    | noOpcode => simp at hfield
    | refused _ he => exact he.elim
    | noAddressing _ _ o' _ ho' =>
      cases ho.symm.trans ho'
      rfl
    | noImmediate => simp at hfield
  | noImmediate offset o a w rest ho hmodrm hcomplete hbytes hwidth =>
    cases h' with
    | refused _ he => exact he.elim
    | noAddressing _ _ _ hfield => simp at hfield
    | noImmediate _ o' a' w' rest' ho' hmodrm' hcomplete' hbytes' hwidth' =>
      cases ho.symm.trans ho'
      obtain rfl := addressing_unique hmodrm hmodrm' hcomplete hcomplete' (hbytes ▸ hbytes')
      cases hwidth.symm.trans hwidth'
      rfl

theorem ofFields_eq (o : Opcode) (a : Option Addressing) (w : Option Width) :
    Log.ofFields o (a.map (·.modrm.byte)) ((a.bind (·.sib)).map SIB.byte)
        (a.elim 0 Addressing.displacementSize) (w.map Width.bytes) = fieldEvents o a w := by
  cases a <;> cases w <;> rfl

theorem ofFields_instruction (mode : Mode) (prefixes : List Prefix) (length : Nat) (b : Body) :
    let i := b.instruction mode prefixes length
    Log.ofFields i.opcode (i.modrm.map ModRM.byte) (i.sib.map SIB.byte) i.displacementSize
        (i.immediate.map fun _ => i.immediateSize) =
      fieldEvents b.opcode b.addressing (b.immediate.map (·.width)) := by
  obtain ⟨o, a, x⟩ := b
  cases a <;> cases x <;> rfl

variable {d : Decoder} {bytes : List UInt8} {o : Opcode} {a : Option Addressing} {r r' : Reader}
  {e : DecodeError}

/-- An opcode that was read is the entry of the byte behind the prefixes. -/
theorem entryAt?_of_readOpcode (h : d.readOpcode.run (afterPrefixes d.mode bytes) = .ok (o, r)) :
    d.entryAt? bytes = some o ∧ r.rest = bytes.drop (d.runLength bytes + 1) ∧ r.buffer = bytes := by
  obtain ⟨⟨hentry, _⟩, hc⟩ := (accepts_readOpcode d _ o r).mp h
  have hrest : bytes.drop (d.runLength bytes) = o.byte :: r.rest := hc.1
  have hbyte : bytes[d.runLength bytes]? = some o.byte := by
    rw [← List.head?_drop, hrest]
    rfl
  refine ⟨?_, ?_, ?_⟩
  · simp [entryAt?, hbyte, hentry]
  · rw [← List.drop_drop, hrest]
    rfl
  · rw [Reader.Precedes.buffer_eq ⟨_, hc⟩]
    simp [afterPrefixes]

theorem readImmediate_error {w : Option Width} (h : (readImmediate w).run r = .error e) :
    ∃ v, w = some v ∧ e = .truncated .immediate r.position ∧ r.rest.length < v.bytes := by
  have hd := demands_readImmediate w r
  simp only [ReadM.Demands, ReadM.firstCut] at hd
  cases w with
  | none => cases h
  | some v =>
    by_cases hshort : r.remaining < v.bytes
    · simp only [Option.elim_some, hshort, ↓reduceIte] at hd
      rw [h] at hd
      exact ⟨v, rfl, Except.error.inj hd, hshort⟩
    · simp only [Option.elim_some, hshort, ↓reduceIte] at hd
      obtain ⟨i, after, hok, _⟩ := hd
      rw [h] at hok
      cases hok

theorem tells_of_readOpcode_error (h : d.readOpcode.run (afterPrefixes d.mode bytes) = .error e) :
    d.Tells bytes (d.decode bytes) [] := by
  rcases d.opcode_cases bytes with hlen | ⟨b, e', hb, hr⟩ | ⟨b, o, hb, ho⟩
  · rw [decode_of_no_opcode hlen]
    exact .noOpcode
  · rw [decode_of_refused hb hr]
    apply Tells.refused
    rcases resolve_error hr with ⟨rfl, _⟩ | ⟨rfl, _⟩ <;> trivial
  · rw [afterPrefixes_eq_cons hb, run_readOpcode ho] at h
    cases h

section Reads

variable (ho : d.readOpcode.run (afterPrefixes d.mode bytes) = .ok (o, r))

include ho in
theorem tells_of_readAddressing_error (ha : (readAddressing d.mode o).run r = .error e) :
    d.Tells bytes (d.decode bytes) (fieldEvents o none none) := by
  have hdecode : d.decode bytes = .error e := by
    apply decode_eq_error_iff_readBody.mpr
    rw [readBody, ReadM.run_bind_of_ok ho, readFields, ReadM.run_bind_of_error ha]
  obtain ⟨field, hfield, offset, rfl⟩ := (demands_readAddressing rfl).truncated_of_error ha
  rw [hdecode]
  exact .noAddressing field offset o hfield (entryAt?_of_readOpcode ho).1

variable (ha : (readAddressing d.mode o).run r = .ok (a, r')) {w : Option Width}
  (hw : o.immediateWidth? a (d.operandSize (Prefix.run d.mode bytes)) = w)

include ho ha hw

theorem tells_of_readImmediate_error (hi : (readImmediate w).run r' = .error e) :
    d.Tells bytes (d.decode bytes) (fieldEvents o a w) := by
  have hdecode : d.decode bytes = .error e := by
    apply decode_eq_error_iff_readBody.mpr
    rw [readBody, ReadM.run_bind_of_ok ho, readFields, ReadM.run_bind_of_ok ha, hw,
      ReadM.run_bind_of_error hi]
  obtain ⟨hentry, hrest, hbuffer⟩ := entryAt?_of_readOpcode ho
  obtain ⟨⟨hmodrm, hcomplete⟩, hc⟩ := (accepts_readAddressing d.mode o r a r').mp ha
  obtain ⟨v, rfl, rfl, hshort⟩ := readImmediate_error hi
  have hoffset : r'.position + r'.rest.length = bytes.length := by
    have hsame : r'.buffer = r.buffer := Reader.Precedes.buffer_eq ⟨_, hc⟩
    rw [← hbuffer, ← hsame, ← r'.position_add_remaining]
    rfl
  rw [hdecode, ← ofFields_eq]
  exact .noImmediate r'.position o a v r'.rest hentry hmodrm hcomplete (hrest ▸ hc.1) hw hoffset
    hshort

theorem tells_of_reads {x : Option Immediate} {after : Reader}
    (hi : (readImmediate w).run r' = .ok (x, after)) :
    d.Tells bytes (d.decode bytes) (fieldEvents o a w) := by
  have hdecode : d.decode bytes = .ok ((Body.mk o a x).instruction d.mode
      (Prefix.run d.mode bytes) after.position) := by
    refine decode_eq_ok_iff_readBody.mpr ⟨⟨o, a, x⟩, after, ?_, rfl⟩
    rw [readBody, ReadM.run_bind_of_ok ho, readFields, ReadM.run_bind_of_ok ha, hw,
      ReadM.run_bind_of_ok hi]
    rfl
  have hwidth : x.map (·.width) = w := ((accepts_readImmediate w r' x after).mp hi).1.1
  have htold := ofFields_instruction d.mode (Prefix.run d.mode bytes) after.position ⟨o, a, x⟩
  rw [hwidth] at htold
  rw [hdecode, ← htold]
  exact .decoded _ rfl

end Reads

theorem tells_account (d : Decoder) (bytes : List UInt8) :
    d.Tells bytes (d.decode bytes)
      (d.account (d.operandSize (Prefix.run d.mode bytes)) (afterPrefixes d.mode bytes)) := by
  unfold account
  cases ho : d.readOpcode.run (afterPrefixes d.mode bytes) with
  | error e => exact tells_of_readOpcode_error ho
  | ok pair =>
    obtain ⟨o, r⟩ := pair
    cases ha : (readAddressing d.mode o).run r with
    | error e =>
      simp only [ha]
      exact tells_of_readAddressing_error ho ha
    | ok pair =>
      obtain ⟨a, r'⟩ := pair
      simp only [ha]
      cases hi : (readImmediate (o.immediateWidth? a
          (d.operandSize (Prefix.run d.mode bytes)))).run r' with
      | error e => exact tells_of_readImmediate_error ho ha rfl hi
      | ok pair => exact tells_of_reads ho ha rfl hi

open Assembly

/-- A log tells what happened. A decode announces itself, counts its prefixes, tells of each field
as far as the result says that it came, and closes. A text puts what the assembler made of its
statement in front of the log of decoding it, and without a statement nothing is said. -/
theorem log_tells_result {σ : Type} (d : Decoder) (bytes : List UInt8)
    (assemble : Assembler (StateM σ)) (text : String) (s : σ) :
    (∃ told, (d.run bytes).log =
          [.span .trace "decode" [("mode", .number d.mode.bitness), ("len", .number bytes.length)],
            .enter,
            .event .trace "prefixes" [("count", .number (Prefix.run d.mode bytes).length)]] ++
          told ++ [.exit] ∧
        d.Tells bytes (d.run bytes).result told ∧
        ∀ told', d.Tells bytes (d.run bytes).result told' → told' = told) ∧
      (firstStatement text = "" → ((d.runText assemble text).run s).1.log = []) ∧
      (firstStatement text ≠ "" →
        (∀ e, ((assemble (firstStatement text) d.mode).run s).1 = .error e →
          ((d.runText assemble text).run s).1.log =
            [.event .debug "encoder rejected statement"
              [("err", .text e.message), ("statement", .text (firstStatement text))]]) ∧
        ∀ made, ((assemble (firstStatement text) d.mode).run s).1 = .ok made →
          ((d.runText assemble text).run s).1.log =
            .event .debug "assembled"
              [("statement", .text (firstStatement text)), ("bytes", .byteList made)] ::
            (d.run made).log) := by
  have htells := d.tells_account bytes
  refine ⟨⟨_, d.log_run bytes, htells, fun _ => htells.unique⟩, ?_, ?_⟩
  · intro h
    rw [runText_of_empty h]
    rfl
  · intro h
    have hlog : ((d.runText assemble text).run s).1 =
        d.report (firstStatement text) ((assemble (firstStatement text) d.mode).run s).1 := by
      rw [runText_of_statement h]
      rfl
    refine ⟨?_, ?_⟩
    · intro e he
      rw [hlog, he]
      rfl
    · intro made hmade
      rw [hlog, hmade]
      rfl

/-- The immediate is a word because of the prefix, and one of its bytes is missing. -/
def cutMove : List UInt8 := [0x66, 0xC7, 0x04, 0x24, 0x34]

theorem log_tells_result_cutMove :
    (∃ told, ((ofMode .bits32).run cutMove).log =
          [.span .trace "decode" [("mode", .number 32), ("len", .number 5)], .enter,
            .event .trace "prefixes" [("count", .number 1)]] ++ told ++ [.exit] ∧
        (ofMode .bits32).Tells cutMove (.error (.truncated .immediate 4)) told ∧
        told = [.event .trace "opcode" [("opcode", .number 0xC7), ("mnemonic", .text "mov")],
          .event .trace "addressing" [("modrm", .number 0x04), ("sib", .text "Some(36)"),
            ("displacement_size", .number 0)],
          .event .trace "immediate" [("size", .number 2)]]) ∧
      (((ofMode .bits32).runText counting " ; nop").run 0).1.log = [] ∧
      (((ofMode .bits32).runText counting "nap").run 0).1.log =
        [.event .debug "encoder rejected statement"
          [("err", .text "failed to assemble `nap`: unknown"), ("statement", .text "nap")]] ∧
      (((ofMode .bits32).runText counting " nop;").run 0).1.log =
        .event .debug "assembled" [("statement", .text "nop"), ("bytes", .text "[144]")] ::
          ((ofMode .bits32).run [0x90]).log := by
  obtain ⟨⟨told, hlog, htells, _⟩, hempty, _⟩ :=
    log_tells_result (ofMode .bits32) cutMove counting " ; nop" 0
  obtain ⟨_, _, hrejected⟩ := log_tells_result (ofMode .bits32) [] counting "nap" 0
  obtain ⟨_, _, hassembled⟩ := log_tells_result (ofMode .bits32) [] counting " nop;" 0
  refine ⟨⟨told, hlog, htells, ?_⟩, hempty rfl, (hrejected (by decide)).1 _ rfl,
    (hassembled (by decide)).2 _ rfl⟩
  exact List.append_cancel_left (List.append_cancel_right hlog.symm)

end Decoder

end X86Layout
