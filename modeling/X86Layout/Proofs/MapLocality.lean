import X86Layout.Proofs.LastEdit
import X86Layout.Proofs.ModeAgreement

namespace X86Layout

/-- The same opcode under another name. -/
def Opcode.renamed (name : String) (o : Opcode) : Opcode := { o with mnemonic := name }

def Instruction.renamed (name : String) (i : Instruction) : Instruction :=
  { i with opcode := i.opcode.renamed name }

namespace Decoder

def Body.renamed (name : String) (b : Body) : Body := { b with opcode := b.opcode.renamed name }

/-- The byte behind the prefixes, where the opcode is looked for. There is none if the bytes end
with the prefixes. -/
def opcodeByte? (mode : Mode) (bytes : List UInt8) : Option UInt8 :=
  bytes[(Prefix.run mode bytes).length]?

variable {mode : Mode} {map map' : OpcodeMap} {bytes : List UInt8} {b : UInt8} {o : Opcode}

theorem opcodeByte?_eq_none_iff :
    opcodeByte? mode bytes = none ↔ bytes.length = (Prefix.run mode bytes).length := by
  have hle := Prefix.length_run_le mode bytes
  rw [opcodeByte?, List.getElem?_eq_none_iff]
  omega

theorem resolve_congr_map (h : map.get? b = map'.get? b) :
    (Decoder.mk mode map).resolve b = (Decoder.mk mode map').resolve b := by
  simp only [resolve, h]

theorem decode_congr_map (h : ∀ b ∈ opcodeByte? mode bytes, map.get? b = map'.get? b) :
    (Decoder.mk mode map).decode bytes = (Decoder.mk mode map').decode bytes := by
  rw [decode_eq_assemble, decode_eq_assemble, readBody_eq_of_reads]
  · rfl
  · apply readOpcode_congr
    intro b hb
    apply resolve_congr_map
    apply h
    rwa [opcodeByte?, ← List.head?_drop]
  · intro o mid _
    rfl

theorem decode_applyAll_of_not_covered {edits : List OpcodeMap.Edit}
    (h : ∀ b ∈ opcodeByte? mode bytes, ∀ e ∈ edits, ¬ e.covers b = true) :
    (Decoder.mk mode (map.applyAll edits)).decode bytes = (Decoder.mk mode map).decode bytes := by
  apply decode_congr_map
  intro b hb
  rw [OpcodeMap.get?_applyAll, OpcodeMap.leftBy_of_not_covered (h b hb)]

/-- No width and no flag is taken from the name. -/
theorem readFields_renamed (mode : Mode) (size : OperandSize) (name : String) (o : Opcode) :
    readFields mode size (o.renamed name) = Body.renamed name <$> readFields mode size o := by
  simp only [readFields, map_bind, map_pure]
  rfl

theorem readBody_renamed {name : String} (ho : map.get? b = some o)
    (ho' : map'.get? b = some (o.renamed name)) (size : OperandSize) (rest : List UInt8) :
    ((Decoder.mk mode map').readBody size).run (.ofBytes (b :: rest)) =
      (((Decoder.mk mode map).readBody size).run (.ofBytes (b :: rest))).map
        fun outcome => (outcome.1.renamed name, outcome.2) := by
  by_cases hvalid : o.validIn mode = true
  · have hok : (Decoder.mk mode map).resolve b = .ok o := resolve_ok.mpr ⟨ho, hvalid⟩
    have hok' : (Decoder.mk mode map').resolve b = .ok (o.renamed name) :=
      resolve_ok.mpr ⟨ho', hvalid⟩
    rw [readBody_of_ok hok, readBody_of_ok hok', readFields_renamed, StateT.run_map]
    rfl
  · have hrefused : (Decoder.mk mode map).resolve b = .error (.modeIncompatible b mode) := by
      simp [resolve, ho, hvalid]
    have hrefused' : (Decoder.mk mode map').resolve b = .error (.modeIncompatible b mode) := by
      have hvalid' : ¬ (o.renamed name).validIn mode = true := hvalid
      simp [resolve, ho', hvalid']
    rw [readBody_of_error hrefused, readBody_of_error hrefused']
    rfl

theorem assemble_renamed (d : Decoder) (prefixes : List Prefix) (name : String)
    (outcome : Except DecodeError (Body × Reader)) :
    d.assemble prefixes (outcome.map fun outcome => (outcome.1.renamed name, outcome.2)) =
      (d.assemble prefixes outcome).map (Instruction.renamed name) := by
  cases outcome with
  | error e => rfl
  | ok pair => rfl

theorem decode_renamed {name : String} (hb : opcodeByte? mode bytes = some b)
    (ho : map.get? b = some o) (ho' : map'.get? b = some (o.renamed name)) :
    (Decoder.mk mode map').decode bytes =
      ((Decoder.mk mode map).decode bytes).map (Instruction.renamed name) := by
  have hdrop : bytes.drop (Prefix.run mode bytes).length =
      b :: bytes.drop ((Prefix.run mode bytes).length + 1) :=
    drop_runLength (d := ⟨mode, map⟩) hb
  rw [decode_eq_assemble, decode_eq_assemble, hdrop, readBody_renamed ho ho', assemble_renamed]
  rfl

/-- Of the whole map a decode looks at one entry, that of the byte behind the prefixes, and of this
entry not at its name. Maps that agree there give the same result, so edits elsewhere go
unnoticed, and if the entries differ in the name alone then so do the results. If the bytes end with
the prefixes no entry is looked at. -/
theorem decode_looks_at_one_entry (mode : Mode) (map map' : OpcodeMap) (bytes : List UInt8) :
    ((∀ b ∈ opcodeByte? mode bytes, map.get? b = map'.get? b) →
        (Decoder.mk mode map).decode bytes = (Decoder.mk mode map').decode bytes) ∧
      (∀ edits : List OpcodeMap.Edit,
        (∀ b ∈ opcodeByte? mode bytes, ∀ e ∈ edits, ¬ e.covers b = true) →
        (Decoder.mk mode (map.applyAll edits)).decode bytes =
          (Decoder.mk mode map).decode bytes) ∧
      (∀ b ∈ opcodeByte? mode bytes, ∀ o name, map.get? b = some o →
        map'.get? b = some { o with mnemonic := name } →
        (∃ e, (Decoder.mk mode map).decode bytes = .error e ∧
            (Decoder.mk mode map').decode bytes = .error e) ∨
          ∃ i j, (Decoder.mk mode map).decode bytes = .ok i ∧
            (Decoder.mk mode map').decode bytes = .ok j ∧
            j = { i with opcode := { i.opcode with mnemonic := name } } ∧
            j.effectiveOperandSize = i.effectiveOperandSize ∧ j.rex = i.rex) ∧
      (bytes.length = (Prefix.run mode bytes).length →
        (Decoder.mk mode map).decode bytes = (Decoder.mk mode map').decode bytes) := by
  refine ⟨decode_congr_map, fun _ => decode_applyAll_of_not_covered, ?_, ?_⟩
  · intro b hb o name ho ho'
    rw [decode_renamed hb ho ho']
    cases (Decoder.mk mode map).decode bytes with
    | error e => exact .inl ⟨e, rfl, rfl⟩
    | ok i => exact .inr ⟨i, i.renamed name, rfl, rfl, rfl, rfl, rfl⟩
  · intro hend
    apply decode_congr_map
    rw [opcodeByte?_eq_none_iff.mpr hend]
    intro b hb
    cases hb

/-- An addition of a word to a register that REX.B chooses. -/
def addToRegister : List UInt8 := [0x66, 0x41, 0x81, 0xC0, 0x34, 0x12]

/-- A map that knows the opcode of that addition and no other. -/
def additionOnly (name : String) : OpcodeMap :=
  OpcodeMap.empty.insert 0x81 (Opcode.named name).withModRM.withImmediate

theorem decode_looks_at_one_entry_addToRegister :
    opcodeByte? .bits64 addToRegister = some 0x81 ∧
      (Decoder.mk .bits64 (additionOnly "grp1")).decode addToRegister =
        (ofMode .bits64).decode addToRegister ∧
      (Decoder.mk .bits64 (OpcodeMap.primary.applyAll
          [.erase 0x66, .insertRange 0x82 0xFF (.named "none")])).decode addToRegister =
        (ofMode .bits64).decode addToRegister ∧
      (∃ i j, (Decoder.mk .bits64 (additionOnly "grp1")).decode addToRegister = .ok i ∧
        (Decoder.mk .bits64 (additionOnly "add")).decode addToRegister = .ok j ∧
        i.opcode.mnemonic = "grp1" ∧ j = { i with opcode := { i.opcode with mnemonic := "add" } } ∧
        j.effectiveOperandSize = i.effectiveOperandSize ∧ j.rex = i.rex) ∧
      (Decoder.mk .bits64 .empty).decode [0x66, 0x41] = (ofMode .bits64).decode [0x66, 0x41] := by
  have hbyte : opcodeByte? .bits64 addToRegister = some 0x81 := rfl
  obtain ⟨hagree, _⟩ :=
    decode_looks_at_one_entry .bits64 (additionOnly "grp1") .primary addToRegister
  obtain ⟨_, hedits, _⟩ := decode_looks_at_one_entry .bits64 .primary .primary addToRegister
  obtain ⟨_, _, hrenamed, _⟩ :=
    decode_looks_at_one_entry .bits64 (additionOnly "grp1") (additionOnly "add") addToRegister
  obtain ⟨_, _, _, hend⟩ := decode_looks_at_one_entry .bits64 .empty .primary [0x66, 0x41]
  refine ⟨hbyte, hagree ?_, hedits _ ?_, ?_, hend rfl⟩
  · rw [hbyte]
    intro b hb
    cases hb
    rfl
  · rw [hbyte]
    intro b hb
    cases hb
    decide
  · rcases hrenamed 0x81 hbyte _ "add" rfl rfl with ⟨e, he, _⟩ | ⟨i, j, hi, hj, hsame, hsize, hrex⟩
    · cases he
    · refine ⟨i, j, hi, hj, ?_, hsame, hsize, hrex⟩
      cases hi
      rfl

end Decoder

end X86Layout
