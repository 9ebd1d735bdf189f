import X86Layout.Proofs.PrefixIndependence

namespace X86Layout

namespace Prefix

def isLegacy (b : UInt8) : Bool := (LegacyPrefix.ofByte? b).isSome

/-- The byte behind the longest run of legacy prefixes at the front. -/
def behindLegacies? (bytes : List UInt8) : Option UInt8 := (bytes.dropWhile isLegacy).head?

theorem drop_legacyRun (bytes : List UInt8) :
    bytes.drop (legacyRun bytes).length = bytes.dropWhile isLegacy := by
  induction bytes with
  | nil => rfl
  | cons b bytes ih =>
    cases h : LegacyPrefix.ofByte? b with
    | none => simp [legacyRun, isLegacy, h]
    | some p => simp [legacyRun, isLegacy, h, ih]

/-- Where no REX follows the legacy prefixes, they are the whole run in every mode. -/
theorem run_eq_legacies {bytes : List UInt8}
    (h : ∀ b ∈ behindLegacies? bytes, Rex.isRexByte b = false) (m : Mode) :
    run m bytes = (legacyRun bytes).map legacy := by
  have hrex : rexAt? m (bytes.drop (legacyRun bytes).length) = none := by
    unfold rexAt?
    split
    · rw [drop_legacyRun]
      change (behindLegacies? bytes).bind Rex.ofByte? = none
      cases hb : behindLegacies? bytes with
      | none => rfl
      | some b => exact rex_ofByte?_eq_none (h b hb)
    · rfl
  simp [run, hrex]

end Prefix

/-- The same displacements follow in 32-bit and in 64-bit code, so addressing is read alike. -/
theorem Addressing.read_bits64 : Addressing.read .bits64 = Addressing.read .bits32 := rfl

theorem AddressSize.bytes_resolve_bits64 (overridden : Bool) :
    (resolve .bits64 overridden).bytes = 2 * (resolve .bits32 overridden).bytes := by
  cases overridden <;> rfl

/-- The form that is an address by itself in 32-bit code and an offset from the instruction pointer
in 64-bit code. -/
def ModRM.IsBareAddress (m : ModRM) : Prop := m.mod = 0b00 ∧ m.rm = 0b101

namespace Segment

theorem implied_of_bare {a : Addressing} (h : a.modrm.IsBareAddress) :
    implied .bits32 (some a) = .ds ∧ implied .bits64 (some a) = .cs := by
  simp [implied, Addressing.base, Addressing.base32, Addressing.bareBase, ModRM.isRegister, h.1,
    h.2, BaseRegister.segment]

theorem base32_of_not_bare {a : Addressing} (h : ¬ a.modrm.IsBareAddress) (mode mode' : Mode) :
    a.base32 mode = a.base32 mode' := by
  unfold Addressing.base32
  split
  · rfl
  · rename_i hrm
    have hmod : ¬ a.modrm.mod = 0b00 := fun hmod => h ⟨hmod, hrm⟩
    simp only [if_neg hmod]
  · rfl

theorem implied_bits64_of_not_bare {addressing : Option Addressing}
    (h : ¬ ∃ a ∈ addressing, a.modrm.IsBareAddress) :
    implied .bits64 addressing = implied .bits32 addressing := by
  cases addressing with
  | none => rfl
  | some a =>
    have hbare : ¬ a.modrm.IsBareAddress := fun hbare => h ⟨a, rfl, hbare⟩
    simp only [implied, Addressing.base, base32_of_not_bare hbare .bits64 .bits32]

theorem select_of_override {ps : List Prefix} {s : Segment} (h : .legacy (.segment s) ∈ ps)
    (mode mode' : Mode) (addressing addressing' : Option Addressing) :
    select mode ps addressing = select mode' ps addressing' := by
  cases hmin : (overrides ps).min? with
  | none =>
    have hmem := mem_overrides.mpr h
    rw [List.min?_eq_none_iff.mp hmin] at hmem
    cases hmem
  | some t => simp [select, hmin]

theorem select_of_no_override {ps : List Prefix} (h : ∀ s, .legacy (.segment s) ∉ ps)
    (mode : Mode) (addressing : Option Addressing) :
    select mode ps addressing = implied mode addressing := by
  have hnone : overrides ps = [] := by
    apply List.eq_nil_iff_forall_not_mem.mpr
    intro s hs
    exact h s (mem_overrides.mp hs)
  simp [select, hnone]

end Segment

/-- The address is bare and no prefix says which segment it is in. -/
def Instruction.HasBareAddress (i : Instruction) : Prop :=
  (∀ s, .legacy (.segment s) ∉ i.prefixes) ∧ ∃ m ∈ i.modrm, m.IsBareAddress

namespace Decoder

theorem readOpcode_congr {d d' : Decoder} {r : Reader}
    (h : ∀ b, r.peek? = some b → d.resolve b = d'.resolve b) :
    d.readOpcode.run r = d'.readOpcode.run r := by
  obtain ⟨taken, rest⟩ := r
  cases rest with
  | nil => rfl
  | cons b rest =>
    change (liftM (d.resolve b) : ReadM Opcode).run _ = (liftM (d'.resolve b) : ReadM Opcode).run _
    rw [h b rfl]

/-- Behind the opcode the mode counts for addressing only. -/
theorem readFields_congr {mode mode' : Mode} {size : OperandSize} {o : Opcode} {r : Reader}
    (h : (readAddressing mode o).run r = (readAddressing mode' o).run r) :
    (readFields mode size o).run r = (readFields mode' size o).run r := by
  simp only [readFields, StateT.run_bind, h]

/-- Two decoders that read the opcode alike, and what that opcode asks for, read the same body. -/
theorem readBody_eq_of_reads {d d' : Decoder} {r : Reader} (size : OperandSize)
    (hopcode : d.readOpcode.run r = d'.readOpcode.run r)
    (haddressing : ∀ o mid, d'.readOpcode.run r = .ok (o, mid) →
      (readAddressing d.mode o).run mid = (readAddressing d'.mode o).run mid) :
    (d.readBody size).run r = (d'.readBody size).run r := by
  unfold readBody
  cases ho : d'.readOpcode.run r with
  | error e => rw [ReadM.run_bind_of_error (hopcode.trans ho), ReadM.run_bind_of_error ho]
  | ok pair =>
    obtain ⟨o, mid⟩ := pair
    rw [ReadM.run_bind_of_ok (hopcode.trans ho), ReadM.run_bind_of_ok ho]
    exact readFields_congr (haddressing o mid ho)

/-- The byte behind the legacy prefixes, if there is one, is no REX, and an opcode that the map
files under it is neither withdrawn from 64-bit code nor kept for it. -/
def SharesOpcode (map : OpcodeMap) (bytes : List UInt8) : Prop :=
  ∀ b ∈ Prefix.behindLegacies? bytes,
    Rex.isRexByte b = false ∧ ∀ o ∈ map.get? b, o.invalidIn64Bit = false ∧ o.only64Bit = false

theorem resolve_bits64 {map : OpcodeMap} {b : UInt8}
    (h : ∀ o ∈ map.get? b, o.invalidIn64Bit = false ∧ o.only64Bit = false) :
    (Decoder.mk .bits64 map).resolve b = (Decoder.mk .bits32 map).resolve b := by
  unfold resolve
  cases ho : map.get? b with
  | none => rfl
  | some o =>
    obtain ⟨hinvalid, honly⟩ := h o ho
    simp [Opcode.validIn, hinvalid, honly]

theorem decode_of_no_rex {bytes : List UInt8}
    (h : ∀ b ∈ Prefix.behindLegacies? bytes, Rex.isRexByte b = false) (d : Decoder) :
    d.decode bytes =
      d.assemble ((Prefix.legacyRun bytes).map .legacy)
        ((d.readBody (d.operandSize ((Prefix.legacyRun bytes).map .legacy))).run
          (.ofBytes (bytes.dropWhile Prefix.isLegacy))) := by
  rw [decode_eq_assemble, Prefix.run_eq_legacies h, List.length_map, Prefix.drop_legacyRun]

theorem readBody_bits64 {map : OpcodeMap} {bytes : List UInt8} (h : SharesOpcode map bytes)
    (size : OperandSize) :
    ((Decoder.mk .bits64 map).readBody size).run (.ofBytes (bytes.dropWhile Prefix.isLegacy)) =
      ((Decoder.mk .bits32 map).readBody size).run
        (.ofBytes (bytes.dropWhile Prefix.isLegacy)) := by
  apply readBody_eq_of_reads
  · apply readOpcode_congr
    intro b hb
    exact resolve_bits64 (h b hb).2
  · intro o mid _
    simp only [readAddressing, Addressing.read_bits64]

theorem operandSize_bits64 (map : OpcodeMap) (ps : List Prefix) :
    (Decoder.mk .bits64 map).operandSize ps = (Decoder.mk .bits32 map).operandSize ps :=
  rfl

theorem segment_of_bare {body : Body} {ps : List Prefix} {n : Nat}
    (h : (body.instruction .bits32 ps n).HasBareAddress) :
    (body.instruction .bits32 ps n).segment = .ds ∧
      (body.instruction .bits64 ps n).segment = .cs := by
  obtain ⟨hnone, m, hm, hbare⟩ := h
  obtain ⟨a, ha, rfl⟩ := Option.map_eq_some_iff.mp hm
  have hselect : ∀ mode, (body.instruction mode ps n).segment = Segment.implied mode (some a) := by
    intro mode
    rw [← show body.addressing = some a from ha]
    exact Segment.select_of_no_override hnone mode _
  rw [hselect, hselect]
  exact Segment.implied_of_bare hbare

theorem segment_of_not_bare {body : Body} {ps : List Prefix} {n : Nat}
    (h : ¬ (body.instruction .bits32 ps n).HasBareAddress) :
    (body.instruction .bits64 ps n).segment = (body.instruction .bits32 ps n).segment := by
  change Segment.select .bits64 ps body.addressing = Segment.select .bits32 ps body.addressing
  by_cases hsome : ∃ s : Segment, .legacy (.segment s) ∈ ps
  · obtain ⟨s, hs⟩ := hsome
    exact Segment.select_of_override hs _ _ _ _
  · have hnone : ∀ s : Segment, .legacy (.segment s) ∉ ps := fun s hs => hsome ⟨s, hs⟩
    rw [Segment.select_of_no_override hnone, Segment.select_of_no_override hnone]
    apply Segment.implied_bits64_of_not_bare
    intro hbare
    obtain ⟨a, ha, hbare⟩ := hbare
    exact h ⟨hnone, a.modrm, Option.mem_map_of_mem _ ha, hbare⟩

/-- Code that both modes know reads the same in 32 and in 64 bits. The two results are one error,
or two records that differ in the address size, which is doubled, and in the segment of a bare
address that no prefix names. -/
theorem decode_bits64_agrees {map : OpcodeMap} {bytes : List UInt8} (h : SharesOpcode map bytes) :
    (∃ e, (Decoder.mk .bits32 map).decode bytes = .error e ∧
        (Decoder.mk .bits64 map).decode bytes = .error e) ∨
      ∃ i j, (Decoder.mk .bits32 map).decode bytes = .ok i ∧
        (Decoder.mk .bits64 map).decode bytes = .ok j ∧
        j = { i with addressSize := j.addressSize, segment := j.segment } ∧
        j.addressSize.bytes = 2 * i.addressSize.bytes ∧
        (i.HasBareAddress → i.segment = .ds ∧ j.segment = .cs) ∧
        (¬ i.HasBareAddress → j.segment = i.segment) := by
  have hrex : ∀ b ∈ Prefix.behindLegacies? bytes, Rex.isRexByte b = false :=
    fun b hb => (h b hb).1
  rw [decode_of_no_rex hrex, decode_of_no_rex hrex, readBody_bits64 h, operandSize_bits64]
  cases ((Decoder.mk .bits32 map).readBody _).run (.ofBytes (bytes.dropWhile Prefix.isLegacy)) with
  | error e => exact .inl ⟨_, rfl, rfl⟩
  | ok pair =>
    obtain ⟨body, rest⟩ := pair
    refine .inr ⟨_, _, rfl, rfl, rfl, ?_, segment_of_bare, segment_of_not_bare⟩
    exact AddressSize.bytes_resolve_bits64 _

/-- A word is compared with memory at a bare address. -/
def compareBare : List UInt8 := [0x66, 0x67, 0x83, 0x3D, 0x10, 0x00, 0x00, 0x00, 0x7F]

theorem decode_bits64_agrees_compareBare :
    SharesOpcode .primary compareBare ∧
      ∃ i j, (ofMode .bits32).decode compareBare = .ok i ∧
        (ofMode .bits64).decode compareBare = .ok j ∧
        j = { i with addressSize := j.addressSize, segment := j.segment } ∧
        j.addressSize.bytes = 2 * i.addressSize.bytes ∧ i.segment = .ds ∧ j.segment = .cs := by
  have hshares : SharesOpcode .primary compareBare := by
    intro b hb
    cases hb
    refine ⟨rfl, ?_⟩
    intro o ho
    cases ho
    exact ⟨rfl, rfl⟩
  refine ⟨hshares, ?_⟩
  rcases decode_bits64_agrees hshares with ⟨e, he, _⟩ | ⟨i, j, hi, hj, hsame, haddress, hbare, _⟩
  · cases he
  · refine ⟨i, j, hi, hj, hsame, haddress, hbare ?_⟩
    cases hi
    refine ⟨?_, _, rfl, rfl, rfl⟩
    intro s
    cases s <;> decide

end Decoder

end X86Layout
