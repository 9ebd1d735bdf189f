import X86Layout.Proofs.Demand

namespace X86Layout

theorem Width.bytes_le (w : Width) : w.bytes ≤ 4 := by cases w <;> decide

def Field.all : List Field := [.opcode, .modrm, .sib, .displacement, .immediate]

namespace Opcode

theorem elim_immediateWidth? (o : Opcode) (addressing : Option Addressing)
    (size : OperandSize) :
    (o.immediateWidth? addressing size).elim 0 Width.bytes =
      if o.hasImmediate || (o.testGroup && (addressing.map (·.modrm)).any (·.reg ≤ 1)) then
        (o.fixedWidth.getD size.width).bytes
      else 0 := by
  have htakes : (o.hasImmediate || (o.testGroup && (addressing.map (·.modrm)).any (·.reg ≤ 1))) =
      o.takesImmediate addressing := by
    cases addressing <;> rfl
  rw [htakes, immediateWidth?]
  cases o.takesImmediate addressing <;> rfl

end Opcode

namespace Decoder

def runLength (d : Decoder) (bytes : List UInt8) : Nat := (Prefix.run d.mode bytes).length

/-- What the map files under the byte behind the prefixes. -/
def entryAt? (d : Decoder) (bytes : List UInt8) : Option Opcode :=
  bytes[d.runLength bytes]?.bind d.map.get?

def modrm? (d : Decoder) (bytes : List UInt8) : Option ModRM :=
  if (d.entryAt? bytes).any (·.hasModRM) then bytes[d.runLength bytes + 1]?.map .ofByte else none

/-- How many bytes a field takes, as far as the bytes before it are there to tell. A field that
they do not ask for takes none. -/
def width (d : Decoder) (bytes : List UInt8) : Field → Nat
  | .opcode => 1
  | .modrm => if (d.entryAt? bytes).any (·.hasModRM) then 1 else 0
  | .sib => (d.modrm? bytes).elim 0 ModRM.sibSize
  | .displacement => (d.modrm? bytes).elim 0 (ModRM.displacementSize d.mode)
  | .immediate => (d.entryAt? bytes).elim 0 fun o =>
    if o.hasImmediate || (o.testGroup && (d.modrm? bytes).any (·.reg ≤ 1)) then
      (o.fixedWidth.getD (OperandSize.resolve d.mode
        ((Prefix.run d.mode bytes).contains (.legacy .operandSize))).width).bytes
    else 0

/-- Where a field starts if all the fields before it are there. -/
def start (d : Decoder) (bytes : List UInt8) : Field → Nat
  | .opcode => d.runLength bytes
  | .modrm => d.runLength bytes + 1
  | .sib => d.runLength bytes + 1 + d.width bytes .modrm
  | .displacement => d.runLength bytes + 1 + d.width bytes .modrm + d.width bytes .sib
  | .immediate => d.runLength bytes + 1 + d.width bytes .modrm + d.width bytes .sib +
      d.width bytes .displacement

/-- The field that the end of the bytes cuts short, and where it starts. -/
def cut? (d : Decoder) (bytes : List UInt8) : Option (Field × Nat) :=
  ReadM.firstCut (Field.all.map fun field => (field, d.width bytes field)) (d.runLength bytes)
    (bytes.length - d.runLength bytes)

variable {d : Decoder} {bytes : List UInt8}

theorem runLength_le (d : Decoder) (bytes : List UInt8) : d.runLength bytes ≤ bytes.length :=
  Prefix.length_run_le d.mode bytes

theorem drop_runLength {b : UInt8} (hb : bytes[d.runLength bytes]? = some b) :
    bytes.drop (d.runLength bytes) = b :: bytes.drop (d.runLength bytes + 1) := by
  obtain ⟨hlt, he⟩ := List.getElem?_eq_some_iff.mp hb
  rw [List.drop_eq_getElem_cons hlt, he]

theorem afterPrefixes_eq_cons {b : UInt8} (hb : bytes[d.runLength bytes]? = some b) :
    afterPrefixes d.mode bytes =
      ⟨bytes.take (d.runLength bytes), b :: bytes.drop (d.runLength bytes + 1)⟩ := by
  rw [← drop_runLength hb]
  rfl

/-- The map and the mode refuse an opcode in two ways, neither of which is a truncation. -/
theorem resolve_error {d : Decoder} {b : UInt8} {e : DecodeError} (h : d.resolve b = .error e) :
    e = .unsupported b ∧ d.map.get? b = none ∨
      e = .modeIncompatible b d.mode ∧ ∃ o, d.map.get? b = some o ∧ o.validIn d.mode = false := by
  unfold resolve at h
  cases hentry : d.map.get? b with
  | none =>
    simp only [hentry, Except.error.injEq] at h
    exact .inl ⟨h.symm, rfl⟩
  | some o =>
    simp only [hentry] at h
    split at h
    · cases h
    · rename_i hvalid
      cases h
      exact .inr ⟨rfl, o, rfl, by simpa using hvalid⟩

/-- Behind the prefixes the bytes are at their end, or the next one is turned down, or it is an
opcode of this mode. -/
theorem opcode_cases (d : Decoder) (bytes : List UInt8) :
    bytes.length = d.runLength bytes ∨
      (∃ b e, bytes[d.runLength bytes]? = some b ∧ d.resolve b = .error e) ∨
      ∃ b o, bytes[d.runLength bytes]? = some b ∧ d.resolve b = .ok o := by
  cases hb : bytes[d.runLength bytes]? with
  | none =>
    have hle := d.runLength_le bytes
    have hge := List.getElem?_eq_none_iff.mp hb
    exact .inl (Nat.le_antisymm hge hle)
  | some b =>
    cases hr : d.resolve b with
    | error e => exact .inr (.inl ⟨b, e, rfl, hr⟩)
    | ok o => exact .inr (.inr ⟨b, o, rfl, hr⟩)

/-- An opcode that the map and the mode accept takes its one byte and nothing more. -/
theorem run_readOpcode {d : Decoder} {b : UInt8} {o : Opcode} (ho : d.resolve b = .ok o)
    (taken rest : List UInt8) :
    d.readOpcode.run ⟨taken, b :: rest⟩ = .ok (o, ⟨taken ++ [b], rest⟩) := by
  apply ReadM.bind_ok.mpr
  exact ⟨b, ⟨taken ++ [b], rest⟩, rfl, run_liftM_ok.mpr ⟨ho, rfl⟩⟩

theorem run_readOpcode_of_error {d : Decoder} {b : UInt8} {e : DecodeError}
    (he : d.resolve b = .error e) (taken rest : List UInt8) :
    d.readOpcode.run ⟨taken, b :: rest⟩ = .error e := by
  change (liftM (d.resolve b) : ReadM Opcode).run _ = _
  rw [he]
  rfl

theorem readBody_nil (d : Decoder) (size : OperandSize) :
    (d.readBody size).run (.ofBytes []) = .error (.truncated .opcode 0) :=
  rfl

/-- Once the map and the mode accept an opcode, the body is what that opcode asks for. -/
theorem readBody_of_ok {b : UInt8} {o : Opcode} (ho : d.resolve b = .ok o) (size : OperandSize)
    (rest : List UInt8) :
    (d.readBody size).run (.ofBytes (b :: rest)) = (readFields d.mode size o).run ⟨[b], rest⟩ :=
  ReadM.run_bind_of_ok (run_readOpcode ho [] rest)

theorem readBody_of_error {b : UInt8} {e : DecodeError} (he : d.resolve b = .error e)
    (size : OperandSize) (rest : List UInt8) :
    (d.readBody size).run (.ofBytes (b :: rest)) = .error e :=
  ReadM.run_bind_of_error (run_readOpcode_of_error he [] rest)

/-- The ModRM byte that was read is the one the bytes announce. -/
theorem modrm_of_readAddressing {mode : Mode} {o : Opcode} {r after : Reader}
    {a : Option Addressing} (h : (readAddressing mode o).run r = .ok (a, after)) :
    a.map (·.modrm) = if o.hasModRM then r.peek?.map .ofByte else none := by
  obtain ⟨⟨hsome, _⟩, hrest, _⟩ := (accepts_readAddressing mode o r a after).mp h
  rw [← hsome]
  cases a with
  | none => rfl
  | some x =>
    have hpeek : r.peek? = some x.modrm.byte := by
      simp [Reader.peek?, hrest, Addressing.encode_eq]
    simp [hpeek, ModRM.ofByte_byte]

/-- How wide the immediate is hangs on the ModRM byte before it. -/
theorem demands_readFields {mode : Mode} {size : OperandSize} {o : Opcode} {r : Reader}
    {modrm : Option ModRM} (hm : modrm = if o.hasModRM then r.peek?.map .ofByte else none) :
    ReadM.Demands (readFields mode size o) r
      [(.modrm, if o.hasModRM then 1 else 0), (.sib, modrm.elim 0 ModRM.sibSize),
        (.displacement, modrm.elim 0 (ModRM.displacementSize mode)),
        (.immediate, if o.hasImmediate || (o.testGroup && modrm.any (·.reg ≤ 1)) then
          (o.fixedWidth.getD size.width).bytes else 0)] := by
  refine ReadM.Demands.bind (demands_readAddressing hm) ?_
  intro a mid ha
  have hread := modrm_of_readAddressing ha
  rw [← hm] at hread
  rw [← hread, ← Opcode.elim_immediateWidth?]
  exact (demands_readImmediate _ mid).bind fun _ after _ => ReadM.demands_pure _ after

/-- Behind an accepted opcode nothing can go wrong but that bytes are missing. -/
theorem truncated_of_readFields_error {mode : Mode} {size : OperandSize} {o : Opcode} {r : Reader}
    {e : DecodeError} (h : (readFields mode size o).run r = .error e) :
    ∃ field offset, e = .truncated field offset := by
  obtain ⟨field, _, offset, he⟩ := (demands_readFields rfl).truncated_of_error h
  exact ⟨field, offset, he⟩

theorem demands_readBody {b : UInt8} {o : Opcode} (hb : bytes[d.runLength bytes]? = some b)
    (ho : d.resolve b = .ok o) :
    ReadM.Demands (d.readBody (d.operandSize (Prefix.run d.mode bytes)))
      (afterPrefixes d.mode bytes) (Field.all.map fun field => (field, d.width bytes field)) := by
  have hentry : d.entryAt? bytes = some o := by
    simp [entryAt?, hb, (resolve_ok.mp ho).1]
  let r : Reader := ⟨bytes.take (d.runLength bytes) ++ [b], bytes.drop (d.runLength bytes + 1)⟩
  have hread : d.readOpcode.run (afterPrefixes d.mode bytes) = .ok (o, r) := by
    rw [afterPrefixes_eq_cons hb, run_readOpcode ho]
  have hopcode : ReadM.Demands d.readOpcode (afterPrefixes d.mode bytes) [(.opcode, 1)] := by
    rw [afterPrefixes_eq_cons hb] at hread ⊢
    refine ⟨o, r, hread, ?_, ?_⟩
    · simp [r, Reader.position, ReadM.totalWidth]
    · simp only [r, Reader.remaining, ReadM.totalWidth, List.length_cons]
      omega
  have hmodrm : d.modrm? bytes = if o.hasModRM then r.peek?.map .ofByte else none := by
    simp [modrm?, hentry, r, Reader.peek?]
  simp only [Field.all, List.map_cons, List.map_nil, width, hentry, Option.any_some,
    Option.elim_some]
  refine ReadM.Demands.bind hopcode ?_
  intro o' mid hmid
  rw [hread] at hmid
  cases hmid
  exact demands_readFields hmodrm

theorem decode_of_resolved {b : UInt8} {o : Opcode} (hb : bytes[d.runLength bytes]? = some b)
    (ho : d.resolve b = .ok o) :
    match d.cut? bytes with
    | some (field, offset) => d.decode bytes = .error (.truncated field offset)
    | none => ∃ i, d.decode bytes = .ok i := by
  have h := demands_readBody hb ho
  have hremaining : (afterPrefixes d.mode bytes).remaining = bytes.length - d.runLength bytes := by
    simp [Reader.remaining, rest_afterPrefixes, runLength]
  unfold ReadM.Demands at h
  rw [position_afterPrefixes, hremaining] at h
  cases hcut : d.cut? bytes with
  | some cut =>
    simp only [cut?, runLength] at hcut
    simp only [runLength, hcut] at h
    exact decode_eq_error_iff_readBody.mpr h
  | none =>
    simp only [cut?, runLength] at hcut
    simp only [runLength, hcut] at h
    obtain ⟨body, after, hrun, _⟩ := h
    exact ⟨_, decode_eq_ok_iff_readBody.mpr ⟨body, after, hrun, rfl⟩⟩

theorem decode_of_refused {b : UInt8} {e : DecodeError} (hb : bytes[d.runLength bytes]? = some b)
    (he : d.resolve b = .error e) : d.decode bytes = .error e := by
  apply decode_eq_error_iff_readBody.mpr
  rw [afterPrefixes_eq_cons hb]
  exact ReadM.run_bind_of_error (run_readOpcode_of_error he _ _)

theorem decode_of_no_opcode (h : bytes.length = d.runLength bytes) :
    d.decode bytes = .error (.truncated .opcode (d.runLength bytes)) := by
  have hrest : (afterPrefixes d.mode bytes).rest = [] := by
    rw [rest_afterPrefixes]
    exact List.drop_eq_nil_of_le (Nat.le_of_eq h)
  have hpos := position_afterPrefixes d.mode bytes
  apply decode_eq_error_iff_readBody.mpr
  generalize afterPrefixes d.mode bytes = r at hrest hpos
  obtain ⟨taken, rest⟩ := r
  subst hrest
  exact congrArg (fun n => Except.error (DecodeError.truncated .opcode n)) hpos

theorem cut?_eq_some_iff {field : Field} {offset : Nat} :
    d.cut? bytes = some (field, offset) ↔
      offset = d.start bytes field ∧ d.start bytes field ≤ bytes.length ∧
        bytes.length < d.start bytes field + d.width bytes field := by
  have hrun := d.runLength_le bytes
  have hopcode : d.width bytes .opcode = 1 := rfl
  simp only [cut?, Field.all, List.map_cons, List.map_nil, ReadM.firstCut]
  cases field <;> simp only [start] <;> grind

/-- The first thing that is wrong with the bytes, in the order in which the fields are read. -/
def firstFault? (d : Decoder) (bytes : List UInt8) : Option DecodeError :=
  let p := d.runLength bytes
  let b := bytes.getD p 0
  let q := p + 2 + d.width bytes .sib
  let q' := p + 1 + d.width bytes .modrm + d.width bytes .sib + d.width bytes .displacement
  if bytes.length = p then some (.truncated .opcode p)
  else if (d.map.get? b).isNone then some (.unsupported b)
  else if (d.map.get? b).any (!·.validIn d.mode) then some (.modeIncompatible b d.mode)
  else if (d.map.get? b).any (·.hasModRM) ∧ bytes.length = p + 1 then
    some (.truncated .modrm (p + 1))
  else if (d.modrm? bytes).any (·.needsSIB) ∧ bytes.length = p + 2 then
    some (.truncated .sib (p + 2))
  else if 0 < d.width bytes .displacement ∧ bytes.length < q + d.width bytes .displacement then
    some (.truncated .displacement q)
  else if 0 < d.width bytes .immediate ∧ bytes.length < q' + d.width bytes .immediate then
    some (.truncated .immediate q')
  else none

theorem firstFault?_of_no_opcode (h : bytes.length = d.runLength bytes) :
    d.firstFault? bytes = some (.truncated .opcode (d.runLength bytes)) := by
  simp [firstFault?, h]

theorem firstFault?_of_refused {b : UInt8} {e : DecodeError}
    (hb : bytes[d.runLength bytes]? = some b) (he : d.resolve b = .error e) :
    d.firstFault? bytes = some e := by
  obtain ⟨hlt, hget⟩ := List.getElem?_eq_some_iff.mp hb
  have hlen : ¬ bytes.length = d.runLength bytes := by omega
  rcases resolve_error he with ⟨rfl, hentry⟩ | ⟨rfl, o, hentry, hvalid⟩
  · simp [firstFault?, hlen, hb, hentry]
  · simp [firstFault?, hlen, hb, hentry, hvalid]

theorem firstFault?_of_resolved {b : UInt8} {o : Opcode} (hb : bytes[d.runLength bytes]? = some b)
    (ho : d.resolve b = .ok o) :
    d.firstFault? bytes = (d.cut? bytes).map fun cut => .truncated cut.1 cut.2 := by
  obtain ⟨hlt, hget⟩ := List.getElem?_eq_some_iff.mp hb
  have hlen : ¬ bytes.length = d.runLength bytes := by omega
  obtain ⟨hentry, hvalid⟩ := resolve_ok.mp ho
  have hmodrm : d.width bytes .modrm = if o.hasModRM then 1 else 0 := by
    simp [width, entryAt?, hb, hentry]
  have hsib : d.width bytes .sib = if (d.modrm? bytes).any (·.needsSIB) then 1 else 0 := by
    cases h : d.modrm? bytes <;> simp [width, h, ModRM.sibSize]
  have hopcode : d.width bytes .opcode = 1 := rfl
  have habsent : o.hasModRM = false →
      (d.modrm? bytes).any (·.needsSIB) = false ∧ d.width bytes .displacement = 0 := by
    intro h
    simp [width, modrm?, entryAt?, hb, hentry, h]
  simp only [firstFault?, cut?, Field.all, List.map_cons, List.map_nil, ReadM.firstCut,
    List.getD_eq_getElem?_getD, hb, Option.getD_some, hentry, Option.isNone_some, Option.any_some,
    hvalid, Bool.not_true, Bool.false_eq_true, hlen, ↓reduceIte, hopcode, hmodrm, hsib]
  cases hm : o.hasModRM with
  | false =>
    obtain ⟨hs, hd⟩ := habsent hm
    simp only [hs, hd]
    grind
  | true => grind

theorem decode_of_firstFault? (d : Decoder) (bytes : List UInt8) :
    match d.firstFault? bytes with
    | some e => d.decode bytes = .error e
    | none => ∃ i, d.decode bytes = .ok i := by
  rcases d.opcode_cases bytes with hlen | ⟨b, e, hb, hr⟩ | ⟨b, o, hb, ho⟩
  · rw [firstFault?_of_no_opcode hlen]
    exact decode_of_no_opcode hlen
  · rw [firstFault?_of_refused hb hr]
    exact decode_of_refused hb hr
  · have h := decode_of_resolved hb ho
    rw [firstFault?_of_resolved hb ho]
    cases hcut : d.cut? bytes with
    | some cut => simpa [hcut] using h
    | none => simpa [hcut] using h

/-- A failed decode either refuses the byte behind the prefixes or runs out of bytes. -/
theorem decode_error_cases {e : DecodeError} (h : d.decode bytes = .error e) :
    (∃ b, bytes[d.runLength bytes]? = some b ∧ d.resolve b = .error e) ∨
      ∃ field offset, d.cut? bytes = some (field, offset) ∧ e = .truncated field offset := by
  rcases d.opcode_cases bytes with hlen | ⟨b, e', hb, hr⟩ | ⟨b, o, hb, ho⟩
  · rw [decode_of_no_opcode hlen] at h
    refine .inr ⟨.opcode, d.runLength bytes, cut?_eq_some_iff.mpr ⟨rfl, ?_, ?_⟩, ?_⟩
    · exact d.runLength_le bytes
    · simp only [start, width]
      omega
    · exact (Except.error.inj h).symm
  · rw [decode_of_refused hb hr] at h
    cases h
    exact .inl ⟨b, hb, hr⟩
  · right
    have hresolved := decode_of_resolved hb ho
    cases hcut : d.cut? bytes with
    | some cut =>
      simp only [hcut] at hresolved
      rw [hresolved] at h
      exact ⟨cut.1, cut.2, rfl, (Except.error.inj h).symm⟩
    | none =>
      simp only [hcut] at hresolved
      obtain ⟨i, hi⟩ := hresolved
      rw [hi] at h
      cases h

theorem cut?_of_truncated {field : Field} {offset : Nat}
    (h : d.decode bytes = .error (.truncated field offset)) :
    d.cut? bytes = some (field, offset) := by
  rcases decode_error_cases h with ⟨b, _, hr⟩ | ⟨f, o, hcut, he⟩
  · rcases resolve_error hr with ⟨he, _⟩ | ⟨he, _⟩ <;> cases he
  · cases he
    exact hcut

theorem width_le (d : Decoder) (bytes : List UInt8) (field : Field) :
    d.width bytes field ≤
      match field with
      | .displacement | .immediate => 4
      | _ => 1 := by
  cases field with
  | opcode => exact Nat.le_refl 1
  | modrm =>
    simp only [width]
    split <;> omega
  | sib =>
    cases hm : d.modrm? bytes with
    | none => simp [width, hm]
    | some m =>
      simp only [width, hm, Option.elim_some, ModRM.sibSize]
      split <;> omega
  | displacement =>
    cases hm : d.modrm? bytes with
    | none => simp [width, hm]
    | some m =>
      simp only [width, hm, Option.elim_some, ModRM.displacementSize]
      cases m.displacementWidth? d.mode with
      | none => simp
      | some w => exact w.bytes_le
  | immediate =>
    cases ho : d.entryAt? bytes with
    | none => simp [width, ho]
    | some o =>
      simp only [width, ho, Option.elim_some]
      split
      · exact Width.bytes_le _
      · omega

/-- No field reaches further than eleven bytes behind the prefixes. -/
theorem start_add_width_le (d : Decoder) (bytes : List UInt8) (field : Field) :
    d.start bytes field + d.width bytes field ≤ d.runLength bytes + 11 := by
  have ho := d.width_le bytes .opcode
  have hm := d.width_le bytes .modrm
  have hs := d.width_le bytes .sib
  have hd := d.width_le bytes .displacement
  have hi := d.width_le bytes .immediate
  simp only at ho hm hs hd hi
  cases field <;> simp only [start] <;> omega

/-- A decode fails with the first fault of its bytes and succeeds if they have none. A truncation
names the field that the end of the bytes cuts and where it starts, the mode is never at fault, an
opcode that the mode does not have is refused whether or not its operands are there, and eleven
bytes behind the prefixes are always enough. -/
theorem decode_fails_at_firstFault (d : Decoder) (bytes : List UInt8) :
    (∀ e, d.decode bytes = .error e ↔ d.firstFault? bytes = some e) ∧
      ((∃ i, d.decode bytes = .ok i) ↔ d.firstFault? bytes = none) ∧
      (∀ field offset, d.decode bytes = .error (.truncated field offset) →
        offset = d.start bytes field ∧ offset ≤ bytes.length ∧
          bytes.length < offset + d.width bytes field) ∧
      (∀ bitness, d.decode bytes ≠ .error (.invalidMode bitness)) ∧
      (∀ b o, bytes[d.runLength bytes]? = some b → d.map.get? b = some o →
        o.validIn d.mode = false → d.decode bytes = .error (.modeIncompatible b d.mode)) ∧
      (d.runLength bytes + 11 ≤ bytes.length →
        ∀ field offset, d.decode bytes ≠ .error (.truncated field offset)) := by
  have hfault := decode_of_firstFault? d bytes
  have htruncated : ∀ field offset, d.decode bytes = .error (.truncated field offset) →
      offset = d.start bytes field ∧ offset ≤ bytes.length ∧
        bytes.length < offset + d.width bytes field := by
    intro field offset h
    obtain ⟨rfl, hle, hlt⟩ := cut?_eq_some_iff.mp (cut?_of_truncated h)
    exact ⟨rfl, hle, hlt⟩
  refine ⟨?_, ?_, htruncated, ?_, ?_, ?_⟩
  · intro e
    cases hf : d.firstFault? bytes with
    | some e' =>
      simp only [hf] at hfault
      simp [hfault]
    | none =>
      simp only [hf] at hfault
      obtain ⟨i, hi⟩ := hfault
      simp [hi]
  · cases hf : d.firstFault? bytes with
    | some e' =>
      simp only [hf] at hfault
      simp [hfault]
    | none => simpa [hf] using hfault
  · intro bitness h
    rcases decode_error_cases h with ⟨b, _, hr⟩ | ⟨field, offset, _, he⟩
    · rcases resolve_error hr with ⟨he, _⟩ | ⟨he, _⟩ <;> cases he
    · cases he
  · intro b o hb hentry hvalid
    apply decode_of_refused hb
    simp [resolve, hentry, hvalid]
  · intro henough field offset h
    obtain ⟨rfl, _, hlt⟩ := htruncated field offset h
    have := d.start_add_width_le bytes field
    omega

theorem decode_fails_at_firstFault_samples :
    (ofMode .bits64).decode [0x66, 0x62] = .error (.modeIncompatible 0x62 .bits64) ∧
      (ofMode .bits32).decode [0x66, 0xC7, 0x84, 0x24, 0x00] =
        .error (.truncated .displacement 4) ∧
      ∃ i, (ofMode .bits32).decode [0x66, 0xC7, 0x04, 0x24, 0x34, 0x12] = .ok i := by
  refine ⟨?_, ?_, ?_⟩
  · exact ((decode_fails_at_firstFault (ofMode .bits64) _).1 _).mpr rfl
  · exact ((decode_fails_at_firstFault (ofMode .bits32) _).1 _).mpr rfl
  · exact (decode_fails_at_firstFault (ofMode .bits32) _).2.1.mpr rfl

end Decoder

end X86Layout
