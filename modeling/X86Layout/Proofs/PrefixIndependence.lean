import X86Layout.Proofs.Relocation

namespace X86Layout

namespace Segment

instance : Std.IsPreorder Segment where
  le_refl s := Nat.le_refl s.rank
  le_trans s t u := Nat.le_trans (n := s.rank) (m := t.rank) (k := u.rank)

instance : Std.IsLinearOrder Segment where
  le_antisymm _ _ h g := rank_injective (Nat.le_antisymm h g)
  le_total s t := Nat.le_total s.rank t.rank

instance : Std.LawfulOrderMin Segment where
  min_eq_or s t := by
    change (if s ≤ t then s else t) = s ∨ (if s ≤ t then s else t) = t
    split
    · exact .inl rfl
    · exact .inr rfl
  le_min_iff s t u := by
    change s ≤ (if t ≤ u then t else u) ↔ _
    have htotal : t ≤ u ∨ u ≤ t := Nat.le_total t.rank u.rank
    split
    · rename_i h
      exact ⟨fun hs => ⟨hs, Nat.le_trans hs h⟩, fun hs => hs.1⟩
    · rename_i h
      exact ⟨fun hs => ⟨Nat.le_trans hs (htotal.resolve_left h), hs⟩, fun hs => hs.2⟩

theorem mem_all (s : Segment) : s ∈ all := by cases s <;> decide

theorem pairwise_all : all.Pairwise (· ≤ ·) := by decide

/-- The least segment of a list is the first one in the order of precedence that it holds. -/
theorem min?_eq_find? (segments : List Segment) :
    segments.min? = all.find? (fun s => decide (s ∈ segments)) := by
  cases h : all.find? (fun s => decide (s ∈ segments)) with
  | none =>
    rw [List.min?_eq_none_iff, List.eq_nil_iff_forall_not_mem]
    intro s
    simpa using List.find?_eq_none.mp h s (mem_all s)
  | some s =>
    obtain ⟨hs, before, after, hsplit, hbefore⟩ := List.find?_eq_some_iff_append.mp h
    have hsorted := pairwise_all
    rw [hsplit, List.pairwise_append, List.pairwise_cons] at hsorted
    refine List.min?_eq_some_iff.mpr ⟨by simpa using hs, ?_⟩
    intro t ht
    have hall := mem_all t
    rw [hsplit] at hall
    rcases List.mem_append.mp hall with hb | ha
    · have hno := hbefore t hb
      simp [ht] at hno
    · rcases List.mem_cons.mp ha with rfl | ha
      · exact Nat.le_refl _
      · exact hsorted.2.1.1 t ha

theorem min?_append_congr {xs ys : List Segment} (h : xs.min? = ys.min?) (more : List Segment) :
    (xs ++ more).min? = (ys ++ more).min? := by
  cases xs with
  | nil => rw [List.min?_eq_none_iff.mp h.symm]
  | cons x xs =>
    cases ys with
    | nil => cases h
    | cons y ys =>
      simp only [List.min?_cons', Option.some.injEq] at h
      simp only [List.cons_append, List.min?_cons', List.foldl_append, h]

theorem overrides_append (ps qs : List Prefix) :
    overrides (ps ++ qs) = overrides ps ++ overrides qs :=
  List.filterMap_append

theorem mem_overrides {ps : List Prefix} {s : Segment} :
    s ∈ overrides ps ↔ .legacy (.segment s) ∈ ps := by
  rw [overrides, List.mem_filterMap]
  constructor
  · intro h
    obtain ⟨p, hp, hs⟩ := h
    cases p with
    | rex x => cases hs
    | legacy p =>
      cases p with
      | segment t =>
        cases hs
        exact hp
      | _ => cases hs
  · intro h
    exact ⟨.legacy (.segment s), h, rfl⟩

end Segment

namespace LegacyPrefix

/-- The override that decides among these prefixes: the first in the order of precedence, wherever
and however often it stands. -/
def override? (ps : List LegacyPrefix) : Option Segment :=
  Segment.all.find? fun s => decide (.segment s ∈ ps)

theorem mem_overrides {ps : List LegacyPrefix} {s : Segment} :
    s ∈ Segment.overrides (ps.map .legacy) ↔ .segment s ∈ ps := by
  rw [Segment.mem_overrides]
  simp

theorem override?_eq_min? (ps : List LegacyPrefix) :
    override? ps = (Segment.overrides (ps.map .legacy)).min? := by
  simp only [Segment.min?_eq_find?, mem_overrides]
  rfl

theorem contains_map_append (p : LegacyPrefix) (ps : List LegacyPrefix) (more : List Prefix) :
    (ps.map Prefix.legacy ++ more).contains (.legacy p) =
      (decide (p ∈ ps) || more.contains (.legacy p)) := by
  simp [List.contains_eq_mem]

end LegacyPrefix

theorem Prefix.run_append_legacies (m : Mode) (ps : List LegacyPrefix) (bytes : List UInt8) :
    run m (ps.map LegacyPrefix.byte ++ bytes) = ps.map .legacy ++ run m bytes := by
  induction ps with
  | nil => rfl
  | cons p ps ih => simp [ih]

theorem Segment.select_append_congr {ps qs : List LegacyPrefix}
    (h : LegacyPrefix.override? ps = LegacyPrefix.override? qs) (mode : Mode) (more : List Prefix)
    (addressing : Option Addressing) :
    select mode (ps.map .legacy ++ more) addressing =
      select mode (qs.map .legacy ++ more) addressing := by
  rw [LegacyPrefix.override?_eq_min?, LegacyPrefix.override?_eq_min?] at h
  rw [select, select, overrides_append, overrides_append, min?_append_congr h]

namespace Opcode

/-- The operand size has no say in the immediate: there is none, or its width is fixed. -/
def IgnoresOperandSize (o : Opcode) (modrm : Option ModRM) : Prop :=
  ¬ o.CarriesImmediate modrm ∨ o.fixedWidth.isSome = true

theorem immediateWidth?_congr {o : Opcode} {addressing : Option Addressing}
    (h : o.IgnoresOperandSize (addressing.map (·.modrm))) (size size' : OperandSize) :
    o.immediateWidth? addressing size = o.immediateWidth? addressing size' := by
  unfold immediateWidth?
  split
  · rename_i htakes
    rcases h with hno | hfixed
    · exact absurd ((o.takesImmediate_iff addressing).mp htakes) hno
    · obtain ⟨w, hw⟩ := Option.isSome_iff_exists.mp hfixed
      simp [operandWidth, hw]
  · rfl

end Opcode

namespace Decoder

variable {d : Decoder} {ps qs : List LegacyPrefix}

/-- The results for one body behind two runs of legacy prefixes: the same fields and the same
prefixes after those runs, or the same error, all of it as far behind the one run as behind the
other. The opcode and what follows it are compared whole, with their sizes. -/
inductive AgreeBehind (ps qs : List LegacyPrefix) :
    Except DecodeError Instruction → Except DecodeError Instruction → Prop where
  | decoded {i j : Instruction} (more : List Prefix) (n : Nat)
      (prefixes : i.prefixes = ps.map .legacy ++ more)
      (prefixes' : j.prefixes = qs.map .legacy ++ more)
      (opcode : i.opcode = j.opcode) (addressing : i.addressing = j.addressing)
      (immediate : i.immediate = j.immediate)
      (length : i.length = ps.length + n) (length' : j.length = qs.length + n) :
      AgreeBehind ps qs (.ok i) (.ok j)
  | failed (e : DecodeError) :
      AgreeBehind ps qs (.error (e.shift ps.length)) (.error (e.shift qs.length))

/-- The immediate of the instruction at the front, if the map knows one, does not depend on the
operand size. -/
def IgnoresOperandSize (d : Decoder) (bytes : List UInt8) : Prop :=
  ∀ o ∈ d.entryAt? bytes, o.IgnoresOperandSize (d.modrm? bytes)

/-- The bytes behind the prefixes, read for this operand size. -/
def bodyAt (d : Decoder) (size : OperandSize) (bytes : List UInt8) :
    Except DecodeError (Body × Reader) :=
  (d.readBody size).run (.ofBytes (bytes.drop (d.runLength bytes)))

theorem decode_append_legacies (d : Decoder) (ps : List LegacyPrefix) (bytes : List UInt8) :
    d.decode (ps.map LegacyPrefix.byte ++ bytes) =
      d.assemble (ps.map .legacy ++ Prefix.run d.mode bytes)
        (d.bodyAt (d.operandSize (ps.map .legacy ++ Prefix.run d.mode bytes)) bytes) := by
  have hdrop : (ps.map LegacyPrefix.byte ++ bytes).drop
      (ps.map Prefix.legacy ++ Prefix.run d.mode bytes).length =
        bytes.drop (d.runLength bytes) := by
    simp [runLength, List.drop_append, List.drop_eq_nil_of_le]
  rw [decode_eq_assemble, Prefix.run_append_legacies, hdrop]
  rfl

theorem agreeBehind_assemble (more : List Prefix) (outcome : Except DecodeError (Body × Reader)) :
    AgreeBehind ps qs (d.assemble (ps.map .legacy ++ more) outcome)
      (d.assemble (qs.map .legacy ++ more) outcome) := by
  cases outcome with
  | error e =>
    have h : AgreeBehind ps qs _ _ := .failed (e.shift more.length)
    rw [DecodeError.shift_shift, DecodeError.shift_shift] at h
    simpa [assemble] using h
  | ok pair =>
    obtain ⟨body, after⟩ := pair
    exact .decoded more (more.length + after.position) rfl rfl rfl rfl rfl
      (by simp [Body.instruction, Nat.add_assoc]) (by simp [Body.instruction, Nat.add_assoc])

/-- Where the two operand sizes read one body, the decodes agree. -/
theorem agreeBehind_of_bodyAt_eq {bytes : List UInt8}
    (h : d.bodyAt (d.operandSize (ps.map .legacy ++ Prefix.run d.mode bytes)) bytes =
      d.bodyAt (d.operandSize (qs.map .legacy ++ Prefix.run d.mode bytes)) bytes) :
    AgreeBehind ps qs (d.decode (ps.map LegacyPrefix.byte ++ bytes))
      (d.decode (qs.map LegacyPrefix.byte ++ bytes)) := by
  rw [decode_append_legacies, decode_append_legacies, h]
  exact agreeBehind_assemble _ _

theorem operandSize_congr (h : .operandSize ∈ ps ↔ .operandSize ∈ qs) (more : List Prefix) :
    d.operandSize (ps.map .legacy ++ more) = d.operandSize (qs.map .legacy ++ more) := by
  simp only [operandSize, LegacyPrefix.contains_map_append, h]

/-- The operand size is looked at for the immediate only. -/
theorem readBody_congr {size size' : OperandSize} {r : Reader}
    (h : ∀ o mid a after, d.readOpcode.run r = .ok (o, mid) →
      (readAddressing d.mode o).run mid = .ok (a, after) →
      o.immediateWidth? a size = o.immediateWidth? a size') :
    (d.readBody size).run r = (d.readBody size').run r := by
  simp only [readBody, readFields, StateT.run_bind]
  cases ho : d.readOpcode.run r with
  | error e => rfl
  | ok opcode =>
    obtain ⟨o, mid⟩ := opcode
    change Except.bind ((readAddressing d.mode o).run mid) _ =
      Except.bind ((readAddressing d.mode o).run mid) _
    cases ha : (readAddressing d.mode o).run mid with
    | error e => rfl
    | ok addressing =>
      obtain ⟨a, after⟩ := addressing
      simp only [Except.bind, h o mid a after ho ha]

/-- The opcode that is read behind the prefixes is the entry the bytes announce, and the ModRM byte
behind it is theirs too. -/
theorem announced_of_read {bytes : List UInt8} {o : Opcode} {a : Option Addressing}
    {mid after : Reader}
    (ho : d.readOpcode.run (.ofBytes (bytes.drop (d.runLength bytes))) = .ok (o, mid))
    (ha : (readAddressing d.mode o).run mid = .ok (a, after)) :
    d.entryAt? bytes = some o ∧ d.modrm? bytes = a.map (·.modrm) := by
  obtain ⟨⟨hmapped, _⟩, hrest, _⟩ := (accepts_readOpcode d _ o mid).mp ho
  have hdrop : bytes.drop (d.runLength bytes) = o.byte :: mid.rest := hrest
  have hopcode : bytes[d.runLength bytes]? = some o.byte := by
    rw [← List.head?_drop, hdrop]
    rfl
  have hnext : bytes[d.runLength bytes + 1]? = mid.peek? := by
    rw [← List.head?_drop, ← List.drop_drop, hdrop]
    rfl
  have hentry : d.entryAt? bytes = some o := by simp [entryAt?, hopcode, hmapped]
  refine ⟨hentry, ?_⟩
  rw [modrm_of_readAddressing ha, modrm?, hentry, hnext]
  rfl

theorem bodyAt_congr {bytes : List UInt8} (h : d.IgnoresOperandSize bytes)
    (size size' : OperandSize) : d.bodyAt size bytes = d.bodyAt size' bytes := by
  apply readBody_congr
  intro o mid a after ho ha
  obtain ⟨hentry, hmodrm⟩ := announced_of_read ho ha
  have hignores := h o hentry
  rw [hmodrm] at hignores
  exact Opcode.immediateWidth?_congr hignores size size'

theorem readBody_ok_agree {size size' : OperandSize} {r after after' : Reader} {b b' : Body}
    (h : (d.readBody size).run r = .ok (b, after))
    (h' : (d.readBody size').run r = .ok (b', after')) :
    b.opcode = b'.opcode ∧ b.addressing = b'.addressing := by
  simp only [readBody, readFields, ReadM.bind_ok, ReadM.pure_ok] at h h'
  obtain ⟨o, r1, ho, a, r2, ha, _, _, _, rfl, rfl⟩ := h
  obtain ⟨o', r1', ho', a', r2', ha', _, _, _, rfl, rfl⟩ := h'
  rw [ho] at ho'
  cases ho'
  rw [ha] at ha'
  cases ha'
  exact ⟨rfl, rfl⟩

theorem assemble_ok {prefixes : List Prefix} {outcome : Except DecodeError (Body × Reader)}
    {i : Instruction} (h : d.assemble prefixes outcome = .ok i) :
    ∃ body after, outcome = .ok (body, after) ∧
      i = body.instruction d.mode prefixes (prefixes.length + after.position) := by
  cases outcome with
  | error e => cases h
  | ok pair =>
    cases h
    exact ⟨pair.1, pair.2, rfl, rfl⟩

/-- Two successes differ in nothing that the two runs of legacy prefixes do not differ in. -/
theorem fields_agree_of_ok {bytes : List UInt8} {i j : Instruction}
    (hi : d.decode (ps.map LegacyPrefix.byte ++ bytes) = .ok i)
    (hj : d.decode (qs.map LegacyPrefix.byte ++ bytes) = .ok j) :
    (i.opcode = j.opcode ∧ i.addressing = j.addressing) ∧
      ((.operandSize ∈ ps ↔ .operandSize ∈ qs) → i.operandSize = j.operandSize) ∧
      ((.addressSize ∈ ps ↔ .addressSize ∈ qs) → i.addressSize = j.addressSize) ∧
      (LegacyPrefix.override? ps = LegacyPrefix.override? qs → i.segment = j.segment) := by
  rw [decode_append_legacies] at hi hj
  obtain ⟨b, after, hb, rfl⟩ := assemble_ok hi
  obtain ⟨b', after', hb', rfl⟩ := assemble_ok hj
  obtain ⟨hopcode, haddressing⟩ := readBody_ok_agree hb hb'
  refine ⟨⟨hopcode, haddressing⟩, ?_, ?_, ?_⟩
  · intro h
    exact operandSize_congr h _
  · intro h
    simp only [Body.instruction, LegacyPrefix.contains_map_append, h]
  · intro h
    simp only [Body.instruction, haddressing]
    exact Segment.select_append_congr h d.mode _ _

/-- Order, repetition and number of legacy prefixes do not matter. What is read behind them depends
on them through one bit, whether the operand size is overridden, and that bit reaches nothing but
the operand size and an immediate that is as wide as the operands. The address size looks at its own
override only, the segment at the override that takes precedence. -/
theorem decode_legacy_noninterference (d : Decoder) (ps qs : List LegacyPrefix)
    (bytes : List UInt8) :
    ((.operandSize ∈ ps ↔ .operandSize ∈ qs) →
        AgreeBehind ps qs (d.decode (ps.map LegacyPrefix.byte ++ bytes))
          (d.decode (qs.map LegacyPrefix.byte ++ bytes))) ∧
      (d.IgnoresOperandSize bytes →
        AgreeBehind ps qs (d.decode (ps.map LegacyPrefix.byte ++ bytes))
          (d.decode (qs.map LegacyPrefix.byte ++ bytes))) ∧
      ∀ i j, d.decode (ps.map LegacyPrefix.byte ++ bytes) = .ok i →
        d.decode (qs.map LegacyPrefix.byte ++ bytes) = .ok j →
        (i.opcode = j.opcode ∧ i.addressing = j.addressing) ∧
          ((.operandSize ∈ ps ↔ .operandSize ∈ qs) → i.operandSize = j.operandSize) ∧
          ((.addressSize ∈ ps ↔ .addressSize ∈ qs) → i.addressSize = j.addressSize) ∧
          (LegacyPrefix.override? ps = LegacyPrefix.override? qs → i.segment = j.segment) := by
  refine ⟨?_, ?_, ?_⟩
  · intro h
    apply agreeBehind_of_bodyAt_eq
    rw [operandSize_congr h]
  · intro h
    exact agreeBehind_of_bodyAt_eq (bodyAt_congr h _ _)
  · intro i j hi hj
    exact fields_agree_of_ok hi hj

/-- An addition of a word to memory on the stack, behind an override and a REX of its own. -/
def addWord : List UInt8 := [0x36, 0x41, 0x81, 0x44, 0x24, 0x08, 0x34, 0x12]

def addByte : List UInt8 := [0x80, 0xC0, 0x05]

theorem decode_legacy_noninterference_add :
    AgreeBehind [.segment .gs, .operandSize, .segment .cs, .lock]
        [.segment .cs, .operandSize, .operandSize]
        ((ofMode .bits64).decode ([0x65, 0x66, 0x2E, 0xF0] ++ addWord))
        ((ofMode .bits64).decode ([0x2E, 0x66, 0x66] ++ addWord)) ∧
      (∃ i j, (ofMode .bits64).decode ([0x65, 0x66, 0x2E, 0xF0] ++ addWord) = .ok i ∧
        (ofMode .bits64).decode ([0x2E, 0x66, 0x66] ++ addWord) = .ok j ∧
        i.operandSize = j.operandSize ∧ i.addressSize = j.addressSize ∧ i.segment = j.segment) ∧
      AgreeBehind [.operandSize] [] ((ofMode .bits64).decode ([0x66] ++ addByte))
        ((ofMode .bits64).decode addByte) := by
  obtain ⟨hagree, _, hok⟩ := decode_legacy_noninterference (ofMode .bits64)
    [.segment .gs, .operandSize, .segment .cs, .lock] [.segment .cs, .operandSize, .operandSize]
    addWord
  obtain ⟨_, hsize, haddress, hsegment⟩ := hok _ _ rfl rfl
  obtain ⟨_, hignores, _⟩ :=
    decode_legacy_noninterference (ofMode .bits64) [.operandSize] [] addByte
  refine ⟨hagree (by decide), ⟨_, _, rfl, rfl, hsize (by decide), haddress (by decide),
    hsegment (by decide)⟩, hignores ?_⟩
  intro o ho
  cases ho
  exact .inr rfl

end Decoder

end X86Layout
