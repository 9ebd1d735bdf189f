import X86Layout.Proofs.PrefixIndependence
import X86Layout.Proofs.RecordInvariant

namespace X86Layout

namespace Segment

/-- The override bytes in the order of precedence. -/
def overrideBytes : List (UInt8 × Segment) :=
  [(0x2E, .cs), (0x36, .ss), (0x3E, .ds), (0x26, .es), (0x64, .fs), (0x65, .gs)]

/-- The segment of the first override in that order that stands among the prefixes. -/
def firstOverride? (prefixes : List UInt8) : Option Segment :=
  (overrideBytes.find? fun entry => prefixes.contains entry.1).map Prod.snd

def rule16 (mod : BitVec 2) (rm : BitVec 3) : Segment :=
  if mod = 0b11 then .ds
  else if rm = 0b010 ∨ rm = 0b011 then .ss
  else if mod ≠ 0b00 ∧ rm = 0b110 then .ss
  else .ds

def rule32 (mod : BitVec 2) (rm base : BitVec 3) : Segment :=
  if mod = 0b11 then .ds
  else if (mod = 0b01 ∨ mod = 0b10) ∧ rm = 0b101 then .ss
  else if mod ≠ 0b00 ∧ base = 0b101 ∨ base = 0b100 then .ss
  else .ds

def rule64 (mod : BitVec 2) (rm base : BitVec 3) : Segment :=
  if mod = 0b11 then .ds
  else if mod = 0b00 ∧ rm = 0b101 then .cs
  else if (mod = 0b01 ∨ mod = 0b10) ∧ rm = 0b101 then .ss
  else if rm ≠ 0b100 then .ds
  else if base = 0b100 then .ss
  else if mod ≠ 0b00 ∧ base = 0b101 then .ss
  else .ds

/-- A SIB byte that is not there has the base zero. -/
def baseField (sib : Option SIB) : BitVec 3 := (sib.map (·.base)).getD 0

/-- What the first rule of the mode that matches says. -/
def ruled (mode : Mode) (m : ModRM) (sib : Option SIB) : Segment :=
  match mode with
  | .bits16 => rule16 m.mod m.rm
  | .bits32 => rule32 m.mod m.rm (baseField sib)
  | .bits64 => rule64 m.mod m.rm (baseField sib)

/-- The segment of a form that no scaled index follows: a row for each mod, a column for each rm. -/
def formTable : Mode → List (List Segment)
  | .bits16 =>
    [[.ds, .ds, .ss, .ss, .ds, .ds, .ds, .ds],
      [.ds, .ds, .ss, .ss, .ds, .ds, .ss, .ds],
      [.ds, .ds, .ss, .ss, .ds, .ds, .ss, .ds],
      [.ds, .ds, .ds, .ds, .ds, .ds, .ds, .ds]]
  | .bits32 =>
    [[.ds, .ds, .ds, .ds, .ds, .ds, .ds, .ds],
      [.ds, .ds, .ds, .ds, .ds, .ss, .ds, .ds],
      [.ds, .ds, .ds, .ds, .ds, .ss, .ds, .ds],
      [.ds, .ds, .ds, .ds, .ds, .ds, .ds, .ds]]
  | .bits64 =>
    [[.ds, .ds, .ds, .ds, .ds, .cs, .ds, .ds],
      [.ds, .ds, .ds, .ds, .ds, .ss, .ds, .ds],
      [.ds, .ds, .ds, .ds, .ds, .ss, .ds, .ds],
      [.ds, .ds, .ds, .ds, .ds, .ds, .ds, .ds]]

/-- The segment of a form with a scaled index, by mod and base. -/
def scaledTable : List (List Segment) :=
  [[.ds, .ds, .ds, .ds, .ss, .ds, .ds, .ds],
    [.ds, .ds, .ds, .ds, .ss, .ss, .ds, .ds],
    [.ds, .ds, .ds, .ds, .ss, .ss, .ds, .ds]]

def cell (table : List (List Segment)) (mod : BitVec 2) (column : BitVec 3) : Option Segment :=
  table[mod.toNat]?.bind (·[column.toNat]?)

/-- The form leaves the choice to the base behind it. 16-bit code has no such form. -/
def isScaled (mode : Mode) (m : ModRM) : Bool := mode != .bits16 && m.rm == 0b100

/-- The cell of the table that the form sends to, if the table has it. -/
def tabled (mode : Mode) (m : ModRM) (sib : Option SIB) : Option Segment :=
  if isScaled mode m then cell scaledTable m.mod (baseField sib)
  else cell (formTable mode) m.mod m.rm

theorem mem_overrides_iff (ps : List Prefix) (s : Segment) :
    s ∈ overrides ps ↔ s.overrideByte ∈ ps.map Prefix.byte := by
  rw [mem_overrides, ← List.contains_iff_mem]
  exact Prefix.contains_legacy_iff

theorem min?_overrides (ps : List Prefix) :
    (overrides ps).min? = firstOverride? (ps.map Prefix.byte) := by
  have htable : overrideBytes = all.map fun s => (s.overrideByte, s) := rfl
  have hfound : ∀ s : Segment,
      decide (s ∈ overrides ps) = (ps.map Prefix.byte).contains s.overrideByte := by
    intro s
    rw [List.contains_eq_mem, decide_eq_decide]
    exact mem_overrides_iff ps s
  rw [min?_eq_find?, firstOverride?, htable, List.find?_map, Option.map_map]
  simp only [hfound, Function.comp_def, Option.map_id']

theorem implied_of_register {a : Addressing} (h : a.modrm.mod = 0b11) (mode : Mode) :
    implied mode (some a) = .ds := by
  simp [implied, Addressing.base, ModRM.isRegister, h, BaseRegister.segment]

theorem implied_bits16_of_memory {a : Addressing} (h : a.modrm.mod ≠ 0b11) :
    implied .bits16 (some a) = (Addressing.base16 a.modrm).segment := by
  have hmemory : a.modrm.isRegister = false := beq_false_of_ne h
  simp [implied, Addressing.base, hmemory]

theorem implied_of_memory {mode : Mode} {a : Addressing} (hmode : mode ≠ .bits16)
    (h : a.modrm.mod ≠ 0b11) : implied mode (some a) = (a.base32 mode).segment := by
  have hmemory : a.modrm.isRegister = false := beq_false_of_ne h
  cases mode with
  | bits16 => exact absurd rfl hmode
  | _ => simp [implied, Addressing.base, hmemory]

theorem mod_cases {mod : BitVec 2} (h : mod ≠ 0b11) : mod = 0b00 ∨ mod = 0b01 ∨ mod = 0b10 := by
  revert mod
  decide

theorem segment_base16 (m : ModRM) :
    (Addressing.base16 m).segment =
      if m.rm = 0b010 ∨ m.rm = 0b011 then .ss
      else if m.mod ≠ 0b00 ∧ m.rm = 0b110 then .ss
      else .ds := by
  unfold Addressing.base16
  split
  · simp_all [BaseRegister.segment]
  · simp_all [BaseRegister.segment]
  · split <;> simp_all [BaseRegister.segment]
  · simp_all [BaseRegister.segment]

theorem segment_scaledBase (m : ModRM) (s : SIB) :
    (Addressing.scaledBase m s).segment =
      if s.base = 0b100 ∨ m.mod ≠ 0b00 ∧ s.base = 0b101 then .ss else .ds := by
  unfold Addressing.scaledBase
  split
  · simp_all [BaseRegister.segment]
  · split <;> simp_all [BaseRegister.segment]
  · simp_all [BaseRegister.segment]

/-- The SIB byte of an operand in memory is there exactly if rm asks for it. -/
theorem sib_cases {a : Addressing} (h : a.sib.isSome = a.modrm.needsSIB)
    (hmod : a.modrm.mod ≠ 0b11) :
    (a.modrm.rm = 0b100 ∧ ∃ s, a.sib = some s) ∨ (a.modrm.rm ≠ 0b100 ∧ a.sib = none) := by
  by_cases hrm : a.modrm.rm = 0b100
  · have hneeds := a.modrm.needsSIB_iff.mpr ⟨hmod, hrm⟩
    exact .inl ⟨hrm, Option.isSome_iff_exists.mp (h.trans hneeds)⟩
  · refine .inr ⟨hrm, Option.isNone_iff_eq_none.mp ?_⟩
    rw [← Option.not_isSome, h, Bool.not_eq_true']
    exact Bool.eq_false_iff.mpr fun hneeds => hrm (a.modrm.needsSIB_iff.mp hneeds).2

theorem segment_base32 (mode : Mode) (a : Addressing) :
    (a.base32 mode).segment =
      if a.modrm.rm = 0b101 then
        if a.modrm.mod = 0b00 then (Addressing.bareBase mode).segment else .ss
      else if a.modrm.rm = 0b100 ∧ (baseField a.sib = 0b100 ∨
        a.modrm.mod ≠ 0b00 ∧ baseField a.sib = 0b101) then .ss
      else .ds := by
  unfold Addressing.base32
  split
  · rename_i hrm
    cases hs : a.sib with
    | none => simp [hrm, baseField, BaseRegister.segment]
    | some s => simp [hrm, baseField, segment_scaledBase]
  · split <;> simp_all [BaseRegister.segment]
  · simp_all [BaseRegister.segment]

theorem implied_bits16 (a : Addressing) :
    implied .bits16 (some a) = rule16 a.modrm.mod a.modrm.rm := by
  by_cases hmod : a.modrm.mod = 0b11
  · rw [implied_of_register hmod, rule16, if_pos hmod]
  · rw [implied_bits16_of_memory hmod, segment_base16, rule16, if_neg hmod]

theorem implied_bits32 {a : Addressing} (h : a.sib.isSome = a.modrm.needsSIB) :
    implied .bits32 (some a) = rule32 a.modrm.mod a.modrm.rm (baseField a.sib) := by
  by_cases hmod : a.modrm.mod = 0b11
  · rw [implied_of_register hmod, rule32, if_pos hmod]
  · have hmods := mod_cases hmod
    have hbare : (Addressing.bareBase .bits32).segment = .ds := rfl
    rw [implied_of_memory (by decide) hmod, segment_base32, rule32, if_neg hmod, hbare]
    rcases sib_cases h hmod with ⟨hrm, s, hs⟩ | ⟨hrm, hs⟩
    · simp [hrm, or_comm]
    · -- no rule names the base zero, which stands for the missing byte
      have hbase : baseField a.sib = 0 := by rw [hs]; rfl
      rcases hmods with hm | hm | hm <;> simp [hm, hbase]

theorem implied_bits64 (a : Addressing) :
    implied .bits64 (some a) = rule64 a.modrm.mod a.modrm.rm (baseField a.sib) := by
  by_cases hmod : a.modrm.mod = 0b11
  · rw [implied_of_register hmod, rule64, if_pos hmod]
  · have hmods := mod_cases hmod
    have hbare : (Addressing.bareBase .bits64).segment = .cs := rfl
    rw [implied_of_memory (by decide) hmod, segment_base32, rule64, if_neg hmod, hbare]
    by_cases hrm : a.modrm.rm = 0b100#3
    · by_cases hbase : baseField a.sib = 0b100#3 <;> simp [hrm, hbase]
    · rcases hmods with hm | hm | hm <;> simp [hm, hrm]

theorem implied_eq_ruled {mode : Mode} {a : Addressing} (h : a.Complete mode) :
    implied mode (some a) = ruled mode a.modrm a.sib := by
  cases mode with
  | bits16 => exact implied_bits16 a
  | bits32 => exact implied_bits32 h.sib
  | bits64 => exact implied_bits64 a

theorem cell_formTable_bits16 (mod : BitVec 2) (rm : BitVec 3) :
    cell (formTable .bits16) mod rm = some (rule16 mod rm) := by
  revert mod rm
  decide

theorem cell_formTable {mode : Mode} (h : mode ≠ .bits16) (mod : BitVec 2) (rm : BitVec 3) :
    cell (formTable mode) mod rm =
      some (if mod = 0b11 then .ds
        else if rm = 0b101 then
          if mod = 0b00 then (Addressing.bareBase mode).segment else .ss
        else .ds) := by
  cases mode with
  | bits16 => exact absurd rfl h
  | bits32 =>
    revert mod rm
    decide
  | bits64 =>
    revert mod rm
    decide

theorem cell_scaledTable {mod : BitVec 2} (h : mod ≠ 0b11) (base : BitVec 3) :
    cell scaledTable mod base =
      some (if base = 0b100 ∨ mod ≠ 0b00 ∧ base = 0b101 then .ss else .ds) := by
  revert mod base
  decide

/-- Every cell holds what the base register decides, whether or not the bytes of the form are
complete. The only forms without a cell are registers that would be scaled. -/
theorem tabled_eq_implied {mode : Mode} {a : Addressing}
    (h : isScaled mode a.modrm = true → a.modrm.mod ≠ 0b11) :
    tabled mode a.modrm a.sib = some (implied mode (some a)) := by
  unfold tabled
  by_cases hmode : mode = .bits16
  · subst hmode
    rw [implied_bits16]
    exact cell_formTable_bits16 _ _
  · have hscaled : isScaled mode a.modrm = true ↔ a.modrm.rm = 0b100#3 := by
      simp [isScaled, hmode]
    by_cases hmod : a.modrm.mod = 0b11
    · have hplain : ¬ isScaled mode a.modrm = true := fun hs => h hs hmod
      rw [if_neg hplain, cell_formTable hmode, if_pos hmod, implied_of_register hmod]
    · rw [implied_of_memory hmode hmod, segment_base32]
      by_cases hrm : a.modrm.rm = 0b100#3
      · rw [if_pos (hscaled.mpr hrm), cell_scaledTable hmod]
        simp [hrm]
      · have hplain : ¬ isScaled mode a.modrm = true := fun hs => hrm (hscaled.mp hs)
        rw [if_neg hplain, cell_formTable hmode, if_neg hmod]
        simp [hrm]

end Segment

namespace Decoder

/-- The segment of a decoded record is that of the override which comes first in the order of
precedence. Without one it is the data segment if there is no ModRM byte, and otherwise what the
first matching rule of the mode says of that byte and the base behind it. -/
theorem segment_follows_rules {d : Decoder} {bytes : List UInt8} {i : Instruction}
    (h : d.decode bytes = .ok i) :
    i.segment =
      match Segment.firstOverride? (i.prefixes.map Prefix.byte), i.modrm with
      | some s, _ => s
      | none, none => .ds
      | none, some m => Segment.ruled d.mode m i.sib := by
  have hcanonical := (decode_eq_ok_iff.mp h).1
  rw [hcanonical.segment, Segment.select, Segment.min?_overrides]
  cases Segment.firstOverride? (i.prefixes.map Prefix.byte) with
  | some s => rfl
  | none =>
    cases ha : i.addressing with
    | none => simp [Instruction.modrm, ha, Segment.implied]
    | some a =>
      simp only [Instruction.modrm, Instruction.sib, ha, Option.map_some, Option.bind_some,
        Option.getD_none]
      exact Segment.implied_eq_ruled (hcanonical.addressing a ha)

/-- A load from the stack. In 16-bit code the SIB byte is read and then has no say. -/
def stackLoad : List UInt8 := [0x8B, 0x44, 0x24, 0x08]

theorem segment_follows_rules_stackLoad :
    (∃ i, (ofMode .bits16).decode stackLoad = .ok i ∧ i.segment = .ds) ∧
      (∃ i, (ofMode .bits32).decode stackLoad = .ok i ∧ i.segment = .ss) ∧
      ∃ i, (ofMode .bits64).decode ([0x65, 0x3E, 0x64, 0x3E, 0x48] ++ stackLoad) = .ok i ∧
        i.segment = .ds := by
  refine ⟨⟨_, rfl, ?_⟩, ⟨_, rfl, ?_⟩, _, rfl, ?_⟩
  · exact @segment_follows_rules (ofMode .bits16) stackLoad _ rfl
  · exact @segment_follows_rules (ofMode .bits32) stackLoad _ rfl
  · exact @segment_follows_rules (ofMode .bits64)
      ([0x65, 0x3E, 0x64, 0x3E, 0x48] ++ stackLoad) _ rfl

end Decoder

end X86Layout
