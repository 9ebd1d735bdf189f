import X86Layout.Proofs.PrefixGrammar
import X86Layout.Proofs.Truncation

namespace X86Layout

namespace OpcodeMap

/-- The bytes that are no prefixes and still have no entry: the escape to longer opcodes, the far
and the address-sized forms, and a reserved one. -/
def unmappedBytes : List UInt8 := [0x0F, 0x9A, 0xA0, 0xA1, 0xA2, 0xA3, 0xC8, 0xD6, 0xEA]

/-- The opcodes that 64-bit code does without, apart from those whose bytes are REX there. -/
def withdrawnBytes : List UInt8 :=
  [0x06, 0x07, 0x0E, 0x16, 0x17, 0x1E, 0x1F, 0x27, 0x2F, 0x37, 0x3F, 0x60, 0x61, 0x62, 0x82, 0xC4,
    0xC5, 0xCE, 0xD4, 0xD5]

/-- The rows among which the entry of a byte is to be found. -/
def rowsNear (b : UInt8) : List Row :=
  if b < 0x40 then arithmeticRows ++ legacyRows
  else if b < 0x80 then registerAndStackRows
  else if b < 0xA0 then moveRows
  else if b < 0xC0 then stringRows
  else if b < 0xE0 then returnAndShiftRows
  else controlRows

theorem mem_primaryRows {b : UInt8} {r : Row} (h : r ∈ rowsNear b) : r ∈ primaryRows := by
  unfold rowsNear at h
  simp only [primaryRows, List.mem_append]
  grind

theorem ofRows_eq_none_iff {rows : List Row} {b : UInt8} :
    (ofRows rows).get? b = none ↔ ∀ r ∈ rows, r.covers b = false := by
  simp [ofRows]

theorem row_of_get? {rows : List Row} {b : UInt8} {o : Opcode}
    (h : (ofRows rows).get? b = some o) :
    ∃ r ∈ rows, r.covers b = true ∧ o = { r.opcode with byte := b } := by
  obtain ⟨r, hr, rfl⟩ := Option.map_eq_some_iff.mp h
  have hcovers := List.find?_some hr
  exact ⟨r, List.mem_of_find?_eq_some hr, hcovers, rfl⟩

/-- Every byte is covered by a row near it, or is one that the map leaves out. -/
theorem primary_eq_none_iff {b : UInt8} :
    primary.get? b = none ↔ b ∈ unmappedBytes ∨ b ∈ Prefix.legacyBytes := by
  have hcovered : ∀ b ∈ allBytes, (rowsNear b).any (·.covers b) ||
      (unmappedBytes ++ Prefix.legacyBytes).contains b := by decide +kernel
  have hapart : ∀ r ∈ primaryRows, ∀ b ∈ unmappedBytes ++ Prefix.legacyBytes,
      r.covers b = false := by decide +kernel
  rw [primary, ofRows_eq_none_iff, ← List.mem_append]
  constructor
  · intro hnone
    rcases Bool.or_eq_true_iff.mp (hcovered b (mem_allBytes b)) with hrow | hlisted
    · obtain ⟨r, hr, hcovers⟩ := List.any_eq_true.mp hrow
      rw [hnone r (mem_primaryRows hr)] at hcovers
      cases hcovers
    · exact List.contains_iff_mem.mp hlisted
  · intro hlisted r hr
    exact hapart r hr b hlisted

theorem only64Bit_of_primary {b : UInt8} {o : Opcode} (h : primary.get? b = some o) :
    o.only64Bit = false := by
  have hrows : ∀ r ∈ primaryRows, r.opcode.only64Bit = false := by decide +kernel
  obtain ⟨r, hr, _, rfl⟩ := row_of_get? h
  exact hrows r hr

theorem withdrawn_of_primary {b : UInt8} {o : Opcode} (h : primary.get? b = some o)
    (ho : o.invalidIn64Bit = true) : b ∈ withdrawnBytes ∨ Rex.isRexByte b = true := by
  have hrows : ∀ r ∈ primaryRows, r.opcode.invalidIn64Bit = true →
      r.first = r.last ∧ r.first ∈ withdrawnBytes ∨ 0x40 ≤ r.first ∧ r.last ≤ 0x4F := by
    decide +kernel
  obtain ⟨r, hr, hcovers, rfl⟩ := row_of_get? h
  obtain ⟨hfirst, hlast⟩ : r.first ≤ b ∧ b ≤ r.last := by simpa [Row.covers] using hcovers
  rcases hrows r hr ho with ⟨hsingle, hlisted⟩ | ⟨hlow, hhigh⟩
  · rw [← hsingle] at hlast
    rw [UInt8.le_antisymm hlast hfirst]
    exact .inl hlisted
  · have hrex : 0x40 ≤ b ∧ b ≤ 0x4F := ⟨UInt8.le_trans hlow hfirst, UInt8.le_trans hlast hhigh⟩
    exact .inr (by simpa [Rex.isRexByte] using hrex)

theorem primary_of_withdrawn {b : UInt8} (h : b ∈ withdrawnBytes ∨ Rex.isRexByte b = true) :
    ∃ o, primary.get? b = some o ∧ o.invalidIn64Bit = true := by
  have hbytes : ∀ b ∈ withdrawnBytes ++ allBytes.filter Rex.isRexByte,
      (primary.get? b).any (·.invalidIn64Bit) = true := by decide +kernel
  have hmem : b ∈ withdrawnBytes ++ allBytes.filter Rex.isRexByte := by
    simpa [mem_allBytes] using h
  simpa [Option.any_eq_true] using hbytes b hmem

/-- The mode finds fault with an entry in 64-bit code only, and there with those given up. -/
theorem primary_withdrawn_iff {b : UInt8} {mode : Mode} :
    (∃ o, primary.get? b = some o ∧ o.validIn mode = false) ↔
      mode = .bits64 ∧ (b ∈ withdrawnBytes ∨ Rex.isRexByte b = true) := by
  constructor
  · intro h
    obtain ⟨o, ho, hvalid⟩ := h
    by_cases hm : mode = .bits64
    · exact ⟨hm, withdrawn_of_primary ho (by simpa [Opcode.validIn, hm] using hvalid)⟩
    · simp [Opcode.validIn, hm, only64Bit_of_primary ho] at hvalid
  · intro h
    obtain ⟨rfl, hb⟩ := h
    obtain ⟨o, ho, hinvalid⟩ := primary_of_withdrawn hb
    exact ⟨o, ho, by simp [Opcode.validIn, hinvalid]⟩

end OpcodeMap

namespace Decoder

variable {d : Decoder} {bytes : List UInt8} {b : UInt8}

theorem length_front (d : Decoder) (bytes : List UInt8) :
    (Prefix.front d.mode bytes).length = d.runLength bytes := by
  rw [← Prefix.map_byte_run_eq_front, List.length_map]
  rfl

/-- A byte that would be a prefix at the front is an opcode only behind a REX. -/
theorem rexBehind?_of_opcode (hb : bytes[d.runLength bytes]? = some b)
    (h : b ∈ Prefix.legacyBytes ∨ d.mode = .bits64 ∧ Rex.isRexByte b = true) :
    d.mode = .bits64 ∧ (Prefix.rexBehind? d.mode bytes).isSome = true := by
  cases hrex : Prefix.rexBehind? d.mode bytes with
  | some x =>
    refine ⟨?_, rfl⟩
    by_cases hm : d.mode = .bits64
    · exact hm
    · simp [Prefix.rexBehind?, hm] at hrex
  | none =>
    -- without a REX the run ends because the byte is no prefix
    have hnone : (Prefix.run d.mode bytes).findSome? Prefix.rex? = none := by
      rw [Prefix.rex?_run, hrex]
      rfl
    obtain ⟨hlegacy, hstop⟩ := Prefix.stops_run (drop_runLength hb) hnone
    rcases h with hmem | ⟨hm, hisRex⟩
    · exact absurd (List.contains_iff_mem.mpr hmem) (Prefix.not_contains_legacyBytes hlegacy)
    · rw [hstop hm] at hisRex
      cases hisRex

theorem resolve_error_iff {e : DecodeError} :
    d.resolve b = .error e ↔
      e = .unsupported b ∧ d.map.get? b = none ∨
        e = .modeIncompatible b d.mode ∧ ∃ o, d.map.get? b = some o ∧ o.validIn d.mode = false := by
  constructor
  · exact resolve_error
  · intro h
    rcases h with ⟨rfl, hnone⟩ | ⟨rfl, o, ho, hvalid⟩
    · simp [resolve, hnone]
    · simp [resolve, ho, hvalid]

theorem decode_unsupported_iff :
    d.decode bytes = .error (.unsupported b) ↔
      bytes[d.runLength bytes]? = some b ∧ d.map.get? b = none := by
  have hrefusal : (DecodeError.unsupported b).IsRefusal := trivial
  rw [refused_iff hrefusal]
  simp [resolve_error_iff, and_left_comm]

theorem decode_modeIncompatible_iff {m : Mode} :
    d.decode bytes = .error (.modeIncompatible b m) ↔
      m = d.mode ∧ bytes[d.runLength bytes]? = some b ∧
        ∃ o, d.map.get? b = some o ∧ o.validIn d.mode = false := by
  have hrefusal : (DecodeError.modeIncompatible b m).IsRefusal := trivial
  rw [refused_iff hrefusal]
  simp [resolve_error_iff, and_assoc, and_left_comm]

/-- The opcodes that the primary map turns down, by the byte behind the prefixes. A byte that would
be a prefix itself gets there behind a REX only. Outside 64-bit code the mode is never at fault. -/
theorem decode_primary_refusals (mode : Mode) (bytes : List UInt8) :
    (∀ b, (ofMode mode).decode bytes = .error (.unsupported b) ↔
        bytes[(Prefix.front mode bytes).length]? = some b ∧
          (b ∈ OpcodeMap.unmappedBytes ∨
            mode = .bits64 ∧ (Prefix.rexBehind? mode bytes).isSome = true ∧
              b ∈ Prefix.legacyBytes)) ∧
      (∀ b m, (ofMode mode).decode bytes = .error (.modeIncompatible b m) ↔
        m = mode ∧ mode = .bits64 ∧ bytes[(Prefix.front mode bytes).length]? = some b ∧
          (b ∈ OpcodeMap.withdrawnBytes ∨
            (Prefix.rexBehind? mode bytes).isSome = true ∧ 0x40 ≤ b ∧ b ≤ 0x4F)) ∧
      (mode ≠ .bits64 → ∀ b m, (ofMode mode).decode bytes ≠ .error (.modeIncompatible b m)) := by
  have hlength : (Prefix.front mode bytes).length = (ofMode mode).runLength bytes :=
    length_front (ofMode mode) bytes
  have hincompatible : ∀ b m, (ofMode mode).decode bytes = .error (.modeIncompatible b m) ↔
      m = mode ∧ bytes[(ofMode mode).runLength bytes]? = some b ∧ mode = .bits64 ∧
        (b ∈ OpcodeMap.withdrawnBytes ∨ Rex.isRexByte b = true) := by
    intro b m
    rw [← OpcodeMap.primary_withdrawn_iff]
    exact decode_modeIncompatible_iff
  rw [hlength]
  refine ⟨?_, ?_, ?_⟩
  · intro b
    rw [decode_unsupported_iff]
    apply and_congr_right
    intro hb
    refine OpcodeMap.primary_eq_none_iff.trans (or_congr_right ⟨?_, fun h => h.2.2⟩)
    intro hlegacy
    obtain ⟨hm, hrex⟩ := rexBehind?_of_opcode hb (.inl hlegacy)
    exact ⟨hm, hrex, hlegacy⟩
  · intro b m
    have hisRex : Rex.isRexByte b = true ↔ 0x40 ≤ b ∧ b ≤ 0x4F := by simp [Rex.isRexByte]
    rw [hincompatible, ← hisRex]
    constructor
    · intro h
      obtain ⟨rfl, hb, hm, hwithdrawn⟩ := h
      refine ⟨rfl, hm, hb, hwithdrawn.imp_right fun hx => ⟨?_, hx⟩⟩
      exact (rexBehind?_of_opcode hb (.inr ⟨hm, hx⟩)).2
    · intro h
      obtain ⟨rfl, hm, hb, hwithdrawn⟩ := h
      exact ⟨rfl, hb, hm, hwithdrawn.imp_right And.right⟩
  · intro hm b m h
    exact hm ((hincompatible b m).mp h).2.2.1

theorem decode_primary_refusals_samples :
    (ofMode .bits64).decode [0x66, 0x48, 0x66, 0x90] = .error (.unsupported 0x66) ∧
      (ofMode .bits64).decode [0x2E, 0x41, 0x48] = .error (.modeIncompatible 0x48 .bits64) ∧
      ∀ b m, (ofMode .bits32).decode [0x2E, 0x48] ≠ .error (.modeIncompatible b m) := by
  refine ⟨?_, ?_, ?_⟩
  · exact ((decode_primary_refusals .bits64 _).1 _).mpr ⟨rfl, .inr ⟨rfl, rfl, by decide⟩⟩
  · exact ((decode_primary_refusals .bits64 _).2.1 _ _).mpr
      ⟨rfl, rfl, rfl, .inr ⟨rfl, by decide, by decide⟩⟩
  · exact (decode_primary_refusals .bits32 _).2.2 (by decide)

end Decoder

end X86Layout
