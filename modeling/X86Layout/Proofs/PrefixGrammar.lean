import X86Layout.Proofs.RoundTrip

namespace X86Layout

/-- The name spells out the payload: the letters of the bits that are set, in the order of the
bits, behind a point that is there only if they are. -/
def Rex.Spelled (x : Rex) (name : String) : Prop :=
  ∃ letters : List Char, letters.Sublist ['W', 'R', 'X', 'B'] ∧
    ('W' ∈ letters ↔ x.w = true) ∧ ('R' ∈ letters ↔ x.r = true) ∧
    ('X' ∈ letters ↔ x.x = true) ∧ ('B' ∈ letters ↔ x.b = true) ∧
    name = if letters.isEmpty then "REX" else "REX." ++ String.ofList letters

theorem Rex.ofByte?_eq_some_iff {v : UInt8} {x : Rex} :
    ofByte? v = some x ↔ isRexByte v = true ∧ ofByte v = x := by
  simp [ofByte?]

theorem Rex.isRexByte_byte (x : Rex) : isRexByte x.byte = true :=
  (ofByte?_eq_some_iff.mp x.ofByte?_byte).1

theorem Rex.ofByte_byte (x : Rex) : ofByte x.byte = x := (ofByte?_eq_some_iff.mp x.ofByte?_byte).2

theorem Rex.sublist_letters (x : Rex) : x.letters.Sublist ['W', 'R', 'X', 'B'] := by
  obtain ⟨w, r, x, b⟩ := x
  cases w <;> cases r <;> cases x <;> cases b <;> simp [letters]

/-- The names in the order of the bytes. -/
def Rex.names : List String :=
  ["REX", "REX.B", "REX.X", "REX.XB", "REX.R", "REX.RB", "REX.RX", "REX.RXB", "REX.W", "REX.WB",
    "REX.WX", "REX.WXB", "REX.WR", "REX.WRB", "REX.WRX", "REX.WRXB"]

theorem Rex.getElem?_names (x : Rex) : names[(x.byte &&& 0x0F).toNat]? = some x.name := by
  obtain ⟨w, r, x, b⟩ := x
  cases w <;> cases r <;> cases x <;> cases b <;> rfl

/-- The low half of a REX byte is the place of its name, and no other byte has one. -/
theorem Rex.name_ofByte? (v : UInt8) :
    (ofByte? v).map name = if isRexByte v then names[(v &&& 0x0F).toNat]? else none := by
  cases h : ofByte? v with
  | none =>
    have hv : ¬ isRexByte v = true := by simpa [ofByte?] using h
    rw [if_neg hv]
    rfl
  | some x =>
    obtain rfl := byte_of_ofByte? h
    rw [if_pos (isRexByte_byte x), getElem?_names]
    rfl

theorem Rex.spelled_name (x : Rex) : x.Spelled x.name := by
  refine ⟨x.letters, x.sublist_letters, ?_, ?_, ?_, ?_, rfl⟩ <;> simp [letters]

namespace Prefix

/-- The bytes that are legacy prefixes in every mode, with their names. -/
def legacyNames : List (UInt8 × String) :=
  [(0xF0, "LOCK"), (0xF2, "REPNE"), (0xF3, "REP/REPE"), (0x2E, "CS"), (0x36, "SS"), (0x3E, "DS"),
    (0x26, "ES"), (0x64, "FS"), (0x65, "GS"), (0x66, "Operand-size override"),
    (0x67, "Address-size override")]

def legacyBytes : List UInt8 := legacyNames.map Prod.fst

/-- The longest run of legacy prefix bytes at the front. -/
def legacyFront (bytes : List UInt8) : List UInt8 := bytes.takeWhile legacyBytes.contains

/-- The byte behind that run, if it is a REX and the code is 64-bit code. -/
def rexBehind? (m : Mode) (bytes : List UInt8) : Option UInt8 :=
  if m = .bits64 then
    (bytes.dropWhile legacyBytes.contains).head?.filter fun b => 0x40 ≤ b && b ≤ 0x4F
  else none

/-- Legacy prefixes as long as there are any, and then one REX at most. -/
def front (m : Mode) (bytes : List UInt8) : List UInt8 :=
  legacyFront bytes ++ (rexBehind? m bytes).toList

theorem legacyNames_eq : legacyNames = LegacyPrefix.all.map fun p => (p.byte, p.name) := rfl

theorem mem_legacyNames (p : LegacyPrefix) : (p.byte, p.name) ∈ legacyNames := by
  rw [legacyNames_eq]
  exact List.mem_map.mpr ⟨p, p.mem_all, rfl⟩

theorem mem_legacyBytes {b : UInt8} : b ∈ legacyBytes ↔ ∃ p : LegacyPrefix, p.byte = b := by
  rw [legacyBytes, legacyNames_eq]
  simp [LegacyPrefix.mem_all]

theorem contains_legacyBytes (p : LegacyPrefix) : legacyBytes.contains p.byte = true :=
  List.contains_iff_mem.mpr (mem_legacyBytes.mpr ⟨p, rfl⟩)

theorem not_contains_legacyBytes {b : UInt8} (h : LegacyPrefix.ofByte? b = none) :
    ¬ legacyBytes.contains b = true := by
  intro hb
  obtain ⟨p, rfl⟩ := mem_legacyBytes.mp (List.contains_iff_mem.mp hb)
  rw [LegacyPrefix.ofByte?_byte] at h
  cases h

theorem legacyFront_legacy (p : LegacyPrefix) (bytes : List UInt8) :
    legacyFront (p.byte :: bytes) = p.byte :: legacyFront bytes :=
  List.takeWhile_cons_of_pos (contains_legacyBytes p)

theorem rexBehind?_legacy (m : Mode) (p : LegacyPrefix) (bytes : List UInt8) :
    rexBehind? m (p.byte :: bytes) = rexBehind? m bytes := by
  simp only [rexBehind?, List.dropWhile_cons_of_pos (contains_legacyBytes p)]

theorem legacyFront_other {b : UInt8} (h : LegacyPrefix.ofByte? b = none) (bytes : List UInt8) :
    legacyFront (b :: bytes) = [] :=
  List.takeWhile_cons_of_neg (not_contains_legacyBytes h)

theorem rexBehind?_other {b : UInt8} (h : LegacyPrefix.ofByte? b = none) (m : Mode)
    (bytes : List UInt8) :
    rexBehind? m (b :: bytes) = if m = .bits64 ∧ Rex.isRexByte b then some b else none := by
  unfold rexBehind?
  rw [List.dropWhile_cons_of_neg (not_contains_legacyBytes h)]
  by_cases hm : m = .bits64
  · simp [hm, Rex.isRexByte, Option.filter]
  · simp [hm]

theorem rexBehind?_rex {m : Mode} (hm : m = .bits64) (x : Rex) (bytes : List UInt8) :
    rexBehind? m (x.byte :: bytes) = some x.byte := by
  rw [rexBehind?_other (legacy_ofByte?_rex x), if_pos ⟨hm, x.isRexByte_byte⟩]

theorem rexBehind?_stop {m : Mode} {b : UInt8} (h : Stops m [] b) (bytes : List UInt8) :
    rexBehind? m (b :: bytes) = none := by
  obtain ⟨hl, hx⟩ := h rfl
  rw [rexBehind?_other hl]
  simp only [ite_eq_right_iff, reduceCtorEq, imp_false]
  intro hb
  rw [hx hb.1] at hb
  cases hb.2

/-- The scanner takes the bytes that the grammar matches. -/
theorem map_byte_run_eq_front (m : Mode) (bytes : List UInt8) :
    (run m bytes).map byte = front m bytes := by
  induction bytes using run_induction m with
  | nil => cases m <;> rfl
  | legacy p bytes ih =>
    rw [run_legacy, List.map_cons, ih, front, front, legacyFront_legacy, rexBehind?_legacy]
    rfl
  | rex x bytes hm =>
    rw [run_rex hm, front, legacyFront_other (legacy_ofByte?_rex x), rexBehind?_rex hm]
    rfl
  | other b bytes hb =>
    rw [run_other hb, front, legacyFront_other (hb rfl).1, rexBehind?_stop hb]
    rfl

theorem rex?_run (m : Mode) (bytes : List UInt8) :
    (run m bytes).findSome? rex? = (rexBehind? m bytes).map Rex.ofByte := by
  induction bytes using run_induction m with
  | nil => cases m <;> rfl
  | legacy p bytes ih =>
    rw [run_legacy, rexBehind?_legacy, ← ih]
    rfl
  | rex x bytes hm =>
    rw [run_rex hm, rexBehind?_rex hm, Option.map_some, Rex.ofByte_byte]
    rfl
  | other b bytes hb =>
    rw [run_other hb, rexBehind?_stop hb]
    rfl

theorem IsRun.rex_last {m : Mode} {ps : List Prefix} (h : IsRun m ps) {n : Nat} {x : Rex}
    (hx : ps[n]? = some (.rex x)) : m = .bits64 ∧ n + 1 = ps.length := by
  induction h generalizing n with
  | nil => simp at hx
  | rex y hm =>
    cases n with
    | zero => exact ⟨hm, rfl⟩
    | succ n => simp at hx
  | legacy p tail ih =>
    cases n with
    | zero => simp at hx
    | succ n =>
      obtain ⟨hm, hn⟩ := ih (by simpa using hx)
      exact ⟨hm, by simp [hn]⟩

theorem IsRun.findSome?_rex? {m : Mode} {ps : List Prefix} (h : IsRun m ps) :
    ps.findSome? rex? = ps.getLast?.bind rex? := by
  induction h with
  | nil => rfl
  | rex x hm => rfl
  | @legacy p ps tail ih =>
    rw [List.findSome?_cons_of_isNone (by rfl), ih]
    cases ps with
    | nil => rfl
    | cons q ps => rw [List.getLast?_cons_cons]

end Prefix

/-- The prefixes of a record are those that the grammar finds at the front of the bytes, one record
a byte, and the opcode stands right behind them. -/
structure Instruction.PrefixesFrom (m : Mode) (bytes : List UInt8) (i : Instruction) : Prop where
  run : i.prefixes.map Prefix.byte = Prefix.legacyFront bytes ++ (Prefix.rexBehind? m bytes).toList
  opcode : bytes[i.prefixes.length]? = some i.opcode.byte
  rexLast : ∀ n x, i.prefixes[n]? = some (.rex x) → m = .bits64 ∧ n + 1 = i.prefixes.length
  legacyNamed : ∀ p ∈ i.prefixes, p.rex? = none → (p.byte, p.name) ∈ Prefix.legacyNames
  rexNamed : ∀ p ∈ i.prefixes, ∀ x ∈ p.rex?, x = Rex.ofByte p.byte ∧ x.Spelled p.name
  rex : i.rex = (Prefix.rexBehind? m bytes).map Rex.ofByte
  rexOfLast : i.rex = i.prefixes.getLast?.bind Prefix.rex?

namespace Decoder

/-- A decode takes the longest run of legacy prefixes, behind it one REX in 64-bit code, and reads
the opcode from the next byte, whatever that is. -/
theorem prefixesFrom_of_decode {d : Decoder} {bytes : List UInt8} {i : Instruction}
    (h : d.decode bytes = .ok i) : i.PrefixesFrom d.mode bytes := by
  obtain ⟨hcanonical, tail, rfl⟩ := decode_eq_ok_iff.mp h
  have hrun : Prefix.run d.mode (i.encode ++ tail) = i.prefixes := hcanonical.run_encode tail
  refine ⟨?_, ?_, ?_, ?_, ?_, ?_, hcanonical.prefixes.findSome?_rex?⟩
  · rw [← hrun]
    exact Prefix.map_byte_run_eq_front d.mode _
  · simp [Instruction.encode]
  · intro n x hx
    exact hcanonical.prefixes.rex_last hx
  · intro p _ hp
    cases p with
    | legacy p => exact Prefix.mem_legacyNames p
    | rex x => cases hp
  · intro p _ x hx
    cases p with
    | legacy p => cases hx
    | rex y =>
      cases hx
      exact ⟨x.ofByte_byte.symm, x.spelled_name⟩
  · rw [← Prefix.rex?_run, hrun]
    rfl

theorem prefixesFrom_behindRexBytes :
    behindRex.decode behindRexBytes = .ok behindRexInstruction ∧
      behindRexInstruction.PrefixesFrom .bits64 behindRexBytes ∧
      Prefix.legacyFront behindRexBytes = [0x66] ∧
      Prefix.rexBehind? .bits64 behindRexBytes = some 0x48 :=
  ⟨decode_behindRexBytes, prefixesFrom_of_decode decode_behindRexBytes, rfl, rfl⟩

end Decoder

end X86Layout
