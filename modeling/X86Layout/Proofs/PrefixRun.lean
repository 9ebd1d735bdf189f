import X86Layout.Prefix

namespace X86Layout.Prefix

/-- Legacy prefixes in any order and number, then at most one REX, and that in 64-bit code only. -/
inductive IsRun (m : Mode) : List Prefix → Prop where
  | nil : IsRun m []
  | rex (x : Rex) (long : m = .bits64) : IsRun m [.rex x]
  | legacy (p : LegacyPrefix) {ps : List Prefix} (tail : IsRun m ps) : IsRun m (.legacy p :: ps)

/-- The byte does not continue the run. After a REX no byte does. -/
def Stops (m : Mode) (ps : List Prefix) (b : UInt8) : Prop :=
  ps.findSome? rex? = none →
    LegacyPrefix.ofByte? b = none ∧ (m = .bits64 → Rex.isRexByte b = false)

theorem legacy_ofByte?_rex (x : Rex) : LegacyPrefix.ofByte? x.byte = none := by
  obtain ⟨w, r, x, b⟩ := x
  revert w r x b
  decide

theorem rex_ofByte?_eq_none {b : UInt8} (h : Rex.isRexByte b = false) : Rex.ofByte? b = none := by
  simp [Rex.ofByte?, h]

@[simp] theorem run_nil (m : Mode) : run m [] = [] := by
  cases m <;> rfl

@[simp] theorem run_legacy (m : Mode) (p : LegacyPrefix) (bytes : List UInt8) :
    run m (p.byte :: bytes) = .legacy p :: run m bytes := by
  simp [run, legacyRun, LegacyPrefix.ofByte?_byte]

theorem run_rex {m : Mode} (hm : m = .bits64) (x : Rex) (bytes : List UInt8) :
    run m (x.byte :: bytes) = [.rex x] := by
  subst m
  simp [run, legacyRun, legacy_ofByte?_rex, rexAt?, Mode.allowsRex, Rex.ofByte?_byte]

theorem run_other {m : Mode} {b : UInt8} (hb : Stops m [] b) (bytes : List UInt8) :
    run m (b :: bytes) = [] := by
  obtain ⟨hl, hx⟩ := hb rfl
  cases m with
  | bits16 => simp [run, legacyRun, hl, rexAt?, Mode.allowsRex]
  | bits32 => simp [run, legacyRun, hl, rexAt?, Mode.allowsRex]
  | bits64 => simp [run, legacyRun, hl, rexAt?, rex_ofByte?_eq_none (hx rfl)]

/-- At the front of an instruction a byte is a legacy prefix, a REX or no prefix at all. -/
theorem byte_cases (m : Mode) (b : UInt8) :
    (∃ p : LegacyPrefix, p.byte = b) ∨ (∃ x : Rex, m = .bits64 ∧ x.byte = b) ∨ Stops m [] b := by
  cases hl : LegacyPrefix.ofByte? b with
  | some p => exact .inl ⟨p, LegacyPrefix.ofByte?_eq_some_iff.mp hl⟩
  | none =>
    by_cases hm : m = .bits64 ∧ Rex.isRexByte b = true
    · have hx : Rex.ofByte? b = some (.ofByte b) := by simp [Rex.ofByte?, hm.2]
      exact .inr (.inl ⟨.ofByte b, hm.1, Rex.byte_of_ofByte? hx⟩)
    · refine .inr (.inr fun _ => ⟨hl, fun long => ?_⟩)
      simpa [long] using hm

/-- The scanner sees the front of the bytes in one of four ways. -/
theorem run_induction (m : Mode) {motive : List UInt8 → Prop} (nil : motive [])
    (legacy : ∀ p : LegacyPrefix, ∀ bytes, motive bytes → motive (p.byte :: bytes))
    (rex : ∀ x : Rex, ∀ bytes, m = .bits64 → motive (x.byte :: bytes))
    (other : ∀ b bytes, Stops m [] b → motive (b :: bytes)) (bytes : List UInt8) :
    motive bytes := by
  induction bytes with
  | nil => exact nil
  | cons b bytes ih =>
    rcases byte_cases m b with ⟨p, rfl⟩ | ⟨x, hm, rfl⟩ | hb
    · exact legacy p bytes ih
    · exact rex x bytes hm
    · exact other b bytes hb

theorem isRun_run (m : Mode) (bytes : List UInt8) : IsRun m (run m bytes) := by
  induction bytes using run_induction m with
  | nil => simpa using IsRun.nil
  | legacy p bytes ih =>
    rw [run_legacy]
    exact .legacy p ih
  | rex x bytes hm =>
    rw [run_rex hm]
    exact .rex x hm
  | other b bytes hb =>
    rw [run_other hb]
    exact .nil

/-- The run is made of the first bytes, none left out and none added. -/
theorem map_byte_run (m : Mode) (bytes : List UInt8) :
    (run m bytes).map byte = bytes.take (run m bytes).length := by
  induction bytes using run_induction m with
  | nil => simp
  | legacy p bytes ih => simp [byte, ih]
  | rex x bytes hm => simp [run_rex hm, byte]
  | other b bytes hb => simp [run_other hb]

theorem length_run_le (m : Mode) (bytes : List UInt8) : (run m bytes).length ≤ bytes.length := by
  have h := congrArg List.length (map_byte_run m bytes)
  simp only [List.length_map, List.length_take] at h
  omega

theorem run_append_drop (m : Mode) (bytes : List UInt8) :
    (run m bytes).map byte ++ bytes.drop (run m bytes).length = bytes := by
  rw [map_byte_run, List.take_append_drop]

/-- The scan ends for a reason: the next byte, if there is one, does not continue the run. -/
theorem stops_run {m : Mode} {bytes rest : List UInt8} {b : UInt8}
    (h : bytes.drop (run m bytes).length = b :: rest) : Stops m (run m bytes) b := by
  induction bytes using run_induction m with
  | nil => simp at h
  | legacy p bytes ih =>
    simp only [run_legacy, List.length_cons, List.drop_succ_cons] at h ⊢
    intro hnone
    exact ih h (by simpa [rex?] using hnone)
  | rex x bytes hm =>
    rw [run_rex hm]
    intro hnone
    simp [rex?] at hnone
  | other c bytes hc =>
    rw [run_other hc] at h ⊢
    cases h
    exact hc

theorem run_append_stop {m : Mode} {ps : List Prefix} {b : UInt8} (h : IsRun m ps)
    (hb : Stops m ps b) (rest : List UInt8) : run m (ps.map byte ++ b :: rest) = ps := by
  induction h with
  | nil => simpa using run_other hb rest
  | rex x hm => simpa [byte] using run_rex hm x (b :: rest)
  | legacy p tail ih =>
    have hb' : Stops m _ b := fun hnone => hb (by simpa [rex?] using hnone)
    simpa [byte] using ih hb'

/-- Once the byte after it is known, a run no longer depends on what follows. -/
theorem run_append_of_lt {m : Mode} {bytes : List UInt8} (h : (run m bytes).length < bytes.length)
    (tail : List UInt8) : run m (bytes ++ tail) = run m bytes := by
  cases hd : bytes.drop (run m bytes).length with
  | nil =>
    have hlen := congrArg List.length hd
    simp only [List.length_drop, List.length_nil] at hlen
    omega
  | cons b rest =>
    have hsplit := run_append_drop m bytes
    rw [hd] at hsplit
    have hrun := run_append_stop (isRun_run m bytes) (stops_run hd) (rest ++ tail)
    rwa [← List.cons_append, ← List.append_assoc, hsplit] at hrun

theorem length_run_le_append (m : Mode) (bytes tail : List UInt8) :
    (run m bytes).length ≤ (run m (bytes ++ tail)).length := by
  induction bytes using run_induction m with
  | nil => simp
  | legacy p bytes ih => simpa using ih
  | rex x bytes hm => simp [run_rex hm]
  | other b bytes hb => simp [run_other hb]

end X86Layout.Prefix
