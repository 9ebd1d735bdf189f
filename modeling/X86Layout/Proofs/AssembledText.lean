import X86Layout.Decoder.Text
import X86Layout.Proofs.FirstStatement

namespace X86Layout.Decoder
open Assembly

/-- What is said of a text without a statement. -/
def TextRun.silent : TextRun := ⟨[], .error (.assemble .empty)⟩

/-- What comes of the assembler's answer to a statement. -/
def report (d : Decoder) (statement : String) : Except AssembleError (List UInt8) → TextRun
  | .error e => ⟨[rejectedEvent statement e], .error (.assemble e)⟩
  | .ok bytes =>
    ⟨assembledEvent statement bytes :: (d.run bytes).log, (d.decode bytes).mapError .decode⟩

section Effects

variable {m : Type → Type} [Monad m] {d : Decoder} {text : String}

theorem runText_of_empty (h : firstStatement text = "") (assemble : Assembler m) :
    d.runText assemble text = pure TextRun.silent := by
  simp only [runText, h, ↓reduceIte]
  rfl

/-- The one effect is that of one call. -/
theorem runText_of_statement [LawfulMonad m] (h : firstStatement text ≠ "")
    (assemble : Assembler m) :
    d.runText assemble text =
      d.report (firstStatement text) <$> assemble (firstStatement text) d.mode := by
  simp only [runText, if_neg h, map_eq_pure_bind]
  apply bind_congr
  intro answer
  cases answer <;> rfl

theorem runText_congr {text' : String} (h : firstStatement text' = firstStatement text)
    (assemble : Assembler m) : d.runText assemble text' = d.runText assemble text := by
  simp only [runText, h]

end Effects

section Report

variable {d : Decoder} {statement : String} {answer : Except AssembleError (List UInt8)}

theorem report_result_of_error {bytes : List UInt8} {e : DecodeError}
    (h : d.decode bytes = .error e) :
    (d.report statement (.ok bytes)).result = .error (.decode e) := by
  change (d.decode bytes).mapError _ = _
  rw [h]
  rfl

theorem report_result_of_ok {bytes : List UInt8} {i : Instruction} (h : d.decode bytes = .ok i) :
    (d.report statement (.ok bytes)).result = .ok i := by
  change (d.decode bytes).mapError _ = _
  rw [h]
  rfl

theorem report_result_eq_assemble {e : AssembleError} :
    (d.report statement answer).result = .error (.assemble e) ↔ answer = .error e := by
  cases answer with
  | error e' => simp [report]
  | ok bytes =>
    cases h : d.decode bytes with
    | error e' => simp [report_result_of_error h]
    | ok i => simp [report_result_of_ok h]

theorem report_result_eq_decode {e : DecodeError} :
    (d.report statement answer).result = .error (.decode e) ↔
      ∃ bytes, answer = .ok bytes ∧ d.decode bytes = .error e := by
  cases answer with
  | error e' => simp [report]
  | ok bytes =>
    cases h : d.decode bytes with
    | error e' => simp [report_result_of_error h, h]
    | ok i => simp [report_result_of_ok h, h]

theorem report_result_eq_ok {i : Instruction} :
    (d.report statement answer).result = .ok i ↔
      ∃ bytes, answer = .ok bytes ∧ d.decode bytes = .ok i := by
  cases answer with
  | error e' => simp [report]
  | ok bytes =>
    cases h : d.decode bytes with
    | error e' => simp [report_result_of_error h, h]
    | ok i' => simp [report_result_of_ok h, h]

end Report

/-- One run of a text with an assembler whose calls are recorded. The assembler answers from a state
of its own, which it may change. -/
def runRecorded {σ : Type} (d : Decoder) (assemble : Assembler (StateM σ)) (text : String) (s : σ) :
    (TextRun × List Call) × σ :=
  ((d.runText assemble.recording text).run []).run s

variable {σ : Type} {d : Decoder} {assemble : Assembler (StateM σ)} {text : String} {s : σ}

theorem runRecorded_of_empty (h : firstStatement text = "") :
    d.runRecorded assemble text s = ((TextRun.silent, []), s) := by
  rw [runRecorded, runText_of_empty h]
  rfl

theorem runRecorded_of_statement (h : firstStatement text ≠ "") :
    d.runRecorded assemble text s =
      ((d.report (firstStatement text) ((assemble (firstStatement text) d.mode).run s).1,
        [⟨firstStatement text, d.mode⟩]), ((assemble (firstStatement text) d.mode).run s).2) := by
  rw [runRecorded, runText_of_statement h]
  rfl

/-- A text is decoded by one call of the assembler, on its first statement and in the decoder's
mode, and without a statement by none. Errors of the assembler are handed on as they are, errors of
the decoder as such, and what the decoder makes of the bytes is the result. Nothing else of the text
matters, and without a map of one's own it is the primary map that decodes. -/
theorem runText_calls_assembler_once {σ : Type} (d : Decoder) (assemble : Assembler (StateM σ))
    (text : String) (s : σ) :
    (firstStatement text = "" →
        d.runRecorded assemble text s = ((⟨[], .error (.assemble .empty)⟩, []), s)) ∧
      (firstStatement text ≠ "" →
        ∀ answer s', (assemble (firstStatement text) d.mode).run s = (answer, s') →
          ∃ out, d.runRecorded assemble text s =
              ((out, [⟨firstStatement text, d.mode⟩]), s') ∧
            (∀ e, out.result = .error (.assemble e) ↔ answer = .error e) ∧
            (∀ e, out.result = .error (.decode e) ↔
              ∃ bytes, answer = .ok bytes ∧ d.decode bytes = .error e) ∧
            ∀ i, out.result = .ok i ↔ ∃ bytes, answer = .ok bytes ∧ d.decode bytes = .ok i) ∧
      (∀ text' body, Spells text.toList body → Spells text'.toList body →
        d.runRecorded assemble text' s = d.runRecorded assemble text s) ∧
      ∀ mode, runTextIn mode assemble.recording text =
        (Decoder.mk mode .primary).runText assemble.recording text := by
  refine ⟨?_, ?_, ?_, fun _ => rfl⟩
  · intro h
    exact runRecorded_of_empty h
  · intro h answer s' hanswer
    refine ⟨d.report (firstStatement text) answer, ?_, fun _ => report_result_eq_assemble,
      fun _ => report_result_eq_decode, fun _ => report_result_eq_ok⟩
    rw [runRecorded_of_statement h, hanswer]
  · intro text' body hspells hspells'
    have hsame : firstStatement text' = firstStatement text := by
      rw [firstStatement_of_spells hspells, firstStatement_of_spells hspells']
    rw [runRecorded, runText_congr hsame, runRecorded]

/-- Knows one statement and counts how often it is asked. -/
def counting : Assembler (StateM Nat) := fun statement _ => do
  modify (· + 1)
  return if statement = "nop" then .ok [0x90] else .error (.rejected statement "unknown")

theorem runText_calls_assembler_once_nop :
    (ofMode .bits16).runRecorded counting " ; nop" 0 = ((⟨[], .error (.assemble .empty)⟩, []), 0) ∧
      (∃ out i, (ofMode .bits16).runRecorded counting "  nop ; ret" 0 =
          ((out, [⟨"nop", .bits16⟩]), 1) ∧
        (ofMode .bits16).decode [0x90] = .ok i ∧ out.result = .ok i) ∧
      (ofMode .bits16).runRecorded counting "nop\t;hlt" 0 =
        (ofMode .bits16).runRecorded counting "  nop ; ret" 0 := by
  obtain ⟨hempty, _⟩ := runText_calls_assembler_once (ofMode .bits16) counting " ; nop" 0
  obtain ⟨_, hstatement, hspells, _⟩ :=
    runText_calls_assembler_once (ofMode .bits16) counting "  nop ; ret" 0
  refine ⟨hempty rfl, ?_, ?_⟩
  · obtain ⟨out, hrun, _, _, hok⟩ := hstatement (by decide) _ _ rfl
    exact ⟨out, _, hrun, rfl, (hok _).mpr ⟨[0x90], rfl, rfl⟩⟩
  · apply hspells _ "nop".toList
    · exact ⟨[' ', ' '], [' '], "; ret".toList, rfl, by decide, by decide, by decide, .inr rfl⟩
    · exact ⟨[], ['\t'], ";hlt".toList, rfl, by decide, by decide, by decide, .inr rfl⟩

end X86Layout.Decoder
