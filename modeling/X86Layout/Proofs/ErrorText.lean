import X86Layout.Assembly.Error

namespace X86Layout

namespace Text

/-- A spelling that tells where it ends: it can be cut off the front of any text. -/
def SelfDelimiting {α : Type} (spell : α → String) : Prop :=
  ∀ ⦃a b : α⦄ ⦃s t : String⦄, spell a ++ s = spell b ++ t → a = b ∧ s = t

variable {α : Type} {spell : α → String}

theorem SelfDelimiting.of_length (hlength : ∀ a b, (spell a).length = (spell b).length)
    (hinj : ∀ a b, spell a = spell b → a = b) : SelfDelimiting spell := by
  intro a b s t h
  have hlist : (spell a).toList ++ s.toList = (spell b).toList ++ t.toList := by
    rw [← String.toList_append, h, String.toList_append]
  obtain ⟨hspell, hrest⟩ := List.append_inj hlist (hlength a b)
  exact ⟨hinj a b (String.toList_inj.mp hspell), String.toList_inj.mp hrest⟩

/-- Where no two spellings start with the same letter, the first letter tells all. -/
theorem SelfDelimiting.of_initial (hsome : ∀ a, ∃ c, (spell a).toList.head? = some c)
    (hinj : ∀ a b, (spell a).toList.head? = (spell b).toList.head? → a = b) :
    SelfDelimiting spell := by
  have hhead : ∀ a s, (spell a ++ s).toList.head? = (spell a).toList.head? := by
    intro a s
    obtain ⟨c, hc⟩ := hsome a
    rw [String.toList_append, List.head?_append, hc]
    rfl
  intro a b s t h
  have heq : a = b := hinj a b (by rw [← hhead a s, h, hhead])
  subst heq
  exact ⟨rfl, (String.append_right_inj _).mp h⟩

theorem selfDelimiting_hexByte : SelfDelimiting hexByte :=
  .of_length (by simp [hexByte]) fun _ _ => hexByte_injective

end Text

theorem Field.selfDelimiting_name : Text.SelfDelimiting Field.name := by
  apply Text.SelfDelimiting.of_initial
  · intro f
    cases f <;> exact ⟨_, rfl⟩
  · intro f g
    cases f <;> cases g <;> decide

theorem Mode.bitness_injective {m m' : Mode} (h : m.bitness = m'.bitness) : m = m' :=
  Option.some.inj ((ofBitness?_eq_some_iff.mpr h).symm.trans (ofBitness?_eq_some_iff.mpr rfl))

theorem Mode.description_injective {m m' : Mode} (h : m.description = m'.description) : m = m' :=
  bitness_injective (Text.decimal_injective ((String.append_left_inj _).mp h))

namespace DecodeError

/-- What went wrong, without the particulars. -/
inductive Kind where
  | truncated
  | unsupported
  | modeIncompatible
  | invalidMode
  deriving DecidableEq

def kind : DecodeError → Kind
  | truncated _ _ => .truncated
  | unsupported _ => .unsupported
  | modeIncompatible _ _ => .modeIncompatible
  | invalidMode _ => .invalidMode

/-- The words that every message of a kind starts with. -/
def Kind.lead : Kind → String
  | truncated => "truncated instruction: "
  | unsupported => "unsupported opcode 0x"
  | modeIncompatible => "opcode 0x"
  | invalidMode => "invalid operating mode: "

def bitnessText : Nat → String
  | 0 => "not a bitness"
  | n => Text.decimal n ++ "-bit"

/-- The rest of a message, which spells the particulars. -/
def particulars : DecodeError → String
  | truncated field offset => field.name ++ (" missing at byte offset " ++ Text.decimal offset)
  | unsupported opcode => Text.hexByte opcode
  | modeIncompatible opcode mode =>
    Text.hexByte opcode ++ (" is not valid in " ++ mode.description)
  | invalidMode bitness => bitnessText bitness

theorem message_eq (e : DecodeError) : e.message = e.kind.lead ++ e.particulars := by
  -- `unfold` and not `simp`: an equation per case would have the literals evaluated
  cases e with
  | truncated field offset =>
    unfold message kind Kind.lead particulars
    simp only [String.append_assoc]
  | unsupported opcode =>
    unfold message kind Kind.lead particulars
    rfl
  | modeIncompatible opcode mode =>
    unfold message kind Kind.lead particulars
    simp only [String.append_assoc]
  | invalidMode bitness =>
    unfold message kind Kind.lead particulars bitnessText
    cases bitness with
    | zero => rfl
    | succ n => simp only [String.append_assoc]

theorem Kind.selfDelimiting_lead : Text.SelfDelimiting Kind.lead := by
  apply Text.SelfDelimiting.of_initial
  · intro k
    cases k <;> exact ⟨_, rfl⟩
  · intro k k'
    cases k <;> cases k' <;> decide

/-- The text for no number at all ends with another letter than a number with its unit. -/
theorem bitnessText_succ_ne (n : Nat) : bitnessText (n + 1) ≠ bitnessText 0 := by
  intro h
  have hlast := congrArg (·.toList.getLast?) h
  simp [bitnessText] at hlast

theorem bitnessText_injective {m n : Nat} (h : bitnessText m = bitnessText n) : m = n := by
  cases m with
  | zero =>
    cases n with
    | zero => rfl
    | succ n => exact absurd h.symm (bitnessText_succ_ne n)
  | succ m =>
    cases n with
    | zero => exact absurd h (bitnessText_succ_ne m)
    | succ n => exact Text.decimal_injective ((String.append_left_inj _).mp h)

/-- Among errors of one kind the particulars are told in full. -/
theorem eq_of_particulars_eq {e e' : DecodeError} (hkind : e.kind = e'.kind)
    (h : e.particulars = e'.particulars) : e = e' := by
  cases e with
  | truncated field offset =>
    cases e' <;> cases hkind
    obtain ⟨rfl, hrest⟩ := Field.selfDelimiting_name h
    rw [Text.decimal_injective ((String.append_right_inj _).mp hrest)]
  | unsupported opcode =>
    cases e' <;> cases hkind
    rw [Text.hexByte_injective h]
  | modeIncompatible opcode mode =>
    cases e' <;> cases hkind
    obtain ⟨rfl, hrest⟩ := Text.selfDelimiting_hexByte h
    rw [Mode.description_injective ((String.append_right_inj _).mp hrest)]
  | invalidMode bitness =>
    cases e' <;> cases hkind
    rw [bitnessText_injective h]

theorem message_injective {e e' : DecodeError} (h : e.message = e'.message) : e = e' := by
  rw [message_eq, message_eq] at h
  obtain ⟨hkind, hparticulars⟩ := Kind.selfDelimiting_lead h
  exact eq_of_particulars_eq hkind hparticulars

end DecodeError

namespace Assembly.TextError

theorem message_rejected (statement reason : String) :
    (assemble (.rejected statement reason)).message =
      "failed to assemble `" ++ statement ++ "`: " ++ reason := rfl

theorem message_decode (e : DecodeError) :
    (decode e).message = "assembled bytes could not be decoded: " ++ e.message := rfl

/-- The first letter tells whether a decode error is the cause, whatever texts the assembler put
into its own message. -/
theorem head_message (t : TextError) :
    t.message.toList.head? = some 'a' ↔ t.cause.isSome = true := by
  cases t with
  | assemble a =>
    cases a with
    | empty => decide
    | rejected statement reason => simp [message_rejected, cause]
  | decode e => simp [message_decode, cause]

theorem cause_eq_of_message_eq {t t' : TextError} (h : t.message = t'.message) :
    t.cause = t'.cause := by
  have hsome : t.cause.isSome = true ↔ t'.cause.isSome = true := by
    rw [← head_message, h, head_message]
  cases t with
  | assemble a =>
    cases t' with
    | assemble a' => rfl
    | decode e' => simp [cause] at hsome
  | decode e =>
    cases t' with
    | assemble a' => simp [cause] at hsome
    | decode e' =>
      rw [message_decode, message_decode, String.append_right_inj] at h
      rw [DecodeError.message_injective h]

/-- Decode errors with the same text are the same error, on their own or as the cause of another,
and no error of an assembler has the text of a decode error, whatever it quotes. -/
theorem message_tells_error :
    (∀ e e' : DecodeError, e.message = e'.message ↔ e = e') ∧
    (∀ e e' : DecodeError, (decode e).message = (decode e').message ↔ decode e = decode e') ∧
    ∀ (a : AssembleError) (e : DecodeError), (assemble a).message ≠ (decode e).message := by
  refine ⟨?_, ?_, ?_⟩
  · intro e e'
    exact ⟨DecodeError.message_injective, congrArg _⟩
  · intro e e'
    refine ⟨fun h => ?_, congrArg _⟩
    rw [Option.some.inj (cause_eq_of_message_eq h)]
  · intro a e h
    cases cause_eq_of_message_eq h

end Assembly.TextError

end X86Layout
