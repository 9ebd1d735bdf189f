import Mathlib.Algebra.Group.Nat.Defs
import X86Layout.Mode.Name
import X86Layout.Proofs.Trimming

namespace X86Layout

namespace Text

/-- One ASCII digit or more, and nothing else. -/
def IsNumeral (cs : List Char) : Prop := cs ≠ [] ∧ ∀ c ∈ cs, c.isDigit = true

/-- Each digit counts for itself times the power of ten of its place. -/
def placeValue : List Char → Nat
  | [] => 0
  | c :: cs => (c.toNat - '0'.toNat) * 10 ^ cs.length + placeValue cs

theorem ofDigitChars_eq_placeValue (cs : List Char) : Nat.ofDigitChars 10 cs 0 = placeValue cs := by
  induction cs with
  | nil => rfl
  | cons c cs ih =>
    rw [Nat.ofDigitChars_cons, Nat.ofDigitChars_eq_ofDigitChars_zero, ih, placeValue, Nat.mul_zero,
      Nat.zero_add, Nat.mul_comm]

theorem decimalValue?_eq_some_iff {cs : List Char} {n : Nat} :
    decimalValue? cs = some n ↔ IsNumeral cs ∧ placeValue cs = n := by
  simp [decimalValue?, IsNumeral, ofDigitChars_eq_placeValue]

theorem isNumeral_toDigits (n : Nat) : IsNumeral (Nat.toDigits 10 n) :=
  ⟨Nat.toDigits_ne_nil, fun _ => Nat.isDigit_of_mem_toDigits (by decide) (by decide)⟩

theorem toDigits_of_isDigit {c : Char} (h : c.isDigit = true) :
    c.toNat - '0'.toNat < 10 ∧ Nat.toDigits 10 (c.toNat - '0'.toNat) = [c] := by
  have hrange : 48 ≤ c.toNat ∧ c.toNat ≤ 57 := by
    simpa [Char.isDigit, UInt32.le_iff_toNat_le] using h
  have hlt : c.toNat - '0'.toNat < 10 := by
    change c.toNat - 48 < 10
    omega
  refine ⟨hlt, ?_⟩
  rw [Nat.toDigits_of_lt_base hlt, List.cons.injEq]
  refine ⟨Char.toNat_inj.mp ?_, rfl⟩
  rw [Nat.toNat_digitChar_of_lt_ten hlt]
  change 48 + (c.toNat - 48) = c.toNat
  omega

/-- Behind a number that is not zero every digit is one more place of its spelling. -/
theorem toDigits_append_digits {cs : List Char} (h : ∀ c ∈ cs, c.isDigit = true) {n : Nat}
    (hn : 0 < n) : Nat.toDigits 10 n ++ cs = Nat.toDigits 10 (Nat.ofDigitChars 10 cs n) := by
  induction cs generalizing n with
  | nil => simp
  | cons c cs ih =>
    obtain ⟨hlt, hdigit⟩ := toDigits_of_isDigit (h c List.mem_cons_self)
    have hnext : Nat.toDigits 10 n ++ [c] = Nat.toDigits 10 (10 * n + (c.toNat - '0'.toNat)) := by
      rw [← hdigit]
      exact Nat.toDigits_append_toDigits (by decide) hn hlt
    rw [Nat.ofDigitChars_cons, ← ih (fun d hd => h d (List.mem_cons_of_mem c hd)) (by omega),
      ← hnext, List.append_assoc]
    rfl

/-- A numeral is zeros and then the shortest spelling of its value. -/
theorem exists_zeros_append_toDigits {cs : List Char} (h : IsNumeral cs) :
    ∃ zeros, cs = List.replicate zeros '0' ++ Nat.toDigits 10 (Nat.ofDigitChars 10 cs 0) := by
  obtain ⟨hne, hdigits⟩ := h
  induction cs with
  | nil => exact absurd rfl hne
  | cons c cs ih =>
    have htail : ∀ d ∈ cs, d.isDigit = true := fun d hd => hdigits d (List.mem_cons_of_mem c hd)
    obtain ⟨hlt, hdigit⟩ := toDigits_of_isDigit (hdigits c List.mem_cons_self)
    rw [Nat.ofDigitChars_cons, Nat.mul_zero, Nat.zero_add]
    by_cases hzero : c.toNat - '0'.toNat = 0
    · rw [hzero] at hdigit ⊢
      obtain rfl : '0' = c := by simpa using hdigit
      by_cases hnil : cs = []
      · exact ⟨0, by simp [hnil]⟩
      · obtain ⟨zeros, hzeros⟩ := ih hnil htail
        exact ⟨zeros + 1, by rw [List.replicate_succ, List.cons_append, ← hzeros]⟩
    · refine ⟨0, ?_⟩
      rw [← toDigits_append_digits htail (Nat.pos_of_ne_zero hzero), hdigit]
      rfl

theorem decimalValue?_eq_some_iff_zeros {cs : List Char} {n : Nat} :
    decimalValue? cs = some n ↔ ∃ zeros, cs = List.replicate zeros '0' ++ Nat.toDigits 10 n := by
  rw [decimalValue?_eq_some_iff, ← ofDigitChars_eq_placeValue]
  constructor
  · intro h
    obtain ⟨hnumeral, rfl⟩ := h
    exact exists_zeros_append_toDigits hnumeral
  · intro h
    obtain ⟨zeros, rfl⟩ := h
    refine ⟨⟨?_, ?_⟩, ?_⟩
    · simp
    · intro c hc
      rcases List.mem_append.mp hc with hz | hd
      · rw [List.eq_of_mem_replicate hz]
        rfl
      · exact (isNumeral_toDigits n).2 c hd
    · rw [Nat.ofDigitChars_append, Nat.ofDigitChars_replicate_zero, Nat.mul_zero,
        Nat.ofDigitChars_ten_toDigits]

theorem isSuffixOf?_eq_none {tail cs : List Char} (h : ∀ front, front ++ tail ≠ cs) :
    tail.isSuffixOf? cs = none := by
  cases hfront : tail.isSuffixOf? cs with
  | none => rfl
  | some front => exact absurd (List.append_eq_of_isSuffixOf?_eq_some hfront) (h front)

end Text

namespace Mode

def signs : List String := ["", "+"]

def units : List String := ["", "bit", "-bit"]

/-- Without the blanks at its ends the text is these digits, with a sign before them and a unit
behind them. Both may be missing. -/
def Spelled (text digits : List Char) : Prop :=
  ∃ sign ∈ signs, ∃ unit ∈ units, ∃ core, core = sign.toList ++ digits ++ unit.toList ∧
    Text.Surrounds text core ∧ Text.Trimmed core

/-- The text spells the bitness of this mode, with any number of zeros before it. -/
def Names (text : List Char) (m : Mode) : Prop :=
  ∃ zeros, Spelled text (List.replicate zeros '0' ++ (Text.decimal m.bitness).toList)

/-- The text spells a number that fits 32 bits and is not zero, but no mode has it. -/
def Misnames (text : List Char) (n : Nat) : Prop :=
  0 < n ∧ n < 2 ^ 32 ∧ n ∉ [16, 32, 64] ∧
    ∃ digits, Spelled text digits ∧ Text.IsNumeral digits ∧ Text.placeValue digits = n

theorem dropSign_append {sign : String} (h : sign ∈ signs) {digits : List Char}
    (hdigits : Text.IsNumeral digits) : dropSign (sign.toList ++ digits) = digits := by
  obtain ⟨hne, hall⟩ := hdigits
  simp only [signs, List.mem_cons, List.not_mem_nil, or_false] at h
  rcases h with rfl | rfl
  · cases digits with
    | nil => exact absurd rfl hne
    | cons c cs =>
      have hplus : c ≠ '+' := by
        rintro rfl
        exact absurd (hall '+' List.mem_cons_self) (by decide)
      change dropSign (c :: cs) = c :: cs
      unfold dropSign
      split
      · rename_i heq
        exact absurd (List.cons.inj heq).1 hplus
      · rfl
  · rfl

theorem exists_sign_append_dropSign (cs : List Char) :
    ∃ sign ∈ signs, cs = sign.toList ++ dropSign cs := by
  unfold dropSign
  split
  · exact ⟨"+", by simp [signs], rfl⟩
  · exact ⟨"", by simp [signs], rfl⟩

/-- A unit is not taken for a longer one: before it stands a digit and not a hyphen. -/
theorem dropUnit_append {unit : String} (h : unit ∈ units) {front : List Char} {d : Char}
    (hlast : front.getLast? = some d) (hd : d.isDigit = true) :
    dropUnit (front ++ unit.toList) = front := by
  have hend : ∀ (cs : List Char) (c : Char), c.isDigit = false → front ≠ cs ++ [c] := by
    rintro cs c hc rfl
    obtain rfl : c = d := by simpa using hlast
    rw [hc] at hd
    cases hd
  simp only [units, List.mem_cons, List.not_mem_nil, or_false] at h
  unfold dropUnit
  rcases h with rfl | rfl | rfl
  · rw [Text.isSuffixOf?_eq_none, Text.isSuffixOf?_eq_none]
    · simp
    · intro cs hcs
      exact hend (cs ++ ['b', 'i']) 't' rfl (by simpa using hcs.symm)
    · intro cs hcs
      exact hend (cs ++ ['-', 'b', 'i']) 't' rfl (by simpa using hcs.symm)
  · rw [Text.isSuffixOf?_eq_none, List.isSuffixOf?_eq_some_iff_append_eq.mpr rfl]
    · rfl
    · intro cs hcs
      have hsplit : front ++ "bit".toList = (cs ++ ['-']) ++ "bit".toList := by
        rw [← hcs, List.append_assoc]
        rfl
      exact hend cs '-' rfl (List.append_cancel_right hsplit)
  · rw [List.isSuffixOf?_eq_some_iff_append_eq.mpr rfl]
    rfl

theorem exists_dropUnit_append_unit (cs : List Char) :
    ∃ unit ∈ units, cs = dropUnit cs ++ unit.toList := by
  unfold dropUnit
  cases hlong : "-bit".toList.isSuffixOf? cs with
  | some front =>
    exact ⟨"-bit", by simp [units], (List.append_eq_of_isSuffixOf?_eq_some hlong).symm⟩
  | none =>
    cases hshort : "bit".toList.isSuffixOf? cs with
    | some front =>
      exact ⟨"bit", by simp [units], (List.append_eq_of_isSuffixOf?_eq_some hshort).symm⟩
    | none => exact ⟨"", by simp [units], by simp⟩

/-- The digits that are left of a text are those it spells, if what is left is a numeral. -/
theorem dropSign_dropUnit_trim_eq_iff {text digits : List Char} (h : Text.IsNumeral digits) :
    dropSign (dropUnit (Text.trim text)) = digits ↔ Spelled text digits := by
  constructor
  · rintro rfl
    obtain ⟨unit, hunit, hcore⟩ := exists_dropUnit_append_unit (Text.trim text)
    obtain ⟨sign, hsign, hfront⟩ := exists_sign_append_dropSign (dropUnit (Text.trim text))
    refine ⟨sign, hsign, unit, hunit, Text.trim text, ?_, Text.trim_eq_iff.mp rfl⟩
    rw [← hfront]
    exact hcore
  · intro hspelled
    obtain ⟨sign, hsign, unit, hunit, core, rfl, hcore⟩ := hspelled
    obtain ⟨d, hlast⟩ := Option.isSome_iff_exists.mp (List.getLast?_isSome.mpr h.1)
    have hfront : (sign.toList ++ digits).getLast? = some d := by
      rw [List.getLast?_append, hlast]
      rfl
    rw [Text.trim_eq_iff.mpr hcore,
      dropUnit_append hunit hfront (h.2 d (List.mem_of_getLast? hlast)), dropSign_append hsign h]

theorem bitnessOfText?_eq_some_iff {text : List Char} {n : Nat} :
    bitnessOfText? text = some n ↔
      n < 2 ^ 32 ∧ ∃ digits, Spelled text digits ∧ Text.decimalValue? digits = some n := by
  have hnumeral : ∀ digits, Text.decimalValue? digits = some n → Text.IsNumeral digits :=
    fun digits h => (Text.decimalValue?_eq_some_iff.mp h).1
  rw [bitnessOfText?, Option.filter_eq_some_iff]
  constructor
  · intro h
    obtain ⟨hvalue, hlt⟩ := h
    refine ⟨by simpa [UInt32.size] using hlt, _, ?_, hvalue⟩
    exact (dropSign_dropUnit_trim_eq_iff (hnumeral _ hvalue)).mp rfl
  · intro h
    obtain ⟨hlt, digits, hspelled, hvalue⟩ := h
    rw [(dropSign_dropUnit_trim_eq_iff (hnumeral _ hvalue)).mpr hspelled]
    exact ⟨hvalue, by simpa [UInt32.size] using hlt⟩

theorem bitness_pos (m : Mode) : 0 < m.bitness := by cases m <;> decide

theorem mem_bitnesses_iff {n : Nat} : n ∈ [16, 32, 64] ↔ ∃ m : Mode, m.bitness = n := by
  constructor
  · intro h
    simp only [List.mem_cons, List.not_mem_nil, or_false] at h
    rcases h with rfl | rfl | rfl
    · exact ⟨bits16, rfl⟩
    · exact ⟨bits32, rfl⟩
    · exact ⟨bits64, rfl⟩
  · intro h
    obtain ⟨m, rfl⟩ := h
    cases m <;> decide

theorem ofBitness_eq_ok_iff {n : Nat} {m : Mode} : ofBitness n = .ok m ↔ m.bitness = n := by
  rw [← ofBitness?_eq_some_iff, ofBitness]
  cases ofBitness? n <;> simp

theorem ofBitness_eq_error_iff {n : Nat} {e : DecodeError} :
    ofBitness n = .error e ↔ e = .invalidMode n ∧ n ∉ [16, 32, 64] := by
  simp only [mem_bitnesses_iff, ← ofBitness?_eq_some_iff, ofBitness]
  cases ofBitness? n <;> simp [eq_comm]

theorem names_iff {text : List Char} {m : Mode} :
    Names text m ↔ bitnessOfText? text = some m.bitness := by
  have hlt : m.bitness < 2 ^ 32 := by cases m <;> decide
  simp only [bitnessOfText?_eq_some_iff, Text.decimalValue?_eq_some_iff_zeros, Names, hlt, true_and,
    Text.decimal, String.toList_ofList]
  constructor
  · intro hnames
    obtain ⟨zeros, h⟩ := hnames
    exact ⟨_, h, zeros, rfl⟩
  · intro hnames
    obtain ⟨_, h, zeros, rfl⟩ := hnames
    exact ⟨zeros, h⟩

theorem misnames_iff {text : List Char} {n : Nat} :
    Misnames text n ↔ bitnessOfText? text = some n ∧ 0 < n ∧ n ∉ [16, 32, 64] := by
  simp only [Misnames, bitnessOfText?_eq_some_iff, Text.decimalValue?_eq_some_iff]
  constructor
  · intro h
    obtain ⟨hpos, hlt, hmode, hspelled⟩ := h
    exact ⟨⟨hlt, hspelled⟩, hpos, hmode⟩
  · intro h
    obtain ⟨⟨hlt, hspelled⟩, hpos, hmode⟩ := h
    exact ⟨hpos, hlt, hmode, hspelled⟩

theorem getD_zero_eq_iff {o : Option Nat} {n : Nat} (hn : 0 < n) : o.getD 0 = n ↔ o = some n := by
  cases o with
  | none => simp [Nat.ne_of_lt hn]
  | some k => simp

/-- No number is left of a text that spells neither the bitness of a mode nor any other. -/
theorem getD_bitnessOfText?_eq_zero_iff {text : List Char} :
    (bitnessOfText? text).getD 0 = 0 ↔ (¬ ∃ m, Names text m) ∧ ¬ ∃ n, Misnames text n := by
  simp only [names_iff, misnames_iff]
  constructor
  · intro hzero
    refine ⟨?_, ?_⟩
    · intro h
      obtain ⟨m, hm⟩ := h
      rw [hm] at hzero
      exact Nat.ne_of_gt m.bitness_pos hzero
    · intro h
      obtain ⟨n, hn, hpos, _⟩ := h
      rw [hn] at hzero
      exact Nat.ne_of_gt hpos hzero
  · intro h
    obtain ⟨hnames, hmisnames⟩ := h
    cases hvalue : bitnessOfText? text with
    | none => rfl
    | some n =>
      rcases Nat.eq_zero_or_pos n with rfl | hpos
      · rfl
      · by_cases hmode : n ∈ [16, 32, 64]
        · obtain ⟨m, rfl⟩ := mem_bitnesses_iff.mp hmode
          exact absurd ⟨m, hvalue⟩ hnames
        · exact absurd ⟨n, hvalue, hpos, hmode⟩ hmisnames

theorem ofText_eq_ok_iff {s : String} {m : Mode} : ofText s = .ok m ↔ Names s.toList m := by
  rw [ofText, ofBitness_eq_ok_iff, names_iff, eq_comm, getD_zero_eq_iff m.bitness_pos]

/-- A text is read as a mode exactly if it spells the bitness of that mode. It is refused by its
number exactly if it spells another one that fits 32 bits and is not zero, and in every other case
as no number at all. -/
theorem ofText_follows_grammar (s : String) :
    (∀ m, ofText s = .ok m ↔ Names s.toList m) ∧
      (∀ n, ofText s = .error (.invalidMode n) ∧ 0 < n ↔ Misnames s.toList n) ∧
      (ofText s = .error (.invalidMode 0) ↔
        (¬ ∃ m, Names s.toList m) ∧ ¬ ∃ n, Misnames s.toList n) := by
  refine ⟨fun _ => ofText_eq_ok_iff, ?_⟩
  rw [← getD_bitnessOfText?_eq_zero_iff]
  simp only [ofText, ofBitness_eq_error_iff, misnames_iff, DecodeError.invalidMode.injEq]
  refine ⟨?_, ?_⟩
  · intro n
    constructor
    · intro h
      obtain ⟨⟨rfl, hmode⟩, hpos⟩ := h
      exact ⟨(getD_zero_eq_iff hpos).mp rfl, hpos, hmode⟩
    · intro h
      obtain ⟨hsome, hpos, hmode⟩ := h
      rw [hsome]
      exact ⟨⟨rfl, hmode⟩, hpos⟩
  · constructor
    · intro h
      obtain ⟨hzero, _⟩ := h
      exact hzero.symm
    · intro hzero
      rw [hzero]
      exact ⟨rfl, by decide⟩

-- sign, zeros and unit may all be there, but none of them twice and no blank between them
example : ofText "\t+0016-bit\u3000" = .ok .bits16 ∧ ofText "128bit" = .error (.invalidMode 128) ∧
    ["16bitbit", "32 bit", "-64", "++64", "+", "bit", "00", "4294967328"].map ofText =
      List.replicate 8 (.error (.invalidMode 0)) :=
  ⟨rfl, rfl, rfl⟩

end Mode

namespace ModeName

/-- The name stands for this mode: it is the bitness of the mode, or a text that spells it. -/
def Means : ModeName → Mode → Prop
  | bitness n, m => m.bitness = n
  | text s, m => Mode.Names s.toList m

instance : DecidableRel Means
  | bitness n, m => inferInstanceAs (Decidable (m.bitness = n))
  | text _, _ => decidable_of_iff _ Mode.names_iff.symm

theorem resolve_eq_ok_iff {name : ModeName} {m : Mode} : name.resolve = .ok m ↔ name.Means m := by
  cases name with
  | bitness n => exact Mode.ofBitness_eq_ok_iff
  | text s => exact Mode.ofText_eq_ok_iff

end ModeName

end X86Layout
