namespace X86Layout.Text

def decimal (n : Nat) : String := String.ofList (Nat.toDigits 10 n)

/-- Two lowercase hexadecimal digits, the high half first. -/
def hexByte (b : UInt8) : String :=
  String.ofList [Nat.digitChar (b.toNat / 16), Nat.digitChar (b.toNat % 16)]

/-- The value of a nonempty run of ASCII digits; leading zeros are allowed. -/
def decimalValue? (cs : List Char) : Option Nat :=
  if !cs.isEmpty && cs.all Char.isDigit then some (Nat.ofDigitChars 10 cs 0) else none

theorem decimal_injective {m n : Nat} (h : decimal m = decimal n) : m = n := by
  have hd : Nat.toDigits 10 m = Nat.toDigits 10 n := String.ofList_injective h
  rw [← Nat.ofDigitChars_ten_toDigits (n := m), hd, Nat.ofDigitChars_ten_toDigits]

theorem digitChar_injective {m n : Nat} (hm : m < 16) (hn : n < 16)
    (h : Nat.digitChar m = Nat.digitChar n) : m = n := by
  have hall : ∀ i j : Fin 16, Nat.digitChar i = Nat.digitChar j → i = j := by decide
  exact congrArg Fin.val (hall ⟨m, hm⟩ ⟨n, hn⟩ h)

theorem hexByte_injective {a b : UInt8} (h : hexByte a = hexByte b) : a = b := by
  have hdigits := String.ofList_injective h
  simp only [List.cons.injEq, and_true] at hdigits
  have ha := a.toNat_lt
  have hb := b.toNat_lt
  have hhigh : a.toNat / 16 = b.toNat / 16 := digitChar_injective (by omega) (by omega) hdigits.1
  have hlow : a.toNat % 16 = b.toNat % 16 := digitChar_injective (by omega) (by omega) hdigits.2
  apply UInt8.toNat_inj.mp
  omega

end X86Layout.Text
