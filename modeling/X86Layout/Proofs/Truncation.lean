import X86Layout.Proofs.Failure
import X86Layout.Proofs.RoundTrip

namespace X86Layout

/-- The place of a field in an instruction. -/
def Field.rank : Field → Nat
  | opcode => 0
  | modrm => 1
  | sib => 2
  | displacement => 3
  | immediate => 4

/-- An opcode that the map or the mode turns down. -/
def DecodeError.IsRefusal : DecodeError → Prop
  | unsupported _ => True
  | modeIncompatible _ _ => True
  | _ => False

namespace Decoder

/-- The bytes end before the instruction does. -/
def RunsOut (d : Decoder) (bytes : List UInt8) : Prop :=
  ∃ field offset, d.decode bytes = .error (.truncated field offset)

variable {d : Decoder} {bytes : List UInt8}

theorem runLength_append (h : d.runLength bytes < bytes.length) (tail : List UInt8) :
    d.runLength (bytes ++ tail) = d.runLength bytes :=
  congrArg List.length (Prefix.run_append_of_lt h tail)

theorem runLength_le_append (d : Decoder) (bytes tail : List UInt8) :
    d.runLength bytes ≤ d.runLength (bytes ++ tail) :=
  Prefix.length_run_le_append d.mode bytes tail

theorem opcode_append {b : UInt8} (hb : bytes[d.runLength bytes]? = some b) (tail : List UInt8) :
    (bytes ++ tail)[d.runLength (bytes ++ tail)]? = some b := by
  obtain ⟨hlt, _⟩ := List.getElem?_eq_some_iff.mp hb
  rw [runLength_append hlt, List.getElem?_append_left hlt]
  exact hb

theorem entryAt?_append (h : d.runLength bytes < bytes.length) (tail : List UInt8) :
    d.entryAt? (bytes ++ tail) = d.entryAt? bytes := by
  simp only [entryAt?, runLength_append h, List.getElem?_append_left h]

theorem runLength_lt_of_start_le (h : d.start bytes .sib ≤ bytes.length) :
    d.runLength bytes < bytes.length := by
  simp only [start] at h
  omega

theorem modrm?_append (h : d.start bytes .sib ≤ bytes.length) (tail : List UInt8) :
    d.modrm? (bytes ++ tail) = d.modrm? bytes := by
  have hlt := runLength_lt_of_start_le h
  simp only [modrm?, entryAt?_append hlt, runLength_append hlt]
  split
  · rename_i hm
    have hin : d.runLength bytes + 1 < bytes.length := by
      simp only [start, width, hm, ↓reduceIte] at h
      omega
    rw [List.getElem?_append_left hin]
  · rfl

/-- All widths are settled once the ModRM byte is there, or once it is clear that there is none. -/
theorem width_append (h : d.start bytes .sib ≤ bytes.length) (tail : List UInt8) (field : Field) :
    d.width (bytes ++ tail) field = d.width bytes field := by
  have hlt := runLength_lt_of_start_le h
  have hrun : Prefix.run d.mode (bytes ++ tail) = Prefix.run d.mode bytes :=
    Prefix.run_append_of_lt hlt tail
  cases field <;> simp only [width, entryAt?_append hlt, modrm?_append h, hrun]

theorem start_append (h : d.start bytes .sib ≤ bytes.length) (tail : List UInt8) (field : Field) :
    d.start (bytes ++ tail) field = d.start bytes field := by
  have hlt := runLength_lt_of_start_le h
  cases field <;> simp only [start, runLength_append hlt, width_append h]

theorem start_add_width_le_start (d : Decoder) (bytes : List UInt8) {f g : Field}
    (h : f.rank < g.rank) : d.start bytes f + d.width bytes f ≤ d.start bytes g := by
  have hopcode : d.width bytes .opcode = 1 := rfl
  cases f <;> cases g <;> simp only [Field.rank] at h <;> simp only [start] <;> omega

theorem start_le_start (d : Decoder) (bytes : List UInt8) {f g : Field} (h : f.rank ≤ g.rank) :
    d.start bytes f ≤ d.start bytes g := by
  cases f <;> cases g <;> simp only [Field.rank] at h <;> simp only [start] <;> omega

/-- More bytes never move the cut back, neither in the bytes nor among the fields. -/
theorem cut_le_of_append {d : Decoder} {bytes tail : List UInt8} {f f' : Field} {o o' : Nat}
    (h : d.cut? bytes = some (f, o)) (h' : d.cut? (bytes ++ tail) = some (f', o')) :
    o ≤ o' ∧ f.rank ≤ f'.rank := by
  obtain ⟨rfl, hle, hlt⟩ := cut?_eq_some_iff.mp h
  obtain ⟨rfl, hle', hlt'⟩ := cut?_eq_some_iff.mp h'
  have hlen : bytes.length ≤ (bytes ++ tail).length := by simp
  by_cases hsib : d.start bytes .sib ≤ bytes.length
  · -- both cuts are cuts of one and the same layout
    rw [start_append hsib, width_append hsib] at hlt'
    rw [start_append hsib]
    have hrank : f.rank ≤ f'.rank := by
      by_cases hr : f'.rank < f.rank
      · have := d.start_add_width_le_start bytes hr
        omega
      · omega
    exact ⟨d.start_le_start bytes hrank, hrank⟩
  · -- the cut is at the opcode or at the ModRM byte, before which only the prefixes matter
    have hcases : f = .opcode ∨ f = .modrm := by
      cases f <;> simp only [start, reduceCtorEq, or_false, or_true] at hle hsib ⊢ <;> omega
    rcases hcases with rfl | rfl
    · have hmono := d.runLength_le_append bytes tail
      have hfirst := d.start_le_start (bytes ++ tail) (f := .opcode) (g := f') (Nat.zero_le _)
      exact ⟨Nat.le_trans hmono hfirst, Nat.zero_le _⟩
    · have hlt : d.runLength bytes < bytes.length := hle
      have hrun := runLength_append hlt tail
      have hrank : Field.modrm.rank ≤ f'.rank := by
        by_cases hf : f' = .opcode
        · subst hf
          simp only [start, width] at hle hlt'
          omega
        · cases f' <;> simp_all [Field.rank]
      have hfirst := d.start_le_start (bytes ++ tail) hrank
      refine ⟨?_, hrank⟩
      simp only [start] at hfirst ⊢
      omega

theorem refused_iff {e : DecodeError} (he : e.IsRefusal) :
    d.decode bytes = .error e ↔
      ∃ b, bytes[d.runLength bytes]? = some b ∧ d.resolve b = .error e := by
  constructor
  · intro h
    rcases decode_error_cases h with hr | ⟨field, offset, _, rfl⟩
    · exact hr
    · exact he.elim
  · intro h
    obtain ⟨b, hb, hr⟩ := h
    exact decode_of_refused hb hr

/-- A decode succeeds, turns the opcode down or runs out of bytes. -/
theorem decode_cases (d : Decoder) (bytes : List UInt8) :
    (∃ i, d.decode bytes = .ok i) ∨ (∃ e, e.IsRefusal ∧ d.decode bytes = .error e) ∨
      d.RunsOut bytes := by
  cases h : d.decode bytes with
  | ok i => exact .inl ⟨i, rfl⟩
  | error e =>
    rcases decode_error_cases h with ⟨b, _, hr⟩ | ⟨field, offset, _, rfl⟩
    · refine .inr (.inl ⟨e, ?_, rfl⟩)
      rcases resolve_error hr with ⟨rfl, _⟩ | ⟨rfl, _⟩ <;> trivial
    · exact .inr (.inr ⟨field, offset, h⟩)

theorem decode_append_of_refusal {e : DecodeError} (he : e.IsRefusal)
    (h : d.decode bytes = .error e) (tail : List UInt8) : d.decode (bytes ++ tail) = .error e := by
  obtain ⟨b, hb, hr⟩ := (refused_iff he).mp h
  exact decode_of_refused (opcode_append hb tail) hr

/-- A result that does not ask for more bytes is final. -/
theorem decode_append_of_not_runsOut (h : ¬ d.RunsOut bytes) (tail : List UInt8) :
    d.decode (bytes ++ tail) = d.decode bytes := by
  rcases d.decode_cases bytes with ⟨i, hi⟩ | ⟨e, he, hd⟩ | hout
  · rw [hi]
    exact decode_append_of_ok hi tail
  · rw [hd]
    exact decode_append_of_refusal he hd tail
  · exact False.elim (h hout)

theorem not_runsOut_of_ok {i : Instruction} (h : d.decode bytes = .ok i) : ¬ d.RunsOut bytes := by
  intro hout
  obtain ⟨field, offset, hd⟩ := hout
  rw [h] at hd
  cases hd

theorem not_runsOut_of_refusal {e : DecodeError} (he : e.IsRefusal)
    (h : d.decode bytes = .error e) : ¬ d.RunsOut bytes := by
  intro hout
  obtain ⟨field, offset, hd⟩ := hout
  rw [h] at hd
  cases hd
  exact he

/-- The first bytes of an instruction run out exactly as long as they are not the whole of it. -/
theorem runsOut_iff_of_ok {d : Decoder} {bytes tail : List UInt8} {i : Instruction}
    (h : d.decode (bytes ++ tail) = .ok i) : d.RunsOut bytes ↔ bytes.length < i.length := by
  constructor
  · intro hout
    by_cases hlt : bytes.length < i.length
    · exact hlt
    · have hfront : i.encode <+: bytes := by
        obtain ⟨_, hpre⟩ := decode_eq_ok_iff.mp h
        apply List.prefix_of_prefix_length_le hpre (List.prefix_append bytes tail)
        rw [← length_of_ok h]
        omega
      have hok := decode_eq_ok_iff.mpr ⟨(decode_eq_ok_iff.mp h).1, hfront⟩
      exact False.elim (not_runsOut_of_ok hok hout)
  · intro hlt
    by_cases hout : d.RunsOut bytes
    · exact hout
    · have hsame := decode_append_of_not_runsOut hout tail
      rw [h] at hsame
      have := length_le_of_ok hsame.symm
      omega

theorem runsOut_iff_of_refusal {d : Decoder} {bytes tail : List UInt8} {e : DecodeError}
    (he : e.IsRefusal) (h : d.decode (bytes ++ tail) = .error e) :
    d.RunsOut bytes ↔ bytes.length ≤ d.runLength (bytes ++ tail) := by
  constructor
  · intro hout
    by_cases hle : bytes.length ≤ d.runLength (bytes ++ tail)
    · exact hle
    · -- the opcode is among the first bytes, and they are refused as well
      have hmono := d.runLength_le_append bytes tail
      have hlt : d.runLength bytes < bytes.length := by omega
      obtain ⟨b, hb, hr⟩ := (refused_iff he).mp h
      rw [runLength_append hlt, List.getElem?_append_left hlt] at hb
      exact False.elim (not_runsOut_of_refusal he (decode_of_refused hb hr) hout)
  · intro hle
    by_cases hout : d.RunsOut bytes
    · exact hout
    · have hsame := decode_append_of_not_runsOut hout tail
      rw [h] at hsame
      obtain ⟨b, hb, _⟩ := (refused_iff he).mp hsame.symm
      obtain ⟨hlt, _⟩ := List.getElem?_eq_some_iff.mp hb
      rw [runLength_append hlt] at hle
      omega

theorem take_append_drop_take {j k : Nat} (h : j ≤ k) (bytes : List UInt8) :
    bytes.take j ++ (bytes.take k).drop j = bytes.take k := by
  have hj : (bytes.take k).take j = bytes.take j := by rw [List.take_take, Nat.min_eq_left h]
  rw [← hj, List.take_append_drop]

theorem decode_take_length {i : Instruction} (h : d.decode bytes = .ok i) (tail : List UInt8) :
    d.decode (bytes.take i.length ++ tail) = .ok i := by
  rw [take_length_of_ok h]
  exact decode_encode_of_ok h tail

theorem decode_take_runLength {e : DecodeError} (he : e.IsRefusal) (h : d.decode bytes = .error e)
    (tail : List UInt8) : d.decode (bytes.take (d.runLength bytes + 1) ++ tail) = .error e := by
  obtain ⟨b, hb, _⟩ := (refused_iff he).mp h
  obtain ⟨hlt, _⟩ := List.getElem?_eq_some_iff.mp hb
  have hsplit := List.take_append_drop (d.runLength bytes + 1) bytes
  have hout : ¬ d.RunsOut (bytes.take (d.runLength bytes + 1)) := by
    intro hout
    rw [← hsplit] at h
    have hle := (runsOut_iff_of_refusal he h).mp hout
    rw [hsplit, List.length_take] at hle
    omega
  have hsame := decode_append_of_not_runsOut hout (bytes.drop (d.runLength bytes + 1))
  rw [hsplit, h] at hsame
  exact decode_append_of_refusal he hsame.symm tail

/-- No instruction is the beginning of a longer one. -/
theorem eq_of_prefix {d : Decoder} {x y : List UInt8} {i i' : Instruction}
    (hx : d.decode x = .ok i) (hy : d.decode y = .ok i') (hlen : i'.length = y.length)
    (h : x <+: y) : x = y := by
  obtain ⟨tail, rfl⟩ := h
  have hsame := decode_append_of_ok hx tail
  rw [hy] at hsame
  cases hsame
  have hle := length_le_of_ok hx
  have htail : tail = [] := by
    apply List.eq_nil_of_length_eq_zero
    rw [List.length_append] at hlen
    omega
  simp [htail]

/-- How the results of two cuts of the same bytes go together. A result that does not run out of
bytes is the result of every longer cut. Below the length of the instruction, or up to the end of
the prefixes where the opcode is refused, every cut runs out, and longer cuts run out later. -/
theorem decode_take_threshold (d : Decoder) (bytes : List UInt8) {j k : Nat} (hjk : j ≤ k)
    (hk : k ≤ bytes.length) :
    (¬ d.RunsOut (bytes.take j) → d.decode (bytes.take k) = d.decode (bytes.take j)) ∧
      (∀ i, d.decode (bytes.take k) = .ok i → (d.RunsOut (bytes.take j) ↔ j < i.length)) ∧
      (∀ e, e.IsRefusal → d.decode (bytes.take k) = .error e →
        (d.RunsOut (bytes.take j) ↔ j ≤ (Prefix.run d.mode (bytes.take k)).length)) ∧
      (∀ f o f' o', d.decode (bytes.take j) = .error (.truncated f o) →
        d.decode (bytes.take k) = .error (.truncated f' o') → o ≤ o' ∧ f.rank ≤ f'.rank) ∧
      (∀ i tail, d.decode bytes = .ok i → d.decode (bytes.take i.length ++ tail) = .ok i) ∧
      (∀ e tail, e.IsRefusal → d.decode bytes = .error e →
        d.decode (bytes.take ((Prefix.run d.mode bytes).length + 1) ++ tail) = .error e) ∧
      (∀ x y i i', d.decode x = .ok i → d.decode y = .ok i' → i'.length = y.length →
        x <+: y → x = y) := by
  have hsplit := take_append_drop_take hjk bytes
  have hlen : (bytes.take j).length = j := List.length_take_of_le (Nat.le_trans hjk hk)
  refine ⟨?_, ?_, ?_, ?_, ?_, ?_, ?_⟩
  · intro hout
    rw [← hsplit]
    exact decode_append_of_not_runsOut hout _
  · intro i hi
    rw [← hsplit] at hi
    rw [runsOut_iff_of_ok hi, hlen]
  · intro e he hd
    rw [← hsplit] at hd ⊢
    rw [runsOut_iff_of_refusal he hd, hlen]
    rfl
  · intro f o f' o' h h'
    rw [← hsplit] at h'
    exact cut_le_of_append (cut?_of_truncated h) (cut?_of_truncated h')
  · intro i tail hi
    exact decode_take_length hi tail
  · intro e tail he hd
    exact decode_take_runLength he hd tail
  · intro x y i i' hx hy hlength hpre
    exact eq_of_prefix hx hy hlength hpre

theorem runsOut_take_behindRexBytes :
    behindRex.RunsOut (behindRexBytes.take 10) ∧ ¬ behindRex.RunsOut (behindRexBytes.take 11) ∧
      behindRex.decode (behindRexBytes.take 11) = .ok behindRexInstruction := by
  obtain ⟨_, hten, _⟩ :=
    decode_take_threshold behindRex behindRexBytes (j := 10) (k := 12) (by decide) (by decide)
  obtain ⟨hfinal, heleven, _⟩ :=
    decode_take_threshold behindRex behindRexBytes (j := 11) (k := 12) (by decide) (by decide)
  have hout : ¬ behindRex.RunsOut (behindRexBytes.take 11) := by
    rw [heleven behindRexInstruction decode_behindRexBytes]
    decide
  refine ⟨(hten behindRexInstruction decode_behindRexBytes).mpr (by decide), hout, ?_⟩
  rw [← hfinal hout]
  exact decode_behindRexBytes

end Decoder

end X86Layout
