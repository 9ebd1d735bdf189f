import Mathlib.Data.List.Pairwise
import X86Layout.OpcodeMap.Primary

namespace X86Layout.OpcodeMap

theorem eq_of_get?_eq {m n : OpcodeMap} (h : ∀ b, m.get? b = n.get? b) : m = n := by
  obtain ⟨get?, _⟩ := m
  obtain ⟨get?', _⟩ := n
  have hget : get? = get?' := funext h
  subst hget
  rfl

namespace Edit

/-- The edit settles what stands under the byte. A range covers both its ends, and nothing at all
if they are the wrong way round. -/
def covers : Edit → UInt8 → Bool
  | insert byte _, b => b == byte
  | insertRange first last _, b => first ≤ b && b ≤ last
  | erase byte, b => b == byte

/-- What then stands under a byte that it covers. An opcode takes on the byte it is filed under. -/
def leaves : Edit → UInt8 → Option Opcode
  | insert _ o, b => some { o with byte := b }
  | insertRange _ _ o, b => some { o with byte := b }
  | erase _, _ => none

end Edit

/-- Of the edits that cover a byte the last one decides. A byte that none covers keeps what it
had. -/
def leftBy (m : OpcodeMap) (edits : List Edit) (b : UInt8) : Option Opcode :=
  ((edits.filter (·.covers b)).getLast?).elim (m.get? b) (·.leaves b)

theorem get?_apply (m : OpcodeMap) (e : Edit) (b : UInt8) :
    (m.apply e).get? b = if e.covers b then e.leaves b else m.get? b := by
  cases e with
  | insert byte o => simp [apply, insert, Edit.covers, Edit.leaves]
  | insertRange first last o => simp [apply, insertRange, Edit.covers, Edit.leaves]
  | erase byte => simp [apply, erase, Edit.covers, Edit.leaves]

theorem applyAll_append (m : OpcodeMap) (edits more : List Edit) :
    m.applyAll (edits ++ more) = (m.applyAll edits).applyAll more :=
  List.foldl_append

/-- The last writer wins, byte by byte. -/
theorem get?_applyAll (m : OpcodeMap) (edits : List Edit) (b : UInt8) :
    (m.applyAll edits).get? b = m.leftBy edits b := by
  induction edits generalizing m with
  | nil => rfl
  | cons e edits ih =>
    change ((m.apply e).applyAll edits).get? b = _
    rw [ih, leftBy, leftBy, get?_apply]
    cases hc : e.covers b with
    | false => simp [hc]
    | true =>
      simp only [List.filter_cons, hc, ↓reduceIte, List.getLast?_cons]
      cases (edits.filter (·.covers b)).getLast? <;> rfl

theorem leftBy_of_not_covered {m : OpcodeMap} {edits : List Edit} {b : UInt8}
    (h : ∀ e ∈ edits, ¬ e.covers b = true) : m.leftBy edits b = m.get? b := by
  rw [leftBy, List.filter_eq_nil_iff.mpr h]
  rfl

/-- Where the edits that cover a byte agree, it does not matter which of them is the last. -/
theorem leftBy_of_covered {m : OpcodeMap} {edits : List Edit} {b : UInt8} {left : Option Opcode}
    (hsome : ∃ e ∈ edits, e.covers b = true)
    (h : ∀ e ∈ edits, e.covers b = true → e.leaves b = left) : m.leftBy edits b = left := by
  unfold leftBy
  cases hlast : (edits.filter (·.covers b)).getLast? with
  | none =>
    obtain ⟨e, he, hc⟩ := hsome
    have hnone := List.filter_eq_nil_iff.mp (List.getLast?_eq_none_iff.mp hlast)
    exact absurd hc (hnone e he)
  | some e =>
    obtain ⟨he, hc⟩ := List.mem_filter.mp (List.mem_of_getLast? hlast)
    exact h e he hc

/-- A range is its bytes inserted one after the other. -/
theorem insertRange_eq_inserts (m : OpcodeMap) (first last : UInt8) (o : Opcode) :
    m.insertRange first last o =
      m.applyAll ((allBytes.filter fun b => first ≤ b && b ≤ last).map (.insert · o)) := by
  apply eq_of_get?_eq
  intro b
  have hrange : (m.insertRange first last o).get? b =
      if first ≤ b ∧ b ≤ last then some { o with byte := b } else m.get? b := rfl
  rw [hrange, get?_applyAll]
  split
  · rename_i hin
    refine (leftBy_of_covered ⟨.insert b o, ?_, by simp [Edit.covers]⟩ ?_).symm
    · simpa [mem_allBytes] using hin
    · intro e he _
      obtain ⟨c, _, rfl⟩ := List.mem_map.mp he
      rfl
  · rename_i hout
    refine (leftBy_of_not_covered ?_).symm
    intro e he hc
    obtain ⟨c, hmem, rfl⟩ := List.mem_map.mp he
    obtain rfl : b = c := by simpa [Edit.covers] using hc
    exact hout (by simpa using (List.mem_filter.mp hmem).2)

namespace Row

/-- The row as an edit. One byte is inserted by itself. -/
def edit (r : Row) : Edit :=
  if r.first = r.last then .insert r.first r.opcode else .insertRange r.first r.last r.opcode

/-- The rows have no byte in common. -/
def Apart (r s : Row) : Prop := r.last < s.first ∨ s.last < r.first

instance : DecidableRel Apart := fun _ _ => inferInstanceAs (Decidable (_ ∨ _))

instance : Std.Symm Apart := ⟨fun _ _ => Or.symm⟩

theorem covers_edit (r : Row) (b : UInt8) : r.edit.covers b = r.covers b := by
  unfold edit
  split
  · rename_i hsingle
    rw [Bool.eq_iff_iff]
    simp only [Edit.covers, covers, ← hsingle, beq_iff_eq, Bool.and_eq_true, decide_eq_true_eq]
    constructor
    · intro h
      rw [h]
      exact ⟨UInt8.le_refl _, UInt8.le_refl _⟩
    · intro h
      exact UInt8.le_antisymm h.2 h.1
  · rfl

theorem leaves_edit (r : Row) (b : UInt8) : r.edit.leaves b = some { r.opcode with byte := b } := by
  unfold edit
  split <;> rfl

theorem not_apart_of_covers {r s : Row} {b : UInt8} (hr : r.covers b = true)
    (hs : s.covers b = true) : ¬ r.Apart s := by
  simp only [covers, Bool.and_eq_true, decide_eq_true_eq, UInt8.le_iff_toNat_le] at hr hs
  simp only [Apart, UInt8.lt_iff_toNat_lt]
  omega

/-- Of rows that are apart only one covers a byte. -/
theorem eq_of_covers {rows : List Row} (h : rows.Pairwise Apart) {r s : Row} {b : UInt8}
    (hr : r ∈ rows) (hs : s ∈ rows) (hrb : r.covers b = true) (hsb : s.covers b = true) :
    r = s := by
  by_contra hne
  exact not_apart_of_covers hrb hsb (h.forall hr hs hne)

end Row

/-- Where rows are apart the first and the last of them to cover a byte are the same, so looking a
byte up among them finds what inserting one after the other would leave. -/
theorem ofRows_eq_applyAll {rows : List Row} (h : rows.Pairwise Row.Apart) :
    ofRows rows = empty.applyAll (rows.map Row.edit) := by
  apply eq_of_get?_eq
  intro b
  rw [get?_applyAll]
  have hget : (ofRows rows).get? b =
      (rows.find? (·.covers b)).map fun r => { r.opcode with byte := b } := rfl
  rw [hget]
  cases hfind : rows.find? (·.covers b) with
  | none =>
    symm
    apply leftBy_of_not_covered
    intro e he
    obtain ⟨s, hs, rfl⟩ := List.mem_map.mp he
    rw [s.covers_edit]
    exact List.find?_eq_none.mp hfind s hs
  | some r =>
    have hmem := List.mem_of_find?_eq_some hfind
    have hcovers := List.find?_some hfind
    refine (leftBy_of_covered ⟨r.edit, List.mem_map_of_mem hmem, ?_⟩ ?_).symm
    · rw [r.covers_edit, hcovers]
    · intro e he hcovers'
      obtain ⟨s, hs, rfl⟩ := List.mem_map.mp he
      rw [s.covers_edit] at hcovers'
      rw [Row.eq_of_covers h hs hmem hcovers' hcovers, r.leaves_edit]
      rfl

/-- The map of one-byte opcodes is what its rows leave when they are inserted in their order. -/
theorem primary_eq_applyAll : primary = empty.applyAll (primaryRows.map Row.edit) := by
  have hrows : primaryRows.Pairwise Row.Apart := by decide +kernel
  exact ofRows_eq_applyAll hrows

theorem pairwise_allBytes : allBytes.Pairwise (· < ·) := by
  rw [allBytes, List.pairwise_map]
  apply List.pairwise_lt_range.imp_of_mem
  intro m n hm hn hlt
  rw [List.mem_range] at hm hn
  rw [UInt8.lt_iff_toNat_lt, UInt8.toNat_ofNat_of_lt' hm, UInt8.toNat_ofNat_of_lt' hn]
  exact hlt

/-- The listing is in the order of the bytes, with no byte twice. -/
theorem pairwise_toList (m : OpcodeMap) : m.toList.Pairwise fun o p => o.byte < p.byte := by
  apply pairwise_allBytes.filterMap
  intro b c hlt o ho p hp
  rwa [m.byte_of_get? b o ho, m.byte_of_get? c p hp]

end X86Layout.OpcodeMap
