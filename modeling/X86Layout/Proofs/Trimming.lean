import Mathlib.Data.List.DropRight
import X86Layout.Text.Blank

namespace X86Layout.Text

def Blanks (cs : List Char) : Prop := ∀ c ∈ cs, isBlank c = true

instance (cs : List Char) : Decidable (Blanks cs) :=
  decidable_of_iff (cs.all isBlank = true) List.all_eq_true

theorem Blanks.reverse {cs : List Char} (h : Blanks cs) : Blanks cs.reverse :=
  fun c hc => h c (List.mem_reverse.mp hc)

theorem trim_eq_rdropWhile (cs : List Char) :
    trim cs = (cs.dropWhile isBlank).rdropWhile isBlank :=
  rfl

theorem rdropWhile_append_of_blanks {blanks : List Char} (h : Blanks blanks) (cs : List Char) :
    (cs ++ blanks).rdropWhile isBlank = cs.rdropWhile isBlank := by
  rw [List.rdropWhile, List.reverse_append, List.dropWhile_append_of_pos h.reverse, List.rdropWhile]

/-- Blanks behind a text do not matter, whether or not anything stands in front of them. -/
theorem trim_append_of_blanks {blanks : List Char} (h : Blanks blanks) (cs : List Char) :
    trim (cs ++ blanks) = trim cs := by
  rw [trim_eq_rdropWhile, trim_eq_rdropWhile, List.dropWhile_append]
  split
  · rename_i hempty
    rw [List.dropWhile_eq_nil_iff.mpr h, List.isEmpty_iff.mp hempty]
  · rw [rdropWhile_append_of_blanks h]

theorem trim_surrounded {before after : List Char} (hb : Blanks before) (ha : Blanks after)
    (cs : List Char) : trim (before ++ cs ++ after) = trim cs := by
  rw [trim_append_of_blanks ha, trim, List.dropWhile_append_of_pos hb, trim]

/-- No blank at either end. -/
structure Trimmed (cs : List Char) : Prop where
  first : ∀ c ∈ cs.head?, isBlank c = false
  last : ∀ c ∈ cs.getLast?, isBlank c = false

/-- The text is this and nothing but blanks around it. -/
def Surrounds (text cs : List Char) : Prop :=
  ∃ before after, text = before ++ cs ++ after ∧ Blanks before ∧ Blanks after

theorem head_dropWhile_isBlank (cs : List Char) :
    ∀ c ∈ (cs.dropWhile isBlank).head?, isBlank c = false := by
  intro c hc
  have hstop := List.head?_dropWhile_not isBlank cs
  rwa [show (cs.dropWhile isBlank).head? = some c from hc] at hstop

theorem dropWhile_of_head {cs : List Char} (h : ∀ c ∈ cs.head?, isBlank c = false) :
    cs.dropWhile isBlank = cs := by
  cases cs with
  | nil => rfl
  | cons c cs => exact List.dropWhile_cons_of_neg (by simp [h c rfl])

theorem trimmed_trim (cs : List Char) : Trimmed (trim cs) := by
  refine ⟨?_, ?_⟩
  · -- what is cut off at the end leaves the front as it was
    intro c hc
    obtain ⟨blanks, hsplit⟩ := List.rdropWhile_prefix isBlank (cs.dropWhile isBlank)
    apply head_dropWhile_isBlank cs c
    rw [← hsplit, ← trim_eq_rdropWhile, List.head?_append, show (trim cs).head? = some c from hc]
    rfl
  · rw [trim, List.getLast?_reverse]
    exact head_dropWhile_isBlank _

theorem surrounds_trim (cs : List Char) : Surrounds cs (trim cs) := by
  refine ⟨cs.takeWhile isBlank, (cs.dropWhile isBlank).rtakeWhile isBlank, ?_,
    fun _ => List.mem_takeWhile_imp, fun _ => List.mem_rtakeWhile_imp⟩
  rw [List.append_assoc, trim_eq_rdropWhile, List.rdropWhile_append_rtakeWhile,
    List.takeWhile_append_dropWhile]

theorem trim_of_trimmed {cs : List Char} (h : Trimmed cs) : trim cs = cs := by
  have hlast : cs.reverse.dropWhile isBlank = cs.reverse := by
    apply dropWhile_of_head
    rw [List.head?_reverse]
    exact h.last
  rw [trim, dropWhile_of_head h.first, hlast, List.reverse_reverse]

/-- Trimming a text yields the one part of it that has blanks around it and none at its ends. -/
theorem trim_eq_iff {text cs : List Char} :
    trim text = cs ↔ Surrounds text cs ∧ Trimmed cs := by
  constructor
  · rintro rfl
    exact ⟨surrounds_trim text, trimmed_trim text⟩
  · intro h
    obtain ⟨⟨before, after, rfl, hbefore, hafter⟩, htrimmed⟩ := h
    rw [trim_surrounded hbefore hafter, trim_of_trimmed htrimmed]

theorem trim_eq_nil_iff {cs : List Char} : trim cs = [] ↔ Blanks cs := by
  constructor
  · intro h c hc
    obtain ⟨⟨before, after, rfl, hbefore, hafter⟩, -⟩ := trim_eq_iff.mp h
    rw [List.append_nil] at hc
    rcases List.mem_append.mp hc with hc | hc
    · exact hbefore c hc
    · exact hafter c hc
  · intro h
    have hdrop := trim_append_of_blanks h []
    rwa [List.nil_append] at hdrop

end X86Layout.Text
