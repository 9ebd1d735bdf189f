import X86Layout.Assembly.Statement
import X86Layout.Proofs.Trimming

namespace X86Layout.Assembly

/-- The text says this first: blanks may stand around it, and after them the text is at its end or
goes on behind a semicolon. -/
def Spells (text body : List Char) : Prop :=
  ∃ before after rest, text = before ++ body ++ after ++ rest ∧ Text.Blanks before ∧
    Text.Blanks after ∧ ';' ∉ body ∧ (rest = [] ∨ rest.head? = some ';')

theorem not_mem_of_blanks {cs : List Char} (h : Text.Blanks cs) : ';' ∉ cs := by
  intro hc
  have hblank := h ';' hc
  revert hblank
  decide

/-- A part without a semicolon is read to its end. -/
theorem takeWhile_append_of_not_mem {front : List Char} (h : ';' ∉ front) (rest : List Char) :
    (front ++ rest).takeWhile (· != ';') = front ++ rest.takeWhile (· != ';') := by
  apply List.takeWhile_append_of_pos
  intro c hc
  have hne : c ≠ ';' := fun he => h (he ▸ hc)
  simpa using hne

theorem takeWhile_of_spells {body rest : List Char} (hbody : ';' ∉ body)
    (hrest : rest = [] ∨ rest.head? = some ';') :
    (body ++ rest).takeWhile (· != ';') = body := by
  rw [takeWhile_append_of_not_mem hbody]
  rcases hrest with rfl | hhead
  · simp
  · obtain ⟨tail, rfl⟩ := List.head?_eq_some_iff.mp hhead
    simp

/-- The first statement is what the text says first, without the blanks at its ends. -/
theorem firstStatement_of_spells {text : String} {body : List Char} (h : Spells text.toList body) :
    firstStatement text = String.ofList (Text.trim body) := by
  obtain ⟨before, after, rest, htext, hbefore, hafter, hbody, hrest⟩ := h
  have hfront : ';' ∉ before ++ body ++ after := by
    simp [not_mem_of_blanks hbefore, hbody, not_mem_of_blanks hafter]
  rw [firstStatement, htext, takeWhile_of_spells hfront hrest, Text.trim_surrounded hbefore hafter]

theorem not_mem_takeWhile (text : List Char) : ';' ∉ text.takeWhile (· != ';') := by
  intro hc
  have hne := List.all_eq_true.mp (List.all_takeWhile (p := (· != ';')) (l := text)) ';' hc
  simp at hne

theorem head_dropWhile (text : List Char) :
    text.dropWhile (· != ';') = [] ∨ (text.dropWhile (· != ';')).head? = some ';' := by
  have hstop := List.head?_dropWhile_not (· != ';') text
  cases hrest : text.dropWhile (· != ';') with
  | nil => exact .inl rfl
  | cons c rest =>
    right
    rw [hrest] at hstop
    simpa using hstop

theorem trimmed_firstStatement (text : String) : Text.Trimmed (firstStatement text).toList := by
  rw [firstStatement, String.toList_ofList]
  exact Text.trimmed_trim _

theorem spells_firstStatement (text : String) :
    Spells text.toList (firstStatement text).toList := by
  rw [firstStatement, String.toList_ofList]
  -- the blanks cut off on either side, and then everything from the first semicolon on
  obtain ⟨before, after, hfront, hbefore, hafter⟩ :=
    Text.surrounds_trim (text.toList.takeWhile (· != ';'))
  refine ⟨before, after, text.toList.dropWhile (· != ';'), ?_, hbefore, hafter, ?_,
    head_dropWhile text.toList⟩
  · rw [← hfront, List.takeWhile_append_dropWhile]
  · intro hc
    apply not_mem_takeWhile text.toList
    rw [hfront]
    exact List.mem_append_left _ (List.mem_append_right _ hc)

/-- The first statement is the one text without blanks at its ends that the text says first. -/
theorem firstStatement_eq_iff {text s : String} :
    firstStatement text = s ↔ Spells text.toList s.toList ∧ Text.Trimmed s.toList := by
  constructor
  · rintro rfl
    exact ⟨spells_firstStatement text, trimmed_firstStatement text⟩
  · rintro ⟨hspells, htrimmed⟩
    rw [firstStatement_of_spells hspells, Text.trim_of_trimmed htrimmed, String.ofList_toList]

/-- A text that is a statement already says nothing else. -/
theorem firstStatement_of_trimmed {s : String} (hs : ';' ∉ s.toList)
    (htrimmed : Text.Trimmed s.toList) : firstStatement s = s := by
  refine firstStatement_eq_iff.mpr ⟨⟨[], [], [], ?_, ?_, ?_, hs, .inl rfl⟩, htrimmed⟩ <;>
    simp [Text.Blanks]

theorem firstStatement_eq_empty_iff {text : String} :
    firstStatement text = "" ↔
      ∀ front rest, text.toList = front ++ rest → ';' ∉ front → Text.Blanks front := by
  have hblanks : firstStatement text = "" ↔ Text.Blanks (text.toList.takeWhile (· != ';')) := by
    rw [firstStatement, ← Text.trim_eq_nil_iff, String.ofList_eq_empty_iff]
  rw [hblanks]
  constructor
  · intro h front rest htext hfront c hc
    apply h
    rw [htext, takeWhile_append_of_not_mem hfront]
    exact List.mem_append_left _ hc
  · intro h
    exact h _ _ List.takeWhile_append_dropWhile.symm (not_mem_takeWhile text.toList)

/-- Of every text the first statement is the one part without a semicolon and without blanks at its
ends that has only blanks before it, and behind it blanks and then the end or a semicolon. So
nothing is left to cut from it, and it is empty exactly if all that comes before a semicolon is
blank. -/
theorem firstStatement_exact (text : String) :
    (∀ s : String, firstStatement text = s ↔
      Spells text.toList s.toList ∧ Text.Trimmed s.toList) ∧
    firstStatement (firstStatement text) = firstStatement text ∧
    (firstStatement text = "" ↔
      ∀ front rest, text.toList = front ++ rest → ';' ∉ front → Text.Blanks front) := by
  obtain ⟨_, _, _, _, _, _, hsemicolon, _⟩ := spells_firstStatement text
  exact ⟨fun _ => firstStatement_eq_iff,
    firstStatement_of_trimmed hsemicolon (trimmed_firstStatement text),
    firstStatement_eq_empty_iff⟩

end X86Layout.Assembly
