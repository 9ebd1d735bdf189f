import X86Layout.Proofs.Reading
import X86Layout.Reader.Step

namespace X86Layout.Reader

namespace Step

/-- How many bytes a step asks for, and for which field. Looking and skipping ask for none. -/
def demand? : Step → Option (Nat × Field)
  | peek => none
  | skip => none
  | byte field => some (1, field)
  | take n field => some (n, field)

end Step

namespace Outcome

def returned : Outcome → List UInt8
  | byte b => [b]
  | bytes bs => bs
  | _ => []

def isFailure : Outcome → Bool
  | failed _ => true
  | _ => false

end Outcome

def after (steps : List Step) (r : Reader) : Reader := steps.foldl (fun r s => (perform s r).2) r

/-- The bytes a step goes past: those that it returns, or the one that it skips if there is one. -/
def passed (s : Step) (r : Reader) : List UInt8 :=
  match s with
  | .skip => r.peek?.toList
  | _ => (perform s r).1.returned

/-- The same for one step after the other, each from where the one before it ended. -/
def passedAll : List Step → Reader → List UInt8
  | [], _ => []
  | s :: steps, r => passed s r ++ passedAll steps (perform s r).2

theorem after_append (steps more : List Step) (r : Reader) :
    after (steps ++ more) r = after more (after steps r) :=
  List.foldl_append

theorem rest_eq (r : Reader) : r.rest = r.buffer.drop r.position := by
  simp [buffer, position]

theorem peek?_eq (r : Reader) : r.peek? = r.buffer[r.position]? := by
  rw [peek?, rest_eq, List.head?_drop]

theorem consumes_advance (n : Nat) (r : Reader) : r.Consumes (r.rest.take n) (r.advance n) :=
  ⟨(List.take_append_drop n r.rest).symm, rfl⟩

theorem peek?_toList (r : Reader) : r.peek?.toList = r.rest.take 1 := by
  obtain ⟨taken, rest⟩ := r
  cases rest <;> rfl

variable {s : Step} {n : Nat} {field : Field} {r : Reader}

theorem perform_take (n : Nat) (field : Field) (r : Reader) :
    perform (.take n field) r =
      if n ≤ r.remaining then (.bytes (r.rest.take n), r.advance n)
      else (.failed (.truncated field r.position), r) := by
  have hrun : (Reader.take n field).run r =
      if n ≤ r.remaining then .ok (r.rest.take n, r.advance n)
      else .error (.truncated field r.position) := rfl
  rw [perform, attempt, hrun]
  by_cases hn : n ≤ r.remaining
  · simp only [if_pos hn]
  · simp only [if_neg hn]

/-- A read of a single byte is a read like any other: the two differ in the form of what they
return and in nothing else. -/
theorem perform_of_fits (h : s.demand? = some (n, field)) (hn : n ≤ r.remaining) :
    ∃ outcome, perform s r = (outcome, r.advance n) ∧ outcome.isFailure = false ∧
      outcome.returned = r.rest.take n := by
  cases s with
  | peek => cases h
  | skip => cases h
  | byte f =>
    cases h
    obtain ⟨taken, rest⟩ := r
    cases rest with
    | nil => cases hn
    | cons b rest => exact ⟨.byte b, rfl, rfl, rfl⟩
  | take k f =>
    cases h
    exact ⟨.bytes (r.rest.take n), by rw [perform_take, if_pos hn], rfl, rfl⟩

theorem perform_of_short (h : s.demand? = some (n, field)) (hn : r.remaining < n) :
    perform s r = (.failed (.truncated field r.position), r) := by
  cases s with
  | peek => cases h
  | skip => cases h
  | byte f =>
    cases h
    obtain ⟨taken, rest⟩ := r
    cases rest with
    | nil => rfl
    | cons b rest => simp [remaining] at hn
  | take k f =>
    cases h
    rw [perform_take, if_neg (Nat.not_le_of_lt hn)]

theorem isFailure_perform_iff (h : s.demand? = some (n, field)) :
    (perform s r).1.isFailure = true ↔ r.remaining < n := by
  constructor
  · intro hfailure
    apply Nat.lt_of_not_le
    intro hn
    obtain ⟨outcome, hperform, hok, _⟩ := perform_of_fits h hn
    rw [hperform, hok] at hfailure
    cases hfailure
  · intro hn
    rw [perform_of_short h hn]
    rfl

/-- A read that succeeds moves past what it returns, and one that fails does not move. -/
theorem consumes_of_demand (h : s.demand? = some (n, field)) :
    r.Consumes (perform s r).1.returned (perform s r).2 := by
  rcases Nat.lt_or_ge r.remaining n with hn | hn
  · rw [perform_of_short h hn]
    exact consumes_nil.mpr rfl
  · obtain ⟨outcome, hperform, _, hreturned⟩ := perform_of_fits h hn
    rw [hperform, hreturned]
    exact consumes_advance n r

theorem consumes_perform (s : Step) (r : Reader) : r.Consumes (passed s r) (perform s r).2 := by
  cases s with
  | peek => exact consumes_nil.mpr rfl
  | skip =>
    rw [passed, peek?_toList]
    exact consumes_advance 1 r
  | byte field => exact consumes_of_demand rfl
  | take n field => exact consumes_of_demand rfl

/-- Nothing is lost and nothing is taken twice, however reads, skips and failures are mixed. -/
theorem consumes_after (steps : List Step) (r : Reader) :
    r.Consumes (passedAll steps r) (after steps r) := by
  induction steps generalizing r with
  | nil => exact consumes_nil.mpr rfl
  | cons s steps ih => exact consumes_append.mpr ⟨(perform s r).2, consumes_perform s r, ih _⟩

theorem precedes_after (steps : List Step) (r : Reader) : r.Precedes (after steps r) :=
  ⟨passedAll steps r, consumes_after steps r⟩

/-- The record of a run has, at every point, what the next step does from there. -/
theorem getElem?_performAll (steps : List Step) (s : Step) (rest : List Step) (r : Reader) :
    (performAll (steps ++ s :: rest) r)[steps.length]? = some (perform s (after steps r)) := by
  induction steps generalizing r with
  | nil => rfl
  | cons first steps ih => exact ih (perform first r).2

/-- Where these steps have come to in a buffer. They have gone past a front of it, which is what
they returned and skipped, in this order, and no step leads back. -/
structure Accounted (bytes : List UInt8) (steps : List Step) (r : Reader) : Prop where
  bounded : r.position ≤ bytes.length
  split : r.position + r.remaining = bytes.length
  consumed : r.taken = bytes.take r.position
  passed : passedAll steps (ofBytes bytes) = r.taken
  forward : ∀ more, r.position ≤ (after (steps ++ more) (ofBytes bytes)).position

/-- What each step does at a position of a buffer. -/
structure Answers (bytes : List UInt8) (r : Reader) : Prop where
  peek : perform .peek r = (.peeked bytes[r.position]?, r)
  /-- The byte one sees is the byte one steps over or reads. -/
  next : ∀ b ∈ bytes[r.position]?, ∃ moved, r.Consumes [b] moved ∧
    perform .skip r = (.skipped, moved) ∧ ∀ field, perform (.byte field) r = (.byte b, moved)
  skipAtEnd : r.remaining = 0 → perform .skip r = (.skipped, r)
  fails : ∀ s n field, s.demand? = some (n, field) →
    ((perform s r).1.isFailure = true ↔ r.remaining < n)
  failed : ∀ s n field, s.demand? = some (n, field) → r.remaining < n →
    perform s r = (.failed (.truncated field r.position), r)
  reads : ∀ s n field, s.demand? = some (n, field) → n ≤ r.remaining →
    (perform s r).1.returned = (bytes.drop r.position).take n ∧
      (perform s r).2.position = r.position + n
  readsNothing : ∀ field, perform (.take 0 field) r = (.bytes [], r)

theorem answers_buffer (r : Reader) : Answers r.buffer r where
  peek := by rw [← peek?_eq]; rfl
  next := by
    obtain ⟨taken, rest⟩ := r
    intro b hb
    rw [← peek?_eq] at hb
    cases rest with
    | nil => cases hb
    | cons c rest =>
      cases hb
      exact ⟨⟨taken ++ [b], rest⟩, ⟨rfl, rfl⟩, rfl, fun _ => rfl⟩
  skipAtEnd := by
    obtain ⟨taken, rest⟩ := r
    intro h
    obtain rfl : rest = [] := List.length_eq_zero_iff.mp h
    simp [perform, advance]
  fails _ _ _ h := isFailure_perform_iff h
  failed _ _ _ h hn := perform_of_short h hn
  reads s n field h hn := by
    obtain ⟨outcome, hperform, _, hreturned⟩ := perform_of_fits h hn
    rw [hperform, ← rest_eq]
    exact ⟨hreturned, by rw [position_advance, Nat.min_eq_left hn]⟩
  readsNothing field := by
    rw [perform_take, if_pos (Nat.zero_le _)]
    simp [advance]

/-- At every point of a run of looks, skips and reads over a buffer the run is accounted for, the
next step does what the buffer and the position ask for, and that is what the run records. -/
theorem run_accounts_for_buffer (bytes : List UInt8) (steps : List Step) :
    Accounted bytes steps (after steps (ofBytes bytes)) ∧
      Answers bytes (after steps (ofBytes bytes)) ∧
      ∀ s rest, (performAll (steps ++ s :: rest) (ofBytes bytes))[steps.length]? =
        some (perform s (after steps (ofBytes bytes))) := by
  have hbuffer : (after steps (ofBytes bytes)).buffer = bytes :=
    (precedes_after steps (ofBytes bytes)).buffer_eq
  obtain ⟨_, htaken⟩ := consumes_after steps (ofBytes bytes)
  have hsplit := position_add_remaining (after steps (ofBytes bytes))
  have hconsumed := taken_eq (after steps (ofBytes bytes))
  have hanswers := answers_buffer (after steps (ofBytes bytes))
  rw [hbuffer] at hsplit hconsumed hanswers
  refine ⟨⟨?_, hsplit, hconsumed, htaken.symm, ?_⟩, hanswers, ?_⟩
  · omega
  · intro more
    rw [after_append]
    exact (precedes_after more _).position_le
  · intro s rest
    exact getElem?_performAll steps s rest _

-- a read that fails between two that succeed, and skips that come to an end
example : after [.byte .opcode, .take 4 .immediate, .skip, .take 0 .sib, .skip, .peek]
      (ofBytes [0xAA, 0xBB]) = ⟨[0xAA, 0xBB], []⟩ ∧
    perform (.take 4 .immediate) ⟨[0xAA], [0xBB]⟩ =
      (.failed (.truncated .immediate 1), ⟨[0xAA], [0xBB]⟩) := ⟨rfl, rfl⟩

end X86Layout.Reader
