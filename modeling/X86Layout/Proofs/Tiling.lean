import Mathlib.Algebra.GroupWithZero.Nat
import X86Layout.Decoder.Sweep
import X86Layout.Proofs.RoundTrip

namespace X86Layout.Decoder

variable {d : Decoder} {bytes : List UInt8}

@[simp] theorem sweepFrom_nil (d : Decoder) (offset : Nat) : d.sweepFrom offset [] = [] := by
  rw [sweepFrom]
  exact if_pos rfl

theorem sweepFrom_of_error {e : DecodeError} (hne : bytes ≠ []) (h : d.decode bytes = .error e)
    (offset : Nat) : d.sweepFrom offset bytes = [⟨offset, d.run bytes⟩] := by
  rw [sweepFrom, if_neg hne]
  dsimp only
  split
  · rfl
  · rename_i i hi
    rw [decode, hi] at h
    cases h

theorem sweepFrom_of_ok {i : Instruction} (h : d.decode bytes = .ok i) (offset : Nat) :
    d.sweepFrom offset bytes =
      ⟨offset, d.run bytes⟩ :: d.sweepFrom (offset + i.length) (bytes.drop i.length) := by
  have hne : bytes ≠ [] := by
    rintro rfl
    have hpos := decode_length_pos h
    have hle := length_le_of_ok h
    simp only [List.length_nil] at hle
    omega
  rw [sweepFrom, if_neg hne]
  dsimp only
  split
  · rename_i e he
    rw [decode, he] at h
    cases h
  · rename_i j hj
    rw [decode, hj] at h
    cases h
    rfl

/-- A sweep is at the end of the buffer, gets stuck on what is left, or takes one instruction off
the front and goes on. -/
theorem sweep_induction (d : Decoder) {motive : Nat → List UInt8 → Prop}
    (nil : ∀ offset, motive offset [])
    (stuck : ∀ offset bytes e, bytes ≠ [] → d.decode bytes = .error e → motive offset bytes)
    (step : ∀ offset bytes i, d.decode bytes = .ok i →
      motive (offset + i.length) (bytes.drop i.length) → motive offset bytes)
    (offset : Nat) (bytes : List UInt8) : motive offset bytes := by
  cases h : d.decode bytes with
  | ok i =>
    have hpos := decode_length_pos h
    have hle := length_le_of_ok h
    exact step offset bytes i h (sweep_induction d nil stuck step _ _)
  | error e =>
    by_cases hne : bytes = []
    · subst hne
      exact nil offset
    · exact stuck offset bytes e hne h
termination_by bytes.length
decreasing_by
  rw [List.length_drop]
  omega

/-- Each decode but a failing last one takes at least one byte away. -/
theorem length_sweepFrom_le (d : Decoder) (offset : Nat) (bytes : List UInt8) :
    (d.sweepFrom offset bytes).length ≤ bytes.length := by
  induction offset, bytes using sweep_induction d with
  | nil offset => simp
  | stuck offset bytes e hne h =>
    rw [sweepFrom_of_error hne h]
    exact List.length_pos_iff.mpr hne
  | step offset bytes i h ih =>
    have hpos := decode_length_pos h
    have hle := length_le_of_ok h
    rw [sweepFrom_of_ok h, List.length_cons]
    rw [List.length_drop] at ih
    omega

theorem offset_le_of_mem {offset : Nat} {s : Swept} (hs : s ∈ d.sweepFrom offset bytes) :
    offset ≤ s.offset := by
  induction offset, bytes using sweep_induction d with
  | nil offset => simp at hs
  | stuck offset bytes e hne h =>
    rw [sweepFrom_of_error hne h, List.mem_singleton] at hs
    subst hs
    exact Nat.le_refl offset
  | step offset bytes i h ih =>
    rw [sweepFrom_of_ok h] at hs
    rcases List.mem_cons.mp hs with rfl | hs
    · exact Nat.le_refl offset
    · exact Nat.le_trans (Nat.le_add_right offset i.length) (ih hs)

theorem pairwise_sweepFrom (d : Decoder) (offset : Nat) (bytes : List UInt8) :
    (d.sweepFrom offset bytes).Pairwise fun s t => s.offset < t.offset := by
  induction offset, bytes using sweep_induction d with
  | nil offset => simp
  | stuck offset bytes e hne h =>
    rw [sweepFrom_of_error hne h]
    exact List.pairwise_singleton _ _
  | step offset bytes i h ih =>
    rw [sweepFrom_of_ok h, List.pairwise_cons]
    refine ⟨?_, ih⟩
    intro t ht
    have hpos := decode_length_pos h
    have hle := offset_le_of_mem ht
    change offset < t.offset
    omega

/-- These entries are instructions of the buffer, each starting where the one before it ends: the
first at `start`, and the last ending at `stop`. -/
inductive Tiles (d : Decoder) (buffer : List UInt8) : Nat → List Swept → Nat → Prop where
  | nil (start : Nat) : Tiles d buffer start [] start
  | cons {start stop : Nat} {i : Instruction} {rest : List Swept}
      (decoded : d.decode (buffer.drop start) = .ok i)
      (tail : Tiles d buffer (start + i.length) rest stop) :
      Tiles d buffer start (⟨start, d.run (buffer.drop start)⟩ :: rest) stop

/-- The bytes that an entry accounts for. -/
def Swept.length (s : Swept) : Nat :=
  match s.run.result with
  | .ok i => i.length
  | .error _ => 0

def Swept.IsInstruction (s : Swept) : Prop := ∃ i, s.run.result = .ok i

theorem not_isInstruction_of_error {e : DecodeError} (h : d.decode bytes = .error e)
    (offset : Nat) : ¬ Swept.IsInstruction ⟨offset, d.run bytes⟩ := by
  rintro ⟨i, hi⟩
  have hok : d.decode bytes = .ok i := hi
  rw [h] at hok
  cases hok

theorem Tiles.isInstruction {buffer : List UInt8} {start stop : Nat} {tiles : List Swept}
    (h : Tiles d buffer start tiles stop) : ∀ s ∈ tiles, s.IsInstruction := by
  induction h with
  | nil start => simp
  | cons decoded tail ih =>
    intro s hs
    rcases List.mem_cons.mp hs with rfl | hs
    · exact ⟨_, decoded⟩
    · exact ih s hs

theorem Tiles.add_sum_length {buffer : List UInt8} {start stop : Nat} {tiles : List Swept}
    (h : Tiles d buffer start tiles stop) : start + (tiles.map Swept.length).sum = stop := by
  induction h with
  | nil start => simp
  | cons decoded tail ih =>
    rename_i start _ i _
    have hlength : (Swept.mk start (d.run (buffer.drop start))).length = i.length := by
      rw [Swept.length, show (d.run (buffer.drop start)).result = .ok i from decoded]
    rw [List.map_cons, List.sum_cons, hlength]
    omega

/-- The instructions of a sweep tile the buffer up to its end, or up to an error that ends it. -/
def EndsSweep (d : Decoder) (buffer : List UInt8) (entries tiles : List Swept) (stop : Nat) :
    Prop :=
  stop = buffer.length ∧ entries = tiles ∨
    stop < buffer.length ∧ (∃ e, d.decode (buffer.drop stop) = .error e) ∧
      entries = tiles ++ [⟨stop, d.run (buffer.drop stop)⟩]

theorem EndsSweep.cons {buffer : List UInt8} {entries tiles : List Swept} {stop : Nat}
    (h : d.EndsSweep buffer entries tiles stop) (s : Swept) :
    d.EndsSweep buffer (s :: entries) (s :: tiles) stop := by
  rcases h with ⟨hstop, rfl⟩ | ⟨hstop, herror, rfl⟩
  · exact .inl ⟨hstop, rfl⟩
  · exact .inr ⟨hstop, herror, rfl⟩

/-- The sweep sees the rest of the buffer only, the tiles stand in the whole of it. -/
theorem sweepFrom_tiles {buffer : List UInt8} {offset : Nat} (hrest : bytes = buffer.drop offset)
    (hle : offset ≤ buffer.length) :
    ∃ tiles stop, Tiles d buffer offset tiles stop ∧
      d.EndsSweep buffer (d.sweepFrom offset bytes) tiles stop := by
  induction offset, bytes using sweep_induction d with
  | nil offset =>
    have hend : buffer.length ≤ offset := List.drop_eq_nil_iff.mp hrest.symm
    exact ⟨[], offset, .nil offset, .inl ⟨by omega, sweepFrom_nil d offset⟩⟩
  | stuck offset bytes e hne h =>
    subst hrest
    refine ⟨[], offset, .nil offset, .inr ⟨?_, ⟨e, h⟩, sweepFrom_of_error hne h offset⟩⟩
    have hlength := List.length_pos_iff.mpr hne
    rw [List.length_drop] at hlength
    omega
  | step offset bytes i h ih =>
    subst hrest
    have hlength := length_le_of_ok h
    rw [List.length_drop] at hlength
    obtain ⟨tiles, stop, htiles, hends⟩ := ih (by rw [List.drop_drop]) (by omega)
    refine ⟨_, stop, .cons h htiles, ?_⟩
    rw [sweepFrom_of_ok h]
    exact hends.cons _

theorem sweep_tiles (d : Decoder) (bytes : List UInt8) :
    ∃ tiles stop, Tiles d bytes 0 tiles stop ∧ d.EndsSweep bytes (d.sweep bytes) tiles stop :=
  sweepFrom_tiles rfl (Nat.zero_le _)

/-- Whatever comes last, all before it are instructions. -/
theorem isInstruction_of_mem_dropLast {s : Swept} (hs : s ∈ (d.sweep bytes).dropLast) :
    s.IsInstruction := by
  obtain ⟨tiles, stop, htiles, hends⟩ := d.sweep_tiles bytes
  rcases hends with ⟨_, hsweep⟩ | ⟨_, _, hsweep⟩
  · rw [hsweep] at hs
    exact htiles.isInstruction s (List.dropLast_subset tiles hs)
  · rw [hsweep, List.dropLast_concat] at hs
    exact htiles.isInstruction s hs

theorem sum_length_of_isInstruction (h : ∀ s ∈ d.sweep bytes, s.IsInstruction) :
    ((d.sweep bytes).map Swept.length).sum = bytes.length := by
  obtain ⟨tiles, stop, htiles, hends⟩ := d.sweep_tiles bytes
  have hsum := htiles.add_sum_length
  rcases hends with ⟨hstop, hsweep⟩ | ⟨_, ⟨e, he⟩, hsweep⟩
  · rw [hsweep]
    omega
  · rw [hsweep] at h
    have hlast := h _ (List.mem_append_right tiles (List.mem_singleton_self _))
    exact absurd hlast (not_isInstruction_of_error he stop)

/-- What was decoded and where. The log of a run is left out, since it also tells how much of the
buffer was left. -/
def Swept.outcome (s : Swept) : Nat × Except DecodeError Instruction := (s.offset, s.run.result)

def outcomes (d : Decoder) (bytes : List UInt8) : List (Nat × Except DecodeError Instruction) :=
  (d.sweep bytes).map Swept.outcome

theorem outcome_sweepFrom_add (d : Decoder) (n offset : Nat) (bytes : List UInt8) :
    (d.sweepFrom (n + offset) bytes).map Swept.outcome =
      ((d.sweepFrom offset bytes).map Swept.outcome).map (Prod.map (n + ·) id) := by
  induction offset, bytes using sweep_induction d with
  | nil offset => simp
  | stuck offset bytes e hne h =>
    rw [sweepFrom_of_error hne h, sweepFrom_of_error hne h]
    rfl
  | step offset bytes i h ih =>
    rw [sweepFrom_of_ok h, sweepFrom_of_ok h, Nat.add_assoc, List.map_cons, ih]
    rfl

theorem outcome_sweepFrom_append {offset : Nat}
    (h : ∀ s ∈ d.sweepFrom offset bytes, s.IsInstruction) (more : List UInt8) :
    (d.sweepFrom offset (bytes ++ more)).map Swept.outcome =
      (d.sweepFrom offset bytes).map Swept.outcome ++
        (d.sweepFrom (offset + bytes.length) more).map Swept.outcome := by
  induction offset, bytes using sweep_induction d with
  | nil offset => simp
  | stuck offset bytes e hne he =>
    rw [sweepFrom_of_error hne he] at h
    exact absurd (h _ (List.mem_singleton_self _)) (not_isInstruction_of_error he offset)
  | step offset bytes i hi ih =>
    have hle := length_le_of_ok hi
    have happend := decode_append_of_ok hi more
    -- the same instruction comes off the front, with or without more bytes behind
    rw [sweepFrom_of_ok hi] at h ⊢
    rw [sweepFrom_of_ok happend, List.drop_append_of_le_length hle, List.map_cons,
      ih fun s hs => h s (List.mem_cons_of_mem _ hs)]
    have hend : offset + i.length + (bytes.drop i.length).length = offset + bytes.length := by
      rw [List.length_drop]
      omega
    have hfirst : Swept.outcome ⟨offset, d.run (bytes ++ more)⟩ =
        Swept.outcome ⟨offset, d.run bytes⟩ :=
      congrArg (Prod.mk offset) (happend.trans hi.symm)
    rw [hend, hfirst, List.map_cons, List.cons_append]

/-- A sweep that gets through a buffer goes on behind it as if it had started there. -/
theorem outcomes_append (h : ∀ s ∈ d.sweep bytes, s.IsInstruction) (more : List UInt8) :
    d.outcomes (bytes ++ more) =
      d.outcomes bytes ++ (d.outcomes more).map (Prod.map (bytes.length + ·) id) := by
  rw [outcomes, sweep, outcome_sweepFrom_append h, Nat.zero_add]
  have hshift := d.outcome_sweepFrom_add bytes.length 0 more
  rw [Nat.add_zero] at hshift
  rw [hshift]
  rfl

/-- The bytes are one instruction and no more. -/
def IsEncoding (d : Decoder) (code : List UInt8) : Prop :=
  ∃ i, d.decode code = .ok i ∧ i.length = code.length

theorem result_sweepFrom_flatten {codes : List (List UInt8)} (h : ∀ c ∈ codes, d.IsEncoding c)
    (offset : Nat) :
    (d.sweepFrom offset codes.flatten).map (·.run.result) = codes.map d.decode := by
  induction codes generalizing offset with
  | nil => simp
  | cons code codes ih =>
    obtain ⟨i, hi, hlength⟩ := h code List.mem_cons_self
    have happend := decode_append_of_ok hi codes.flatten
    rw [List.flatten_cons, sweepFrom_of_ok happend, hlength, List.drop_left, List.map_cons,
      List.map_cons, ih fun c hc => h c (List.mem_cons_of_mem _ hc)]
    exact congrArg (· :: _) (happend.trans hi.symm)

/-- A sweep ends on every buffer, after no more decodes than there are bytes. Its entries stand in
strictly increasing order, its instructions tile the buffer from the start to the end or to the one
error that can come last, and without an error their lengths add up to the buffer. Sweeps of buffers
that are instructions throughout can be put one behind the other, and a row of encodings is taken
apart into what it was made of. -/
theorem sweep_tiles_and_composes (d : Decoder) (bytes : List UInt8) :
    (d.sweep bytes).length ≤ bytes.length ∧
      (d.sweep bytes).Pairwise (fun s t => s.offset < t.offset) ∧
      (∃ tiles stop, Tiles d bytes 0 tiles stop ∧
        d.EndsSweep bytes (d.sweep bytes) tiles stop) ∧
      (∀ s ∈ (d.sweep bytes).dropLast, s.IsInstruction) ∧
      ((∀ s ∈ d.sweep bytes, s.IsInstruction) →
        ((d.sweep bytes).map Swept.length).sum = bytes.length ∧
          ∀ more, d.outcomes (bytes ++ more) =
            d.outcomes bytes ++ (d.outcomes more).map (Prod.map (bytes.length + ·) id)) ∧
      ∀ codes : List (List UInt8), (∀ c ∈ codes, d.IsEncoding c) →
        (d.sweep codes.flatten).map (·.run.result) = codes.map d.decode := by
  refine ⟨d.length_sweepFrom_le 0 bytes, d.pairwise_sweepFrom 0 bytes, d.sweep_tiles bytes, ?_, ?_,
    ?_⟩
  · intro s hs
    exact isInstruction_of_mem_dropLast hs
  · intro h
    exact ⟨sum_length_of_isInstruction h, outcomes_append h⟩
  · intro codes h
    exact result_sweepFrom_flatten h 0

/-- No operation, a move and a word loaded behind an operand-size override. -/
def threeCodes : List (List UInt8) := [[0x90], [0x48, 0x89, 0xC3], [0x66, 0xB8, 0x34, 0x12]]

theorem sweep_threeCodes :
    (∀ s ∈ (ofMode .bits64).sweep threeCodes.flatten, s.IsInstruction) ∧
      (((ofMode .bits64).sweep threeCodes.flatten).map Swept.length).sum = 8 ∧
      (ofMode .bits64).outcomes (threeCodes.flatten ++ [0x0F, 0x90]) =
        (ofMode .bits64).outcomes threeCodes.flatten ++ [(8, .error (.unsupported 0x0F))] := by
  obtain ⟨_, _, _, _, hclean, hcodes⟩ :=
    sweep_tiles_and_composes (ofMode .bits64) threeCodes.flatten
  have hencodings : ∀ c ∈ threeCodes, (ofMode .bits64).IsEncoding c := by
    intro c hc
    simp only [threeCodes, List.mem_cons, List.not_mem_nil, or_false] at hc
    rcases hc with rfl | rfl | rfl <;> exact ⟨_, rfl, rfl⟩
  have hresults := hcodes threeCodes hencodings
  have hall : ∀ s ∈ (ofMode .bits64).sweep threeCodes.flatten, s.IsInstruction := by
    intro s hs
    have hresult : s.run.result ∈ threeCodes.map (ofMode .bits64).decode := by
      rw [← hresults]
      exact List.mem_map_of_mem hs
    obtain ⟨c, hc, he⟩ := List.mem_map.mp hresult
    obtain ⟨i, hi, _⟩ := hencodings c hc
    exact ⟨i, he.symm.trans hi⟩
  obtain ⟨hsum, happend⟩ := hclean hall
  have hstuck : (ofMode .bits64).outcomes [0x0F, 0x90] = [(0, .error (.unsupported 0x0F))] := by
    rw [outcomes, sweep, sweepFrom_of_error (by simp) rfl]
    rfl
  refine ⟨hall, hsum, ?_⟩
  rw [happend, hstuck]
  rfl

end X86Layout.Decoder
