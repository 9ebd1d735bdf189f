import X86Layout.Proofs.Canonical

namespace X86Layout

namespace ReadM

/-- Fields of these widths follow each other from `start` on, with `available` bytes to fill them:
the first one that is not filled, and where it starts. -/
def firstCut : List (Field × Nat) → Nat → Nat → Option (Field × Nat)
  | [], _, _ => none
  | (field, width) :: fields, start, available =>
    if available < width then some (field, start)
    else firstCut fields (start + width) (available - width)

def totalWidth : List (Field × Nat) → Nat
  | [] => 0
  | (_, width) :: fields => width + totalWidth fields

theorem totalWidth_append (fields more : List (Field × Nat)) :
    totalWidth (fields ++ more) = totalWidth fields + totalWidth more := by
  induction fields with
  | nil => simp [totalWidth]
  | cons head fields ih =>
    simp only [List.cons_append, totalWidth, ih]
    omega

theorem firstCut_append (fields more : List (Field × Nat)) (start available : Nat) :
    firstCut (fields ++ more) start available =
      (firstCut fields start available).or
        (firstCut more (start + totalWidth fields) (available - totalWidth fields)) := by
  induction fields generalizing start available with
  | nil => simp [firstCut, totalWidth]
  | cons head fields ih =>
    obtain ⟨field, width⟩ := head
    simp only [List.cons_append, firstCut]
    by_cases h : available < width
    · simp [h]
    · simp only [h, ↓reduceIte, ih, totalWidth]
      rw [Nat.add_assoc, Nat.sub_sub]

/-- The action reads fields of these widths: it fails at the first that is cut short, and if none
is, it succeeds right behind the last. -/
def Demands {α : Type} (action : ReadM α) (r : Reader) (fields : List (Field × Nat)) : Prop :=
  match firstCut fields r.position r.remaining with
  | some (field, start) => action.run r = .error (.truncated field start)
  | none => ∃ a after, action.run r = .ok (a, after) ∧
      after.position = r.position + totalWidth fields ∧
      r.remaining = totalWidth fields + after.remaining

theorem demands_pure {α : Type} (a : α) (r : Reader) : Demands (pure a) r [] :=
  ⟨a, r, rfl, by simp [totalWidth], by simp [totalWidth]⟩

theorem demands_take (n : Nat) (field : Field) (r : Reader) :
    Demands (Reader.take n field) r [(field, n)] := by
  have hrun : (Reader.take n field).run r =
      if n ≤ r.remaining then .ok (r.rest.take n, r.advance n)
      else .error (.truncated field r.position) := rfl
  by_cases h : r.remaining < n
  · have hcut : firstCut [(field, n)] r.position r.remaining = some (field, r.position) := by
      simp [firstCut, h]
    have hn : ¬ n ≤ r.remaining := by omega
    simp only [Demands, hcut, hrun, hn, ↓reduceIte]
  · have hcut : firstCut [(field, n)] r.position r.remaining = none := by
      simp [firstCut, h]
    have hn : n ≤ r.remaining := by omega
    simp only [Demands, hcut, hrun, hn, ↓reduceIte]
    refine ⟨_, _, rfl, ?_, ?_⟩
    · rw [Reader.position_advance]
      simp [totalWidth, hn]
    · simp only [Reader.remaining] at hn
      simp only [Reader.remaining, Reader.advance, List.length_drop, totalWidth]
      omega

theorem demands_byte (field : Field) (r : Reader) : Demands (Reader.byte field) r [(field, 1)] := by
  obtain ⟨taken, rest⟩ := r
  cases rest with
  | nil => rfl
  | cons b rest => exact ⟨b, ⟨taken ++ [b], rest⟩, rfl, by simp [Reader.position, totalWidth],
      by simp [Reader.remaining, totalWidth]; omega⟩

theorem Demands.bind {α β : Type} {x : ReadM α} {f : α → ReadM β} {r : Reader}
    {fields more : List (Field × Nat)} (hx : Demands x r fields)
    (hf : ∀ a mid, x.run r = .ok (a, mid) → Demands (f a) mid more) :
    Demands (x >>= f) r (fields ++ more) := by
  unfold Demands at hx ⊢
  rw [firstCut_append]
  cases hcut : firstCut fields r.position r.remaining with
  | some cut =>
    simp only [hcut, Option.some_or] at hx ⊢
    rw [StateT.run_bind, hx]
    rfl
  | none =>
    simp only [hcut, Option.none_or] at hx ⊢
    obtain ⟨a, mid, hrun, hpos, hrem⟩ := hx
    have hmid := hf a mid hrun
    unfold Demands at hmid
    rw [hpos, show mid.remaining = r.remaining - totalWidth fields by omega] at hmid
    have hstep : (x >>= f).run r = (f a).run mid := by
      rw [StateT.run_bind, hrun]
      rfl
    rw [hstep]
    cases hmore : firstCut more (r.position + totalWidth fields)
        (r.remaining - totalWidth fields) with
    | some cut => simpa only [hmore] using hmid
    | none =>
      simp only [hmore] at hmid ⊢
      obtain ⟨b, after, hb, hpos', hrem'⟩ := hmid
      have htotal := totalWidth_append fields more
      exact ⟨b, after, hb, by omega, by omega⟩

theorem Demands.map {α β : Type} {x : ReadM α} {r : Reader} {fields : List (Field × Nat)}
    (g : α → β) (hx : Demands x r fields) : Demands (g <$> x) r fields := by
  rw [← bind_pure_comp]
  have h := hx.bind fun a mid _ => demands_pure (g a) mid
  rwa [List.append_nil] at h

/-- A field of no width is never cut. -/
theorem demands_skip {α : Type} {x : ReadM α} {r : Reader} {field : Field}
    {fields : List (Field × Nat)} : Demands x r ((field, 0) :: fields) ↔ Demands x r fields := by
  simp [Demands, firstCut, totalWidth]

/-- The field that is cut short is one of those that were asked for. -/
theorem mem_of_firstCut {fields : List (Field × Nat)} {start available : Nat} {cut : Field × Nat}
    (h : firstCut fields start available = some cut) : cut.1 ∈ fields.map Prod.fst := by
  induction fields generalizing start available with
  | nil => cases h
  | cons head fields ih =>
    obtain ⟨field, width⟩ := head
    simp only [firstCut] at h
    split at h
    · cases h
      exact List.mem_cons_self
    · exact List.mem_cons_of_mem _ (ih h)

theorem Demands.truncated_of_error {α : Type} {action : ReadM α} {r : Reader}
    {fields : List (Field × Nat)} {e : DecodeError} (h : Demands action r fields)
    (he : action.run r = .error e) :
    ∃ field ∈ fields.map Prod.fst, ∃ offset, e = .truncated field offset := by
  unfold Demands at h
  cases hcut : firstCut fields r.position r.remaining with
  | some cut =>
    simp only [hcut] at h
    rw [he] at h
    cases h
    exact ⟨cut.1, mem_of_firstCut hcut, cut.2, rfl⟩
  | none =>
    simp only [hcut] at h
    obtain ⟨a, after, hok, _⟩ := h
    rw [he] at hok
    cases hok

end ReadM

/-- The number of SIB bytes that follow. -/
def ModRM.sibSize (m : ModRM) : Nat := if m.needsSIB then 1 else 0

/-- The number of displacement bytes that follow. -/
def ModRM.displacementSize (mode : Mode) (m : ModRM) : Nat :=
  (m.displacementWidth? mode).elim 0 Width.bytes

namespace ReadM

theorem demands_readSIB (m : ModRM) (r : Reader) :
    Demands (Addressing.readSIB m) r [(.sib, m.sibSize)] := by
  unfold Addressing.readSIB ModRM.sibSize
  cases m.needsSIB with
  | false => exact demands_skip.mpr (demands_pure none r)
  | true => exact (demands_byte .sib r).bind fun b mid _ => demands_pure (some (SIB.ofByte b)) mid

theorem demands_readDisplacement (mode : Mode) (m : ModRM) (r : Reader) :
    Demands (Addressing.readDisplacement mode m) r [(.displacement, m.displacementSize mode)] := by
  unfold Addressing.readDisplacement ModRM.displacementSize
  cases m.displacementWidth? mode with
  | none => exact demands_skip.mpr (demands_pure none r)
  | some w =>
    apply Demands.map
    exact (demands_take w.bytes .displacement r).bind fun _ mid _ => demands_pure _ mid

/-- What follows the ModRM byte is decided by that byte, so without it the sizes may be anything. -/
theorem demands_addressing {mode : Mode} {r : Reader} {sib displacement : Nat}
    (h : ∀ b, r.peek? = some b → sib = (ModRM.ofByte b).sibSize ∧
      displacement = (ModRM.ofByte b).displacementSize mode) :
    Demands (Addressing.read mode) r
      [(.modrm, 1), (.sib, sib), (.displacement, displacement)] := by
  apply (demands_byte .modrm r).bind
  intro b mid hb
  obtain ⟨_, hrest, _⟩ := (accepts_byte .modrm r b mid).mp hb
  have hpeek : r.peek? = some b := by simp [Reader.peek?, hrest]
  obtain ⟨rfl, rfl⟩ := h b hpeek
  apply (demands_readSIB (.ofByte b) mid).bind
  intro s mid' _
  exact (demands_readDisplacement mode (.ofByte b) mid').bind fun _ after _ => demands_pure _ after

end ReadM

namespace Decoder

theorem demands_readAddressing {mode : Mode} {o : Opcode} {r : Reader} {modrm : Option ModRM}
    (hm : modrm = if o.hasModRM then r.peek?.map .ofByte else none) :
    ReadM.Demands (readAddressing mode o) r
      [(.modrm, if o.hasModRM then 1 else 0), (.sib, modrm.elim 0 ModRM.sibSize),
        (.displacement, modrm.elim 0 (ModRM.displacementSize mode))] := by
  unfold readAddressing
  cases ho : o.hasModRM with
  | false =>
    simp only [ho, Bool.false_eq_true, ↓reduceIte] at hm ⊢
    subst modrm
    exact ReadM.demands_skip.mpr (ReadM.demands_skip.mpr (ReadM.demands_skip.mpr
      (ReadM.demands_pure none r)))
  | true =>
    simp only [ho, ↓reduceIte] at hm ⊢
    apply ReadM.Demands.map
    apply ReadM.demands_addressing
    intro b hb
    simp [hm, hb]

theorem demands_readImmediate (w : Option Width) (r : Reader) :
    ReadM.Demands (readImmediate w) r [(.immediate, w.elim 0 Width.bytes)] := by
  cases w with
  | none => exact ReadM.demands_skip.mpr (ReadM.demands_pure none r)
  | some w =>
    apply ReadM.Demands.map
    exact (ReadM.demands_take w.bytes .immediate r).bind fun _ mid _ => ReadM.demands_pure _ mid

end Decoder

end X86Layout
