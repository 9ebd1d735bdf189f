import X86Layout.Proofs.Failure

namespace X86Layout

/-- The same error with `n` more bytes in front. Only a truncation says where it happened. -/
def DecodeError.shift (n : Nat) : DecodeError → DecodeError
  | truncated field offset => truncated field (n + offset)
  | e => e

theorem DecodeError.shift_shift (m n : Nat) (e : DecodeError) :
    (e.shift n).shift m = e.shift (m + n) := by
  cases e with
  | truncated field offset => simp [shift, Nat.add_assoc]
  | _ => rfl

namespace Reader

/-- The same position with more bytes in front. -/
def behind (front : List UInt8) (r : Reader) : Reader := ⟨front ++ r.taken, r.rest⟩

@[simp] theorem position_behind (front : List UInt8) (r : Reader) :
    (r.behind front).position = front.length + r.position := by
  simp [behind, position]

theorem behind_taken (r : Reader) : (Reader.ofBytes r.rest).behind r.taken = r := by
  simp [behind, ofBytes]

end Reader

namespace ReadM

/-- An outcome with `front` put before the bytes it was read from. -/
def relocate {α : Type} (front : List UInt8) :
    Except DecodeError (α × Reader) → Except DecodeError (α × Reader)
  | .ok (a, after) => .ok (a, after.behind front)
  | .error e => .error (e.shift front.length)

/-- What was taken before has no part in what is read, only in where it is said to be. -/
def Relocatable {α : Type} (action : ReadM α) : Prop :=
  ∀ front r, action.run (r.behind front) = relocate front (action.run r)

theorem Relocatable.pure {α : Type} (a : α) : Relocatable (Pure.pure a : ReadM α) := by
  intro front r
  rfl

theorem Relocatable.bind {α β : Type} {x : ReadM α} {f : α → ReadM β} (hx : Relocatable x)
    (hf : ∀ a, Relocatable (f a)) : Relocatable (x >>= f) := by
  intro front r
  rw [StateT.run_bind, StateT.run_bind, hx]
  cases x.run r with
  | error e => rfl
  | ok pair => exact hf pair.1 front pair.2

theorem Relocatable.map {α β : Type} {x : ReadM α} (g : α → β) (hx : Relocatable x) :
    Relocatable (g <$> x) := by
  rw [← bind_pure_comp]
  exact hx.bind fun a => .pure (g a)

theorem relocatable_take (n : Nat) (field : Field) : Relocatable (Reader.take n field) := by
  intro front r
  have hrun : ∀ s : Reader, (Reader.take n field).run s =
      if n ≤ s.rest.length then .ok (s.rest.take n, s.advance n)
      else .error (.truncated field s.position) := fun _ => rfl
  rw [hrun, hrun]
  change (if n ≤ r.rest.length then _ else _) = _
  split
  · simp [relocate, Reader.behind, Reader.advance]
  · simp [relocate, DecodeError.shift]

theorem relocatable_byte (field : Field) : Relocatable (Reader.byte field) := by
  intro front r
  obtain ⟨taken, rest⟩ := r
  cases rest with
  | nil =>
    change Except.error (DecodeError.truncated field (front ++ taken).length) = _
    rw [List.length_append]
    rfl
  | cons b rest =>
    change Except.ok (b, Reader.mk ((front ++ taken) ++ [b]) rest) = _
    rw [List.append_assoc]
    rfl

theorem relocatable_readSIB (m : ModRM) : Relocatable (Addressing.readSIB m) := by
  unfold Addressing.readSIB
  split
  · exact (relocatable_byte .sib).bind fun _ => .pure _
  · exact .pure none

theorem relocatable_readDisplacement (mode : Mode) (m : ModRM) :
    Relocatable (Addressing.readDisplacement mode m) := by
  unfold Addressing.readDisplacement
  split
  · exact .map some ((relocatable_take _ .displacement).bind fun _ => .pure _)
  · exact .pure none

theorem relocatable_addressing (mode : Mode) : Relocatable (Addressing.read mode) :=
  (relocatable_byte .modrm).bind fun b =>
    (relocatable_readSIB (.ofByte b)).bind fun _ =>
      (relocatable_readDisplacement mode (.ofByte b)).bind fun _ => .pure _

end ReadM

namespace Decoder

/-- The result for a body that was read on its own, once these prefixes stand before it. -/
def assemble (d : Decoder) (prefixes : List Prefix) :
    Except DecodeError (Body × Reader) → Except DecodeError Instruction
  | .ok (body, after) => .ok (body.instruction d.mode prefixes (prefixes.length + after.position))
  | .error e => .error (e.shift prefixes.length)

theorem relocatable_readOpcode (d : Decoder) : ReadM.Relocatable d.readOpcode := by
  apply (ReadM.relocatable_byte .opcode).bind
  intro b front r
  cases hr : d.resolve b with
  | ok o => rfl
  | error e =>
    -- a refusal names the byte and not its place
    have hshift : e.shift front.length = e := by
      rcases resolve_error hr with ⟨rfl, _⟩ | ⟨rfl, _⟩ <;> rfl
    change Except.error e = Except.error (e.shift front.length)
    rw [hshift]

theorem relocatable_readAddressing (mode : Mode) (o : Opcode) :
    ReadM.Relocatable (readAddressing mode o) := by
  unfold readAddressing
  split
  · exact .map some (ReadM.relocatable_addressing mode)
  · exact .pure none

theorem relocatable_readImmediate (w : Option Width) : ReadM.Relocatable (readImmediate w) := by
  cases w with
  | none => exact .pure none
  | some w => exact .map some ((ReadM.relocatable_take _ .immediate).bind fun _ => .pure _)

theorem relocatable_readBody (d : Decoder) (size : OperandSize) :
    ReadM.Relocatable (d.readBody size) :=
  (relocatable_readOpcode d).bind fun o =>
    (relocatable_readAddressing d.mode o).bind fun _ =>
      (relocatable_readImmediate _).bind fun _ => .pure _

/-- Decoding is the prefix run, the body read as if it stood alone, and the two put together. -/
theorem decode_eq_assemble (d : Decoder) (bytes : List UInt8) :
    d.decode bytes =
      d.assemble (Prefix.run d.mode bytes)
        ((d.readBody (d.operandSize (Prefix.run d.mode bytes))).run
          (.ofBytes (bytes.drop (Prefix.run d.mode bytes).length))) := by
  have hstart := (afterPrefixes d.mode bytes).behind_taken
  rw [taken_afterPrefixes, rest_afterPrefixes] at hstart
  rw [decode_eq_readBody, ← hstart, relocatable_readBody]
  cases (d.readBody _).run (.ofBytes (bytes.drop (Prefix.run d.mode bytes).length)) with
  | error e =>
    change Except.error (e.shift ((Prefix.run d.mode bytes).map Prefix.byte).length) = _
    rw [List.length_map]
    rfl
  | ok pair =>
    obtain ⟨body, after⟩ := pair
    change Except.ok (body.instruction d.mode _ (after.behind _).position) = _
    rw [Reader.position_behind, List.length_map]
    rfl

end Decoder

end X86Layout
