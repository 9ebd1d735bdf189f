import X86Layout.Decoder
import X86Layout.Reader.Forward

namespace X86Layout.Decoder

theorem bind_ok {α β : Type} {x : DecodeM α} {f : α → DecodeM β} {s t : State} {b : β} :
    (x >>= f).run.run s = (.ok b, t) ↔
      ∃ a u, x.run.run s = (.ok a, u) ∧ (f a).run.run u = (.ok b, t) := by
  rw [ExceptT.run_bind, StateT.run_bind]
  obtain ⟨result, u⟩ : _ × _ := x.run.run s
  cases result with
  | error e =>
    constructor
    · intro h
      cases h
    · rintro ⟨a, v, h, _⟩
      cases h
  | ok a =>
    constructor
    · intro h
      exact ⟨a, u, rfl, h⟩
    · rintro ⟨c, v, h, hf⟩
      cases h
      exact hf

theorem run_read {α : Type} (action : ReadM α) (s : State) :
    (read action).run.run s =
      match action.run s.reader with
      | .ok (a, reader) => (Except.ok a, { s with reader })
      | .error e => (Except.error e, s) :=
  rfl

theorem read_ok {α : Type} {action : ReadM α} {s t : State} {a : α}
    (h : (read action).run.run s = (.ok a, t)) : action.run s.reader = .ok (a, t.reader) := by
  rw [run_read] at h
  split at h
  · rename_i he
    cases h
    exact he
  · cases h

/-- Success never moves a position backwards. -/
def Forward {α : Type} (action : DecodeM α) : Prop :=
  ∀ s a t, action.run.run s = (.ok a, t) → s.reader.Precedes t.reader

theorem Forward.pure {α : Type} (a : α) : Forward (Pure.pure a : DecodeM α) := by
  intro s b t h
  cases h
  exact .refl s.reader

theorem Forward.bind {α β : Type} {x : DecodeM α} {f : α → DecodeM β} (hx : Forward x)
    (hf : ∀ a, Forward (f a)) : Forward (x >>= f) := by
  intro s b t h
  obtain ⟨a, u, h1, h2⟩ := bind_ok.mp h
  exact (hx s a u h1).trans (hf a u b t h2)

theorem forward_read {α : Type} {action : ReadM α} (h : ReadM.Forward action) :
    Forward (read action) := by
  intro s a t hr
  exact h s.reader a t.reader (read_ok hr)

theorem forward_emit (entry : Log.Entry) : Forward (emit entry) := by
  intro s a t h
  cases h
  exact .refl s.reader

theorem forward_addressing (d : Decoder) (o : Opcode) : Forward (d.addressing o) := by
  unfold addressing
  split
  · exact (forward_read (ReadM.forward_addressing d.mode)).bind fun a =>
      (forward_emit _).bind fun _ => .pure (some a)
  · exact .pure none

theorem forward_immediate (width : Option Width) : Forward (immediate width) := by
  unfold immediate
  split
  · rename_i w
    exact (forward_emit _).bind fun _ =>
      (forward_read (ReadM.forward_immediate w)).bind fun i => .pure (some i)
  · exact .pure none

theorem opcode_position_pos {d : Decoder} {s t : State} {o : Opcode}
    (h : d.opcode.run.run s = (.ok o, t)) : 0 < t.reader.position := by
  obtain ⟨p, u, hp, hrest⟩ := bind_ok.mp h
  obtain ⟨b, mid, hb, hres⟩ := ReadM.bind_ok.mp (read_ok hp)
  have hmid : 0 < mid.position := by
    obtain ⟨_, ht⟩ := ReadM.byte_ok hb
    simp [Reader.position, ht]
  have hu : u.reader = mid := by
    cases hr : d.resolve b with
    | error e =>
      rw [hr] at hres
      cases hres
    | ok q =>
      rw [hr] at hres
      cases hres
      rfl
  have hle := (((forward_emit _).bind fun _ => Forward.pure p) u o t hrest).position_le
  rw [hu] at hle
  omega

theorem body_position_pos {d : Decoder} {size : OperandSize} {s t : State} {b : Body}
    (h : (d.body size).run.run s = (.ok b, t)) : 0 < t.reader.position := by
  obtain ⟨o, s1, ho, h⟩ := bind_ok.mp h
  obtain ⟨a, s2, ha, h⟩ := bind_ok.mp h
  have hpos := opcode_position_pos ho
  have hle := (forward_addressing d o s1 a s2 ha).position_le
  have hle' := (((forward_immediate _).bind fun _ => Forward.pure _) s2 b t h).position_le
  omega

theorem instruction_length_pos {d : Decoder} {s t : State} {i : Instruction}
    (h : d.instruction.run.run s = (.ok i, t)) : 0 < i.length := by
  obtain ⟨ps, s1, _, h⟩ := bind_ok.mp h
  obtain ⟨b, s2, hb, h⟩ := bind_ok.mp h
  have hlength : i.length = s2.reader.position := by
    cases h
    rfl
  rw [hlength]
  exact body_position_pos hb

theorem decode_length_pos {d : Decoder} {bytes : List UInt8} {i : Instruction}
    (h : d.decode bytes = .ok i) : 0 < i.length :=
  instruction_length_pos (t := (d.instruction.run.run ⟨.ofBytes bytes, d.opening bytes⟩).2)
    (Prod.ext h rfl)

end X86Layout.Decoder
