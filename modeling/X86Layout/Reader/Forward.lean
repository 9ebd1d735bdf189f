import X86Layout.Addressing
import X86Layout.Immediate

namespace X86Layout

namespace Reader

/-- The second position is reached from the first by taking bytes off the front. -/
def Precedes (r after : Reader) : Prop :=
  ∃ bs, r.rest = bs ++ after.rest ∧ after.taken = r.taken ++ bs

theorem Precedes.refl (r : Reader) : r.Precedes r := ⟨[], rfl, by simp⟩

theorem Precedes.trans {r s t : Reader} (h : r.Precedes s) (g : s.Precedes t) : r.Precedes t := by
  obtain ⟨bs, hr, ht⟩ := h
  obtain ⟨cs, gr, gt⟩ := g
  exact ⟨bs ++ cs, by rw [hr, gr, List.append_assoc], by rw [gt, ht, List.append_assoc]⟩

theorem Precedes.position_le {r after : Reader} (h : r.Precedes after) :
    r.position ≤ after.position := by
  obtain ⟨bs, _, ht⟩ := h
  simp [position, ht]

theorem Precedes.buffer_eq {r after : Reader} (h : r.Precedes after) :
    after.buffer = r.buffer := by
  obtain ⟨bs, hr, ht⟩ := h
  simp [buffer, hr, ht]

theorem precedes_advance (n : Nat) (r : Reader) : r.Precedes (r.advance n) :=
  ⟨r.rest.take n, (List.take_append_drop n r.rest).symm, rfl⟩

end Reader

namespace ReadM

/-- Success never moves a position backwards. -/
def Forward {α : Type} (action : ReadM α) : Prop :=
  ∀ r a after, action.run r = .ok (a, after) → r.Precedes after

theorem bind_ok {α β : Type} {x : ReadM α} {f : α → ReadM β} {r after : Reader} {b : β} :
    (x >>= f).run r = .ok (b, after) ↔
      ∃ a mid, x.run r = .ok (a, mid) ∧ (f a).run mid = .ok (b, after) := by
  rw [StateT.run_bind]
  cases x.run r with
  | error e =>
    constructor
    · intro h
      cases h
    · rintro ⟨a, mid, h, _⟩
      cases h
  | ok pair =>
    constructor
    · intro h
      exact ⟨pair.1, pair.2, rfl, h⟩
    · rintro ⟨a, mid, h, hf⟩
      cases h
      exact hf

theorem Forward.pure {α : Type} (a : α) : Forward (Pure.pure a : ReadM α) := by
  intro r b after h
  cases h
  exact .refl r

theorem Forward.bind {α β : Type} {x : ReadM α} {f : α → ReadM β} (hx : Forward x)
    (hf : ∀ a, Forward (f a)) : Forward (x >>= f) := by
  intro r b after h
  obtain ⟨a, mid, h1, h2⟩ := bind_ok.mp h
  exact (hx r a mid h1).trans (hf a mid b after h2)

theorem Forward.map {α β : Type} {x : ReadM α} (f : α → β) (hx : Forward x) : Forward (f <$> x) := by
  rw [← bind_pure_comp]
  exact hx.bind fun a => .pure (f a)

theorem forward_take (n : Nat) (field : Field) : Forward (Reader.take n field) := by
  intro r a after h
  change (if n ≤ r.remaining then _ else _) = _ at h
  split at h
  · cases h
    exact Reader.precedes_advance n r
  · cases h

theorem byte_ok {field : Field} {r after : Reader} {b : UInt8}
    (h : (Reader.byte field).run r = .ok (b, after)) :
    r.rest = b :: after.rest ∧ after.taken = r.taken ++ [b] := by
  obtain ⟨taken, rest⟩ := r
  cases rest with
  | nil => cases h
  | cons c rest =>
    cases h
    exact ⟨rfl, rfl⟩

theorem forward_byte (field : Field) : Forward (Reader.byte field) := by
  intro r b after h
  obtain ⟨hr, ht⟩ := byte_ok h
  exact ⟨[b], hr, ht⟩

theorem forward_displacement (w : Width) : Forward (Displacement.read w) :=
  (forward_take w.bytes .displacement).bind fun _ => .pure _

theorem forward_immediate (w : Width) : Forward (Immediate.read w) :=
  (forward_take w.bytes .immediate).bind fun _ => .pure _

theorem forward_readSIB (m : ModRM) : Forward (Addressing.readSIB m) := by
  unfold Addressing.readSIB
  split
  · exact (forward_byte .sib).bind fun _ => .pure _
  · exact .pure none

theorem forward_readDisplacement (mode : Mode) (m : ModRM) :
    Forward (Addressing.readDisplacement mode m) := by
  unfold Addressing.readDisplacement
  split
  · rename_i w _
    exact (forward_displacement w).map some
  · exact .pure none

theorem forward_addressing (mode : Mode) : Forward (Addressing.read mode) :=
  (forward_byte .modrm).bind fun b =>
    (forward_readSIB (.ofByte b)).bind fun _ =>
      (forward_readDisplacement mode (.ofByte b)).bind fun _ => .pure _

end ReadM

end X86Layout
