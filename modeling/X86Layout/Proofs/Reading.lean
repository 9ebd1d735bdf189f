import X86Layout.Proofs.FieldValue
import X86Layout.Reader.Forward

namespace X86Layout

namespace Reader

/-- The second position is reached from the first by taking exactly these bytes. -/
def Consumes (r : Reader) (bs : List UInt8) (after : Reader) : Prop :=
  r.rest = bs ++ after.rest ∧ after.taken = r.taken ++ bs

theorem consumes_nil {r after : Reader} : r.Consumes [] after ↔ after = r := by
  obtain ⟨taken, rest⟩ := r
  obtain ⟨taken', rest'⟩ := after
  simp only [Consumes, List.nil_append, List.append_nil, mk.injEq]
  rw [and_comm, eq_comm (a := rest)]

theorem consumes_append {r after : Reader} {bs cs : List UInt8} :
    r.Consumes (bs ++ cs) after ↔ ∃ mid, r.Consumes bs mid ∧ mid.Consumes cs after := by
  constructor
  · intro h
    obtain ⟨hr, ht⟩ := h
    refine ⟨⟨r.taken ++ bs, cs ++ after.rest⟩, ⟨?_, rfl⟩, rfl, ?_⟩
    · rw [hr, List.append_assoc]
    · rw [ht, List.append_assoc]
  · intro h
    obtain ⟨mid, ⟨hr, ht⟩, hr', ht'⟩ := h
    refine ⟨?_, ?_⟩
    · rw [hr, hr', List.append_assoc]
    · rw [ht', ht, List.append_assoc]

theorem Consumes.position {r after : Reader} {bs : List UInt8} (h : r.Consumes bs after) :
    after.position = r.position + bs.length := by
  simp [Reader.position, h.2]

end Reader

namespace ReadM

theorem pure_ok {α : Type} {a b : α} {r after : Reader} :
    (pure a : ReadM α).run r = .ok (b, after) ↔ b = a ∧ after = r := by
  constructor
  · intro h
    cases h
    exact ⟨rfl, rfl⟩
  · intro h
    obtain ⟨rfl, rfl⟩ := h
    rfl

theorem run_bind_of_ok {α β : Type} {x : ReadM α} {f : α → ReadM β} {r after : Reader} {a : α}
    (h : x.run r = .ok (a, after)) : (x >>= f).run r = (f a).run after := by
  rw [StateT.run_bind, h]
  rfl

theorem run_bind_of_error {α β : Type} {x : ReadM α} {f : α → ReadM β} {r : Reader}
    {e : DecodeError} (h : x.run r = .error e) : (x >>= f).run r = .error e := by
  rw [StateT.run_bind, h]
  rfl

/-- The action yields the valid values and no others, each from its own bytes and from no others. -/
def Accepts {α : Type} (action : ReadM α) (Valid : α → Prop) (encode : α → List UInt8) : Prop :=
  ∀ r a after, action.run r = .ok (a, after) ↔ Valid a ∧ r.Consumes (encode a) after

/-- A field that is not asked for takes no bytes. -/
theorem accepts_none {α : Type} (encode : α → List UInt8) :
    Accepts (pure none : ReadM (Option α)) (fun a => a = none)
      (fun a => (a.map encode).getD []) := by
  intro r a after
  rw [pure_ok]
  cases a with
  | none => simp [Reader.consumes_nil]
  | some a => simp

/-- Reading bytes and then a value off them accepts what has those bytes as its own. -/
theorem Accepts.decoded {α β : Type} {x : ReadM α} {Valid : α → Prop} {encode : α → List UInt8}
    (hx : Accepts x Valid encode) {decode : α → β} {Valid' : β → Prop} {encode' : β → List UInt8}
    (hvalid : ∀ a, Valid a → Valid' (decode a) ∧ encode' (decode a) = encode a)
    (honto : ∀ b, Valid' b → ∃ a, Valid a ∧ decode a = b) :
    Accepts (x >>= fun a => pure (decode a)) Valid' encode' := by
  intro r b after
  rw [bind_ok]
  constructor
  · intro h
    obtain ⟨a, mid, ha, hpure⟩ := h
    obtain ⟨rfl, rfl⟩ := pure_ok.mp hpure
    obtain ⟨hv, hc⟩ := (hx r a after).mp ha
    obtain ⟨hv', he⟩ := hvalid a hv
    rw [he]
    exact ⟨hv', hc⟩
  · intro h
    obtain ⟨hv', hc⟩ := h
    obtain ⟨a, hv, rfl⟩ := honto b hv'
    rw [(hvalid a hv).2] at hc
    exact ⟨a, after, (hx r a after).mpr ⟨hv, hc⟩, pure_ok.mpr ⟨rfl, rfl⟩⟩

theorem Accepts.some {α : Type} {x : ReadM α} {Valid : α → Prop} {encode : α → List UInt8}
    (hx : Accepts x Valid encode) :
    Accepts (Option.some <$> x) (fun a => ∃ b, a = Option.some b ∧ Valid b)
      (fun a => (a.map encode).getD []) := by
  rw [← bind_pure_comp]
  apply hx.decoded
  · intro a ha
    exact ⟨⟨a, rfl, ha⟩, rfl⟩
  · intro b hb
    obtain ⟨a, rfl, ha⟩ := hb
    exact ⟨a, ha, rfl⟩

theorem accepts_byte (field : Field) :
    Accepts (Reader.byte field) (fun _ => True) (fun b => [b]) := by
  intro r b after
  constructor
  · intro h
    exact ⟨trivial, byte_ok h⟩
  · obtain ⟨taken, rest⟩ := r
    obtain ⟨taken', rest'⟩ := after
    intro h
    obtain ⟨_, hr, ht⟩ := h
    change rest = [b] ++ rest' at hr
    change taken' = taken ++ [b] at ht
    subst hr ht
    rfl

theorem accepts_take (n : Nat) (field : Field) :
    Accepts (Reader.take n field) (fun bs => bs.length = n) id := by
  intro r bs after
  change (if n ≤ r.rest.length then Except.ok (r.rest.take n, r.advance n) else _) = _ ↔ _
  constructor
  · intro h
    split at h
    · rename_i hle
      cases h
      exact ⟨List.length_take_of_le hle, (List.take_append_drop n r.rest).symm, rfl⟩
    · cases h
  · obtain ⟨taken, rest⟩ := r
    obtain ⟨taken', rest'⟩ := after
    intro h
    obtain ⟨hn, hr, ht⟩ := h
    change rest = bs ++ rest' at hr
    change taken' = taken ++ bs at ht
    subst hr ht
    simp [Reader.advance, ← hn]

theorem accepts_displacement (w : Width) :
    Accepts (Displacement.read w) (fun d => d.width = w ∧ d.Fits) Displacement.encode := by
  apply (accepts_take w.bytes .displacement).decoded
  · intro bs hlen
    have hpos : 0 < bs.length := by
      rw [hlen]
      exact w.bytes_pos
    have hfits := LittleEndian.fitsSigned_signed hpos
    have hbytes := LittleEndian.signedBytes_signed bs
    rw [hlen] at hfits hbytes
    exact ⟨⟨rfl, hfits⟩, hbytes⟩
  · intro d hd
    obtain ⟨rfl, hfits⟩ := hd
    refine ⟨d.encode, d.length_encode, ?_⟩
    rw [Displacement.encode, LittleEndian.signed_signedBytes d.width.bytes_pos hfits]

theorem accepts_immediate (w : Width) :
    Accepts (Immediate.read w) (fun i => i.width = w ∧ i.Fits) Immediate.encode := by
  apply (accepts_take w.bytes .immediate).decoded
  · intro bs hlen
    have hfits := LittleEndian.fitsUnsigned_value bs
    have hbytes := LittleEndian.bytes_value bs
    rw [hlen] at hfits hbytes
    exact ⟨⟨rfl, hfits⟩, hbytes⟩
  · intro i hi
    obtain ⟨rfl, hfits⟩ := hi
    refine ⟨i.encode, i.length_encode, ?_⟩
    rw [Immediate.encode, LittleEndian.value_bytes_of_fits hfits]

theorem accepts_readSIB (m : ModRM) :
    Accepts (Addressing.readSIB m) (fun s => s.isSome = m.needsSIB)
      (fun s => (s.map SIB.byte).toList) := by
  unfold Addressing.readSIB
  cases m.needsSIB with
  | false =>
    intro r s after
    simp only [Bool.false_eq_true, ↓reduceIte]
    rw [pure_ok]
    cases s with
    | none => simp [Reader.consumes_nil]
    | some s => simp
  | true =>
    apply (accepts_byte .sib).decoded
    · intro b _
      exact ⟨rfl, by simp [SIB.byte_ofByte]⟩
    · intro s hs
      obtain ⟨s, rfl⟩ := Option.isSome_iff_exists.mp hs
      exact ⟨s.byte, trivial, by rw [SIB.ofByte_byte]⟩

theorem accepts_readDisplacement (mode : Mode) (m : ModRM) :
    Accepts (Addressing.readDisplacement mode m)
      (fun d => d.map (·.width) = m.displacementWidth? mode ∧ ∀ x ∈ d, x.Fits)
      (fun d => (d.map Displacement.encode).getD []) := by
  intro r d after
  unfold Addressing.readDisplacement
  cases hw : m.displacementWidth? mode with
  | none =>
    simp only
    rw [accepts_none Displacement.encode r d after]
    cases d <;> simp
  | some w =>
    simp only
    rw [(accepts_displacement w).some r d after]
    cases d <;> simp

end ReadM

namespace Addressing

/-- Everything the ModRM byte asks for is there, and nothing else. -/
structure Complete (mode : Mode) (a : Addressing) : Prop where
  sib : a.sib.isSome = a.modrm.needsSIB
  displacement : a.displacement.map (·.width) = a.modrm.displacementWidth? mode
  fits : ∀ d ∈ a.displacement, d.Fits

theorem encode_eq (a : Addressing) :
    a.encode = [a.modrm.byte] ++ ((a.sib.map SIB.byte).toList ++
      (a.displacement.map Displacement.encode).getD []) := by
  obtain ⟨modrm, sib, displacement⟩ := a
  cases displacement <;> rfl

end Addressing

theorem ReadM.accepts_addressing (mode : Mode) :
    Accepts (Addressing.read mode) (Addressing.Complete mode) Addressing.encode := by
  intro r a after
  unfold Addressing.read
  simp only [bind_ok, pure_ok]
  rw [Addressing.encode_eq, Reader.consumes_append]
  constructor
  · intro h
    obtain ⟨b, r1, hb, s, r2, hs, d, r3, hd, rfl, rfl⟩ := h
    obtain ⟨_, hbc⟩ := (accepts_byte _ r b r1).mp hb
    obtain ⟨hsib, hsc⟩ := (accepts_readSIB _ r1 s r2).mp hs
    obtain ⟨⟨hwidth, hfits⟩, hdc⟩ := (accepts_readDisplacement mode _ r2 d _).mp hd
    refine ⟨⟨hsib, hwidth, hfits⟩, r1, ?_, Reader.consumes_append.mpr ⟨r2, hsc, hdc⟩⟩
    rwa [ModRM.byte_ofByte]
  · intro h
    obtain ⟨⟨hsib, hwidth, hfits⟩, r1, hbc, htail⟩ := h
    obtain ⟨r2, hsc, hdc⟩ := Reader.consumes_append.mp htail
    refine ⟨a.modrm.byte, r1, (accepts_byte _ r _ r1).mpr ⟨trivial, hbc⟩, ?_⟩
    rw [ModRM.ofByte_byte]
    exact ⟨a.sib, r2, (accepts_readSIB _ r1 _ r2).mpr ⟨hsib, hsc⟩,
      a.displacement, after,
      (accepts_readDisplacement mode _ r2 _ after).mpr ⟨⟨hwidth, hfits⟩, hdc⟩, rfl, rfl⟩

end X86Layout
