import Mathlib.Algebra.Group.Int.Defs
import Mathlib.Algebra.Group.Nat.Defs
import X86Layout.Addressing
import X86Layout.Immediate

namespace X86Layout

namespace LittleEndian

/-- The values that `n` bytes hold without a sign. -/
def FitsUnsigned (n v : Nat) : Prop := v < 2 ^ (8 * n)

/-- The values that `n` bytes hold in two's complement. -/
def FitsSigned (n : Nat) (v : Int) : Prop := -2 ^ (8 * n - 1) ≤ v ∧ v < 2 ^ (8 * n - 1)

instance (n v : Nat) : Decidable (FitsUnsigned n v) := inferInstanceAs (Decidable (_ < _))

instance (n : Nat) (v : Int) : Decidable (FitsSigned n v) := inferInstanceAs (Decidable (_ ∧ _))

theorem capacity_eq (n : Nat) : capacity n = 2 ^ (8 * n) := by
  induction n with
  | zero => rfl
  | succ n ih =>
    rw [capacity, ih, Nat.mul_succ, Nat.pow_add, Nat.mul_comm]

/-- The sign takes half of the patterns; without a byte there is no half to take. -/
theorem capacity_eq_double {n : Nat} (hn : 0 < n) : (capacity n : Int) = 2 * 2 ^ (8 * n - 1) := by
  have hexp : 8 * n = (8 * n - 1) + 1 := by omega
  have hpow : capacity n = 2 * 2 ^ (8 * n - 1) := by
    rw [capacity_eq, hexp, Nat.pow_succ, Nat.mul_comm]
    rfl
  rw [hpow]
  push_cast
  rfl

theorem capacity_pos (n : Nat) : 0 < capacity n := by
  rw [capacity_eq]
  exact Nat.two_pow_pos _

theorem fitsUnsigned_value (bs : List UInt8) : FitsUnsigned bs.length (value bs) := by
  have hv := value_lt bs
  rw [capacity_eq] at hv
  exact hv

theorem value_bytes_of_fits {n v : Nat} (h : FitsUnsigned n v) : value (bytes n v) = v := by
  apply value_bytes
  rw [capacity_eq]
  exact h

theorem fitsSigned_signed {bs : List UInt8} (h : 0 < bs.length) :
    FitsSigned bs.length (signed bs) := by
  have hm := capacity_pos bs.length
  have hlow := Int.le_bmod (x := value bs) hm
  have hhigh := Int.bmod_lt (x := value bs) hm
  have hd := capacity_eq_double h
  rw [hd] at hlow hhigh
  unfold FitsSigned signed
  omega

theorem signed_signedBytes {n : Nat} {v : Int} (hn : 0 < n) (h : FitsSigned n v) :
    signed (signedBytes n v) = v := by
  obtain ⟨hlow, hhigh⟩ := h
  have hm := capacity_pos n
  have hd := capacity_eq_double hn
  have hpos := Int.emod_nonneg v (b := capacity n) (by omega)
  have hlt := Int.emod_lt_of_pos v (b := capacity n) (by omega)
  have hvalue : value (signedBytes n v) = (v % capacity n).toNat := value_bytes (by omega)
  rw [signed, hvalue, length_signedBytes, Int.toNat_of_nonneg hpos, Int.emod_bmod]
  apply Int.bmod_eq_of_le_mul_two <;> omega

end LittleEndian

def Displacement.Fits (d : Displacement) : Prop := LittleEndian.FitsSigned d.width.bytes d.value

def Immediate.Fits (i : Immediate) : Prop := LittleEndian.FitsUnsigned i.width.bytes i.value

@[simp] theorem Displacement.length_encode (d : Displacement) :
    d.encode.length = d.width.bytes :=
  LittleEndian.length_signedBytes _ _

@[simp] theorem Immediate.length_encode (i : Immediate) : i.encode.length = i.width.bytes :=
  LittleEndian.length_bytes _ _

end X86Layout
