namespace X86Layout.LittleEndian

def value : List UInt8 → Nat
  | [] => 0
  | b :: bs => b.toNat + 256 * value bs

/-- The number of values that `n` bytes tell apart. -/
def capacity : Nat → Nat
  | 0 => 1
  | n + 1 => 256 * capacity n

/-- The same bytes read as two's complement. -/
def signed (bs : List UInt8) : Int := Int.bmod (value bs) (capacity bs.length)

def bytes : Nat → Nat → List UInt8
  | 0, _ => []
  | n + 1, v => UInt8.ofNat v :: bytes n (v / 256)

def signedBytes (n : Nat) (v : Int) : List UInt8 := bytes n (v % capacity n).toNat

@[simp] theorem length_bytes (n v : Nat) : (bytes n v).length = n := by
  induction n generalizing v with
  | zero => rfl
  | succ n ih => simp [bytes, ih]

@[simp] theorem length_signedBytes (n : Nat) (v : Int) : (signedBytes n v).length = n :=
  length_bytes n _

theorem value_lt (bs : List UInt8) : value bs < capacity bs.length := by
  induction bs with
  | nil => simp [value, capacity]
  | cons b bs ih =>
    have hb := b.toNat_lt
    simp only [value, capacity, List.length_cons]
    omega

theorem bytes_value (bs : List UInt8) : bytes bs.length (value bs) = bs := by
  induction bs with
  | nil => rfl
  | cons b bs ih =>
    have hb := b.toNat_lt
    have hq : (b.toNat + 256 * value bs) / 256 = value bs := by omega
    have hr : UInt8.ofNat (b.toNat + 256 * value bs) = b := by
      apply UInt8.toNat_inj.mp
      rw [UInt8.toNat_ofNat']
      omega
    simp only [List.length_cons, value, bytes, hq, hr, ih]

theorem value_bytes {n v : Nat} (h : v < capacity n) : value (bytes n v) = v := by
  induction n generalizing v with
  | zero =>
    simp only [capacity] at h
    simp only [bytes, value]
    omega
  | succ n ih =>
    have hq : v / 256 < capacity n := by
      simp only [capacity] at h
      omega
    simp only [bytes, value, ih hq, UInt8.toNat_ofNat']
    omega

theorem signedBytes_signed (bs : List UInt8) : signedBytes bs.length (signed bs) = bs := by
  have hv := value_lt bs
  have hm : (signed bs % capacity bs.length).toNat = value bs := by
    unfold signed
    rw [Int.bmod_emod, Int.emod_eq_of_lt (by omega) (by omega)]
    omega
  rw [signedBytes, hm, bytes_value]

end X86Layout.LittleEndian
