import X86Layout.Decoder.Progress

namespace X86Layout.Decoder

structure Swept where
  offset : Nat
  run : Run

/-- Error offsets count from the start of the instruction that failed, not from `offset`. -/
def sweepFrom (d : Decoder) (offset : Nat) (bytes : List UInt8) : List Swept :=
  if bytes = [] then []
  else
    let run := d.run bytes
    match h : run.result with
    | .error _ => [⟨offset, run⟩]
    | .ok i =>
      have := decode_length_pos h
      ⟨offset, run⟩ :: d.sweepFrom (offset + i.length) (bytes.drop i.length)
termination_by bytes.length
decreasing_by
  have hb : 0 < bytes.length := List.length_pos_iff.mpr ‹_›
  rw [List.length_drop]
  omega

/-- One instruction after the other, up to the end of the buffer or the first error. -/
def sweep (d : Decoder) (bytes : List UInt8) : List Swept := d.sweepFrom 0 bytes

/-- A decode of every leading part, from nothing to the whole. -/
def truncations (d : Decoder) (bytes : List UInt8) : List Run :=
  (List.range (bytes.length + 1)).map fun n => d.run (bytes.take n)

end X86Layout.Decoder
