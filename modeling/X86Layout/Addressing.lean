import X86Layout.LittleEndian
import X86Layout.ModRM
import X86Layout.Reader

namespace X86Layout

structure Displacement where
  width : Width
  value : Int
  deriving DecidableEq

namespace Displacement

/-- A displacement is signed at its own width. -/
def read (w : Width) : ReadM Displacement := do
  let bs ← Reader.take w.bytes .displacement
  return ⟨w, LittleEndian.signed bs⟩

def encode (d : Displacement) : List UInt8 := LittleEndian.signedBytes d.width.bytes d.value

end Displacement

/-- The ModRM byte and what it brings with it. -/
structure Addressing where
  modrm : ModRM
  sib : Option SIB
  displacement : Option Displacement
  deriving DecidableEq

namespace Addressing

def readSIB (m : ModRM) : ReadM (Option SIB) := do
  if m.needsSIB then
    return some (SIB.ofByte (← Reader.byte .sib))
  else
    return none

def readDisplacement (mode : Mode) (m : ModRM) : ReadM (Option Displacement) :=
  match m.displacementWidth? mode with
  | some w => some <$> Displacement.read w
  | none => pure none

def read (mode : Mode) : ReadM Addressing := do
  let modrm := ModRM.ofByte (← Reader.byte .modrm)
  let sib ← readSIB modrm
  let displacement ← readDisplacement mode modrm
  return { modrm, sib, displacement }

def displacementSize (a : Addressing) : Nat :=
  match a.displacement with
  | some d => d.width.bytes
  | none => 0

def encode (a : Addressing) : List UInt8 :=
  a.modrm.byte :: (a.sib.map SIB.byte).toList ++
    match a.displacement with
    | some d => d.encode
    | none => []

end Addressing

end X86Layout
