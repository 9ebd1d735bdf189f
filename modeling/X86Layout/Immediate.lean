import X86Layout.LittleEndian
import X86Layout.Reader
import X86Layout.Width

namespace X86Layout

structure Immediate where
  width : Width
  value : Nat
  deriving DecidableEq

namespace Immediate

/-- An immediate is unsigned at its own width. -/
def read (w : Width) : ReadM Immediate := do
  let bs ← Reader.take w.bytes .immediate
  return ⟨w, LittleEndian.value bs⟩

def encode (i : Immediate) : List UInt8 := LittleEndian.bytes i.width.bytes i.value

end Immediate

end X86Layout
