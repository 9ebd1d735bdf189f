import X86Layout.Assembly.Error

namespace X86Layout.Assembly

abbrev Assembler (m : Type → Type) := String → Mode → m (Except AssembleError (List UInt8))

structure Call where
  statement : String
  mode : Mode
  deriving DecidableEq

namespace Assembler

/-- The same assembler, keeping a list of what it was asked. -/
def recording {m : Type → Type} [Monad m] (assemble : Assembler m) :
    Assembler (StateT (List Call) m) := fun statement mode => do
  modify fun calls => calls ++ [⟨statement, mode⟩]
  assemble statement mode

end Assembler

end X86Layout.Assembly
