import X86Layout.Assembly.Assembler
import X86Layout.Assembly.Statement
import X86Layout.Decoder

namespace X86Layout.Decoder
open Assembly

structure TextRun where
  log : Log
  result : Except TextError Instruction

def assembledEvent (statement : String) (bytes : List UInt8) : Log.Entry :=
  .event .debug "assembled" [("statement", .text statement), ("bytes", .byteList bytes)]

def rejectedEvent (statement : String) (e : AssembleError) : Log.Entry :=
  .event .debug "encoder rejected statement"
    [("err", .text e.message), ("statement", .text statement)]

/-- Decodes what the assembler makes of the first statement; without a statement it is not asked. -/
def runText {m : Type → Type} [Monad m] (d : Decoder) (assemble : Assembler m) (text : String) :
    m TextRun := do
  let statement := firstStatement text
  if statement = "" then
    return { log := [], result := .error (.assemble .empty) }
  else
    match ← assemble statement d.mode with
    | .error e => return { log := [rejectedEvent statement e], result := .error (.assemble e) }
    | .ok bytes =>
      let run := d.run bytes
      return {
        log := assembledEvent statement bytes :: run.log
        result := run.result.mapError .decode }

def runTextIn {m : Type → Type} [Monad m] (mode : Mode) (assemble : Assembler m) (text : String) :
    m TextRun :=
  (ofMode mode).runText assemble text

end X86Layout.Decoder
