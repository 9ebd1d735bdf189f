import X86Layout.Addressing
import X86Layout.Assembly.Assembler
import X86Layout.Assembly.Corpus
import X86Layout.Assembly.Error
import X86Layout.Assembly.Statement
import X86Layout.DecodeError
import X86Layout.Decoder
import X86Layout.Decoder.Progress
import X86Layout.Decoder.Sweep
import X86Layout.Decoder.Text
import X86Layout.Immediate
import X86Layout.Instruction
import X86Layout.LittleEndian
import X86Layout.Log
import X86Layout.ModRM
import X86Layout.Mode
import X86Layout.Mode.Name
import X86Layout.Opcode
import X86Layout.OpcodeMap
import X86Layout.OpcodeMap.Primary
import X86Layout.Prefix
import X86Layout.Proofs.AssembledText
import X86Layout.Proofs.Canonical
import X86Layout.Proofs.Demand
import X86Layout.Proofs.ErrorText
import X86Layout.Proofs.Failure
import X86Layout.Proofs.FieldValue
import X86Layout.Proofs.FirstStatement
import X86Layout.Proofs.LastEdit
import X86Layout.Proofs.MapLocality
import X86Layout.Proofs.ModeAgreement
import X86Layout.Proofs.ModeGrammar
import X86Layout.Proofs.Narration
import X86Layout.Proofs.OverrideDuality
import X86Layout.Proofs.PrefixGrammar
import X86Layout.Proofs.PrefixIndependence
import X86Layout.Proofs.PrefixRun
import X86Layout.Proofs.PrimaryRefusals
import X86Layout.Proofs.Quiet
import X86Layout.Proofs.ReadHistory
import X86Layout.Proofs.Reading
import X86Layout.Proofs.RecordInvariant
import X86Layout.Proofs.Relocation
import X86Layout.Proofs.RexTransparency
import X86Layout.Proofs.RoundTrip
import X86Layout.Proofs.SegmentRules
import X86Layout.Proofs.SessionHistory
import X86Layout.Proofs.Tiling
import X86Layout.Proofs.Trimming
import X86Layout.Proofs.Truncation
import X86Layout.Proofs.Viability
import X86Layout.Reader
import X86Layout.Reader.Forward
import X86Layout.Reader.Step
import X86Layout.Segment
import X86Layout.Segment.Selection
import X86Layout.Session
import X86Layout.Text.Blank
import X86Layout.Text.Numeral
import X86Layout.Width
