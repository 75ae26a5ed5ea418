import Bytebeat.CommandLine.Files
import Bytebeat.LiveExpression
import Bytebeat.Main
import Bytebeat.Proofs.Exports
import Bytebeat.Proofs.Finiteness
import Bytebeat.Proofs.Handoff
import Bytebeat.Proofs.Infix
import Bytebeat.Proofs.Influence
import Bytebeat.Proofs.Lending
import Bytebeat.Proofs.Naming
import Bytebeat.Proofs.Notes
import Bytebeat.Proofs.PatchFile
import Bytebeat.Proofs.Performance
import Bytebeat.Proofs.Placement
import Bytebeat.Proofs.Printing
import Bytebeat.Proofs.Refinement
import Bytebeat.Proofs.Refusals
import Bytebeat.Proofs.Signs
import Bytebeat.Proofs.WaveFile
import Bytebeat.Proofs.Parentheses
import Bytebeat.Proofs.PostOrder
import Bytebeat.Proofs.LexicalGrammar
import Bytebeat.Proofs.TooDeep
import Bytebeat.Proofs.LexicalErrors
import Bytebeat.Proofs.Closeness
import Bytebeat.Proofs.Clock
import Bytebeat.Proofs.LiveExpression
import Bytebeat.Proofs.Recordings
import Bytebeat.Proofs.Separators
import Bytebeat.Proofs.Scanner
import Bytebeat.Proofs.Widths
