import PocketCalc.Decimal.Significant
import PocketCalc.Fault
import PocketCalc.Main
import PocketCalc.Panel
import PocketCalc.Proofs.EntryBuffer
import PocketCalc.Proofs.Equals
import PocketCalc.Proofs.FreshStart
import PocketCalc.Proofs.Numerals
import PocketCalc.Proofs.Typing
import PocketCalc.Proofs.ModeIndependence
import PocketCalc.Proofs.KeyScripts
import PocketCalc.Proofs.DanglingTail
import PocketCalc.Proofs.FloatBits
import PocketCalc.Proofs.FloatRounding
import PocketCalc.Proofs.FloatArithmetic
import PocketCalc.Proofs.NumeralDigits
import PocketCalc.Proofs.ShortestName
import PocketCalc.Proofs.ScientificForm
import PocketCalc.Proofs.NumberValue
import PocketCalc.Proofs.RoundedResult
import PocketCalc.Proofs.NumberPadding
import PocketCalc.Proofs.NumberWidth
import PocketCalc.Proofs.DigitRounding
import PocketCalc.Proofs.ResultReading
import PocketCalc.Proofs.RepeatedEquals
import PocketCalc.Proofs.ShownNumber
import PocketCalc.Proofs.ResultWidth
import PocketCalc.Proofs.SkippedEntries
import PocketCalc.Proofs.ImplicitMultiplication
import PocketCalc.Proofs.Undo
import PocketCalc.Proofs.Emptying
import PocketCalc.Proofs.RoundedName
import PocketCalc.Proofs.FormatterRange
import PocketCalc.Proofs.LineReading
import PocketCalc.Proofs.NumberEntry
import PocketCalc.Proofs.ZeroDivisor
import PocketCalc.Proofs.StyledText
import PocketCalc.Proofs.Completion
import PocketCalc.Proofs.InteractiveLoop
