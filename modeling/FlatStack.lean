import FlatStack.Main
import FlatStack.Program.Printer
import FlatStack.Proofs.ControlIntegrity
import FlatStack.Proofs.Correctness
import FlatStack.Proofs.Derivation
import FlatStack.Proofs.ParserSoundness
import FlatStack.Proofs.ParserCompleteness
import FlatStack.Proofs.ParserProgress
import FlatStack.Proofs.ParserExactness
import FlatStack.Proofs.Occurrences
import FlatStack.Proofs.WellScoped
import FlatStack.Proofs.Offenses
import FlatStack.Proofs.Placement
import FlatStack.Proofs.Resolution
import FlatStack.Proofs.FreshSlots
import FlatStack.Proofs.PendingOperands
import FlatStack.Proofs.Packing
import FlatStack.Proofs.Nearest
import FlatStack.Proofs.ShortestDigits
import FlatStack.Proofs.Texts
import FlatStack.Proofs.WrittenNumbers
import FlatStack.Proofs.CodeText
import FlatStack.Proofs.Drawn
import FlatStack.Proofs.PlainNumbers
import FlatStack.Proofs.SavedCode
import FlatStack.Proofs.Places
import FlatStack.Proofs.Tiling
import FlatStack.Proofs.Respacing
import FlatStack.Proofs.FrontEnds
import FlatStack.Proofs.Relocation
import FlatStack.Proofs.Reuse
import FlatStack.Proofs.Undeclared
import FlatStack.Proofs.StackLimit
import FlatStack.Proofs.Disks
import FlatStack.Proofs.CompiledFiles
import FlatStack.Proofs.Layout
import FlatStack.Proofs.Addresses
import FlatStack.Proofs.Begun
import FlatStack.Proofs.ProgramShapes
import FlatStack.Proofs.EarliestErrors
import FlatStack.Proofs.CutTokens
import FlatStack.Proofs.ArithmeticConditions
import FlatStack.Proofs.TruthValues
import FlatStack.Proofs.Faulting
import FlatStack.Proofs.OtherConsoles
import FlatStack.Proofs.FullConsole
import FlatStack.Proofs.UnreadInput
import FlatStack.Proofs.Casts
import FlatStack.Proofs.CheckedSteps
import FlatStack.Proofs.Brackets
import FlatStack.Proofs.BracketedPrograms
import FlatStack.Proofs.TableHistories
import FlatStack.Proofs.ParserTermination
import FlatStack.Proofs.CompileHistories
