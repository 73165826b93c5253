import DirectPage.Form.Pseudo
import DirectPage.Form.Result
import DirectPage.Ir.Builder
import DirectPage.Ir.Text
import DirectPage.Main
import DirectPage.Proofs.ArgumentPassing
import DirectPage.Proofs.ClosedCode
import DirectPage.Proofs.Decoding
import DirectPage.Proofs.DynamicBlocks
import DirectPage.Proofs.FlagDiscipline
import DirectPage.Proofs.Linking
import DirectPage.Proofs.LiveSets
import DirectPage.Proofs.LocalAlignment
import DirectPage.Proofs.NarrowCompare
import DirectPage.Proofs.OperandVisits
import DirectPage.Proofs.OperandsFirst
import DirectPage.Proofs.PlacedSelect
import DirectPage.Proofs.RegisterBanks
import DirectPage.Proofs.RegisterNames
import DirectPage.Proofs.Relaxation
import DirectPage.Proofs.ResolvedReferences
import DirectPage.Proofs.StackMoves
import DirectPage.Proofs.StraightLine
import DirectPage.Proofs.SymbolTable
import DirectPage.Register.Name
