import StackCode.Assembly.Basic
import StackCode.Code.Recipe
import StackCode.Graph.OfBytecode
import StackCode.InstructionSet.Small
import StackCode.Pattern.Enumeration
import StackCode.Pattern.Outline
import StackCode.Proofs.Assembly.Grouping
import StackCode.Proofs.Assembly.LineTags
import StackCode.Proofs.Assembly.Looser
import StackCode.Proofs.Assembly.RelativeWidth
import StackCode.Proofs.Assembly.Strict
import StackCode.Proofs.Bytecode.Grammar
import StackCode.Proofs.Bytecode.NormalForm
import StackCode.Proofs.Bytecode.ShortestTable
import StackCode.Proofs.Canonical
import StackCode.Proofs.Code.Deleting
import StackCode.Proofs.Code.Inserting
import StackCode.Proofs.Graph.FreshId
import StackCode.Proofs.Graph.Waiting
import StackCode.Proofs.Instruction.Entering
import StackCode.Proofs.InstructionSet.Slots
import StackCode.Proofs.Pattern.Anchored
import StackCode.Proofs.Pattern.Balance
import StackCode.Proofs.Pattern.Composition
import StackCode.Proofs.Pattern.Counts
import StackCode.Proofs.Pattern.Lookups
import StackCode.Proofs.Pattern.Rollback
import StackCode.Proofs.StackRange
import StackCode.Proofs.Table.Indexed
