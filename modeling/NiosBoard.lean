import NiosBoard.Main
import NiosBoard.Proofs.Isa.Coding
import NiosBoard.Proofs.Word
import NiosBoard.Proofs.Assembly.Trace
import NiosBoard.Proofs.Except
import NiosBoard.Proofs.Table
import NiosBoard.Proofs.Assembly.FirstPass
import NiosBoard.Proofs.Assembly.Image
import NiosBoard.Proofs.Assembly.Items
import NiosBoard.Proofs.Assembly.Placement
import NiosBoard.Proofs.Machine.Places
import NiosBoard.Proofs.Machine.Session
import NiosBoard.Proofs.Machine.Fetch
import NiosBoard.Proofs.Machine.Registers
import NiosBoard.Proofs.Machine.Transfer
import NiosBoard.Proofs.Machine.Loading
import NiosBoard.Proofs.Machine.Halting
import NiosBoard.Proofs.Machine.Failure
import NiosBoard.Proofs.Machine.SideEffects
import NiosBoard.Proofs.Machine.Reset
import NiosBoard.Proofs.Machine.FailedLoad
import NiosBoard.Proofs.Expression.Grammar
import NiosBoard.Proofs.Expression.Evaluation
import NiosBoard.Proofs.Assembly.ExpansionLimit
import NiosBoard.Proofs.Expression.Literal
import NiosBoard.Proofs.Text.Operands
import NiosBoard.Proofs.Isa.Notation
import NiosBoard.Proofs.Assembly.Reassembly
import NiosBoard.Proofs.Machine.MemoryMap
import NiosBoard.Proofs.Machine.ByteAccess
import NiosBoard.Proofs.Machine.SerialLine
import NiosBoard.Proofs.Machine.Invariants
import NiosBoard.Proofs.Machine.View
import NiosBoard.Proofs.Machine.EventLog
import NiosBoard.Proofs.Machine.Runs
import NiosBoard.Proofs.Machine.WideAccess
import NiosBoard.Proofs.Machine.RamArray
import NiosBoard.Proofs.Assembly.LineNumbers
import NiosBoard.Proofs.Assembly.BlankLines
import NiosBoard.Proofs.Assembly.StringData
import NiosBoard.Proofs.Text.Template
import NiosBoard.Proofs.Expression.Embedded
import NiosBoard.Proofs.Machine.PseudoImmediates
import NiosBoard.Proofs.Machine.Inspection
import NiosBoard.Proofs.Assembly.LineTable
import NiosBoard.Proofs.Assembly.AddedLabel
import NiosBoard.Proofs.Assembly.DirectiveCase
import NiosBoard.Proofs.Machine.RegisterArithmetic
import NiosBoard.Proofs.Assembly.MacroHeaders
import NiosBoard.Proofs.Assembly.MacroBodies
import NiosBoard.Proofs.Assembly.TextRegion
import NiosBoard.Proofs.Assembly.Renumbering
import NiosBoard.Proofs.Assembly.Interleaving
import NiosBoard.Proofs.Machine.ShownImmediates
import NiosBoard.Proofs.Machine.RegisterHistory
import NiosBoard.Proofs.Expression.Numerals
import NiosBoard.Proofs.Machine.BoardInputs
import NiosBoard.Proofs.Text.Literals
import NiosBoard.Proofs.Text.Parts
import NiosBoard.Proofs.Text.OperandLists
import NiosBoard.Proofs.Assembly.MacroTable
import NiosBoard.Proofs.Machine.EventDelivery
