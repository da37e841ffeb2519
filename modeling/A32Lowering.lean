import A32Lowering.Code.LoadPair
import A32Lowering.Code.BinaryHeap
import A32Lowering.Code.Pending
import A32Lowering.Code.Stream
import A32Lowering.Code.Word
import A32Lowering.CommandLine
import A32Lowering.CommandLine.Arguments
import A32Lowering.Lowering.Access
import A32Lowering.Lowering.Constant
import A32Lowering.Lowering.Fault
import A32Lowering.Lowering.Function
import A32Lowering.Lowering.Helper
import A32Lowering.Lowering.Parameter
import A32Lowering.Lowering.Rules
import A32Lowering.Lowering.Session
import A32Lowering.Lowering.Straight
import A32Lowering.Machine.Immediate
import A32Lowering.Machine.Instr
import A32Lowering.Machine.Register
import A32Lowering.Machine.RegisterSet
import A32Lowering.Main
import A32Lowering.Object.Compile
import A32Lowering.Object.File
import A32Lowering.Object.Memory
import A32Lowering.Object.Target
import A32Lowering.Program.Folder
import A32Lowering.Program.Op
import A32Lowering.Program.Operand
import A32Lowering.Program.Reader
import A32Lowering.Program.Statement
import A32Lowering.Program.Wire
import A32Lowering.Proofs.Accessible
import A32Lowering.Proofs.Action
import A32Lowering.Proofs.Activation
import A32Lowering.Proofs.Agreement
import A32Lowering.Proofs.Arguments
import A32Lowering.Proofs.Assembly
import A32Lowering.Proofs.CalleeSaved
import A32Lowering.Proofs.Comparisons
import A32Lowering.Proofs.Composition
import A32Lowering.Proofs.Computation
import A32Lowering.Proofs.Constants
import A32Lowering.Proofs.Decode
import A32Lowering.Proofs.Division
import A32Lowering.Proofs.DoubleWords
import A32Lowering.Proofs.Emission
import A32Lowering.Proofs.Encodable
import A32Lowering.Proofs.ErrorPositions
import A32Lowering.Proofs.Execution
import A32Lowering.Proofs.FileHistory
import A32Lowering.Proofs.Footprint
import A32Lowering.Proofs.FrameSize
import A32Lowering.Proofs.Frames
import A32Lowering.Proofs.Function
import A32Lowering.Proofs.Grammar
import A32Lowering.Proofs.Growth
import A32Lowering.Proofs.ImmediateForms
import A32Lowering.Proofs.Item
import A32Lowering.Proofs.Labels
import A32Lowering.Proofs.Layout
import A32Lowering.Proofs.LineEnds
import A32Lowering.Proofs.Listing
import A32Lowering.Proofs.Lowerable
import A32Lowering.Proofs.Machine
import A32Lowering.Proofs.NumeralGrammar
import A32Lowering.Proofs.Numerals
import A32Lowering.Proofs.Offsets
import A32Lowering.Proofs.Partitions
import A32Lowering.Proofs.PatchSites
import A32Lowering.Proofs.Patching
import A32Lowering.Proofs.Placement
import A32Lowering.Proofs.Positions
import A32Lowering.Proofs.ReadBack
import A32Lowering.Proofs.Reformatting
import A32Lowering.Proofs.References
import A32Lowering.Proofs.Relocations
import A32Lowering.Proofs.Resolution
import A32Lowering.Proofs.Rotations
import A32Lowering.Proofs.Routines
import A32Lowering.Proofs.SavedRegisters
import A32Lowering.Proofs.Selected
import A32Lowering.Proofs.Semantics
import A32Lowering.Proofs.Sentences
import A32Lowering.Proofs.Shifts
import A32Lowering.Proofs.Simulation
import A32Lowering.Proofs.StackFlow
import A32Lowering.Proofs.StraightCode
import A32Lowering.Proofs.Success
import A32Lowering.Proofs.Transfers
import A32Lowering.Proofs.Truncation
import A32Lowering.Proofs.Unprinted
import A32Lowering.Proofs.Values
import A32Lowering.Proofs.Variables
import A32Lowering.Proofs.Waiting
import A32Lowering.Selection.Pattern
import A32Lowering.Selection.Table
import A32Lowering.Text.Basic
import A32Lowering.Text.Blanks
import A32Lowering.Text.Hexadecimal
import A32Lowering.Text.Numeral
import A32Lowering.Text.Printable
import A32Lowering.Text.Quoted
