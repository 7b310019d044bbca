import PZero.Binary.Arithmetic
import PZero.Binary.Format
import PZero.Binary.Numeral
import PZero.Binary.Print
import PZero.Build
import PZero.Bytes
import PZero.CommandLine
import PZero.Diagnostic
import PZero.Disk
import PZero.IR.Draft
import PZero.IR.Instr
import PZero.IR.Module
import PZero.IR.Operand
import PZero.IR.Ty
import PZero.Library
import PZero.Lowering.Basic
import PZero.Lowering.Expr
import PZero.Lowering.Program
import PZero.Lowering.Stmt
import PZero.Machine.Arithmetic
import PZero.Machine.Fault
import PZero.Machine.Memory
import PZero.Machine.Run
import PZero.Machine.Step
import PZero.Machine.Value
import PZero.Main
import PZero.Manifest
import PZero.Operator
import PZero.Options
import PZero.Path
import PZero.Proofs.Build.Outputs
import PZero.Proofs.Compiled.Origin
import PZero.Proofs.Compiled.Valid
import PZero.Proofs.IR.Blocks
import PZero.Proofs.IR.Dominance
import PZero.Proofs.IR.Names
import PZero.Proofs.IR.Structured
import PZero.Proofs.IR.WellTyped
import PZero.Proofs.Lowering.Free
import PZero.Proofs.Lowering.Growth
import PZero.Proofs.Lowering.Inversion
import PZero.Proofs.Lowering.Needs
import PZero.Proofs.Lowering.Order
import PZero.Proofs.Lowering.Program
import PZero.Proofs.Lowering.Structured
import PZero.Proofs.Lowering.Typed
import PZero.Proofs.Machine.Advance
import PZero.Proofs.Machine.Limit
import PZero.Proofs.Machine.Loading
import PZero.Proofs.Machine.Reports
import PZero.Proofs.Machine.State
import PZero.Proofs.Path.Clean
import PZero.Proofs.Refinement.Call
import PZero.Proofs.Refinement.Expr
import PZero.Proofs.Refinement.Link
import PZero.Proofs.Refinement.Module
import PZero.Proofs.Refinement.Outcome
import PZero.Proofs.Refinement.Print
import PZero.Proofs.Refinement.Safety
import PZero.Proofs.Refinement.Simulates
import PZero.Proofs.Refinement.State
import PZero.Proofs.Refinement.Steps
import PZero.Proofs.Refinement.Stmt
import PZero.Proofs.Refinement.Values
import PZero.Proofs.Refinement.Variables
import PZero.Proofs.Semantics.Eval
import PZero.Proofs.Surface.Accepts
import PZero.Proofs.Surface.Faithful
import PZero.Proofs.Surface.Grammar
import PZero.Proofs.Surface.Lexemes
import PZero.Proofs.Surface.Reading
import PZero.Proofs.Surface.Relexing
import PZero.Proofs.Surface.Shape
import PZero.Proofs.Symbol.Spelling
import PZero.Proofs.Typing.Acceptance
import PZero.Proofs.Typing.Decides
import PZero.Proofs.Typing.Declarations
import PZero.Proofs.Typing.Expressions
import PZero.Proofs.Typing.Judgement
import PZero.Proofs.Typing.Layout
import PZero.Proofs.Typing.Literals
import PZero.Proofs.Typing.Program
import PZero.Proofs.Typing.Rules
import PZero.Proofs.Typing.Scope
import PZero.Proofs.Typing.Soundness
import PZero.Source
import PZero.StringLiteral
import PZero.Surface
import PZero.Surface.Parse
import PZero.Surface.ParseError
import PZero.Symbol
import PZero.Text.Blank
import PZero.Text.Printable
import PZero.Text.Quoted
import PZero.Text.Utf8
import PZero.Token
import PZero.Token.Scan
import PZero.Toolchain
import PZero.Typed
import PZero.Typing.Check
import PZero.Typing.Literals
import PZero.Typing.Problem
import PZero.Typing.Scope
import PZero.Proofs.IR.Spelling
import PZero.Proofs.Machine.Faults
import PZero.Proofs.Machine.Message
import PZero.Proofs.Machine.Cut
import PZero.Proofs.Token.Gap
import PZero.Proofs.Token.Tiling
import PZero.Proofs.Machine.Canonical
import PZero.Proofs.Machine.Kept
import PZero.Proofs.Machine.Moments
import PZero.Proofs.Surface.Onward
import PZero.Proofs.Surface.Lockstep
import PZero.Proofs.Surface.Parts
import PZero.Proofs.Typing.Total
import PZero.Proofs.IR.Plain
import PZero.Proofs.IR.Scan
import PZero.Proofs.IR.Readback
import PZero.Proofs.IR.Contents
import PZero.Proofs.IR.Heading
import PZero.Proofs.Lowering.Plain
import PZero.Proofs.Compiled.Text
import PZero.Proofs.IR.Floats
import PZero.Proofs.Machine.Rounding
import PZero.Proofs.Binary.Scale
import PZero.Proofs.Binary.Overflow
import PZero.Proofs.Compiled.Overflow
import PZero.Proofs.Machine.Integers
import PZero.Proofs.Typing.Undetermined
import PZero.Proofs.Typing.Reordering
import PZero.Proofs.Token.Literal
import PZero.Proofs.Token.Classes
import PZero.Proofs.Token.Munch
import PZero.Proofs.Token.Segment
import PZero.Proofs.Compiled.Strings
import PZero.Proofs.Surface.Nodes
import PZero.Proofs.Surface.Spans
import PZero.Proofs.Diagnostic.Order
import PZero.Proofs.Surface.Recovery
import PZero.Proofs.Token.Canonical
import PZero.Proofs.Machine.Layout
import PZero.Proofs.IR.Types
import PZero.Proofs.Machine.Budget
import PZero.Proofs.Options.Count
import PZero.Proofs.Options.Spelling
import PZero.Proofs.Text.Cut
import PZero.Proofs.Text.Trim
import PZero.Proofs.Manifest.Settings
import PZero.Proofs.Manifest.Quoted
import PZero.Proofs.Text.Runes
import PZero.Proofs.Source.Position
import PZero.Proofs.IR.Workshop
import PZero.Proofs.IR.Numbering
import PZero.Proofs.IR.Interning
import PZero.Proofs.IR.Pool
import PZero.Proofs.IR.Escaping
import PZero.Proofs.Resolution.Events
import PZero.Proofs.Resolution.Marks
import PZero.Proofs.Resolution.Accesses
import PZero.Proofs.Resolution.Agreement
import PZero.Proofs.Resolution.Program
