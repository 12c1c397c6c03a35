import FluidSizing.Text
import FluidSizing.Text.Position
import FluidSizing.Text.Quoted
import FluidSizing.Binary64.Basic
import FluidSizing.Binary64.Decimal
import FluidSizing.Token.Scan
import FluidSizing.Component
import FluidSizing.Value.Read
import FluidSizing.Value.Walk
import FluidSizing.Number
import FluidSizing.Length
import FluidSizing.Fluid.Settings
import FluidSizing.Fluid.Clamp
import FluidSizing.Fluid.Resolution
import FluidSizing.Processing
import FluidSizing.Json.Scalar
import FluidSizing.Main
import FluidSizing.Proofs.Token.Fence
import FluidSizing.Proofs.Token.Standing
import FluidSizing.Proofs.Token.Plain
import FluidSizing.Proofs.Token.Last
import FluidSizing.Proofs.Token.Ahead
import FluidSizing.Proofs.Token.Closed
import FluidSizing.Proofs.Component.Standing
import FluidSizing.Proofs.Component.Open
import FluidSizing.Proofs.Component.Near
import FluidSizing.Proofs.Component.Reading
import FluidSizing.Proofs.Fluid.Settled
import FluidSizing.Proofs.Text.Splice
import FluidSizing.Proofs.Text.Patched
import FluidSizing.Proofs.Value.Functions
import FluidSizing.Proofs.Value.Segment
import FluidSizing.Proofs.Value.Words
import FluidSizing.Proofs.Value.Lossless
import FluidSizing.Proofs.Value.Closers
import FluidSizing.Proofs.Fluid.Words
import FluidSizing.Proofs.Fluid.Outcome
import FluidSizing.Proofs.Fluid.Call
import FluidSizing.Proofs.Fluid.Frame
import FluidSizing.Proofs.Fluid.SizeText
import FluidSizing.Proofs.Fluid.SizeNode
import FluidSizing.Proofs.Fluid.Replacement
import FluidSizing.Proofs.Fluid.ReplacedCall
import FluidSizing.Proofs.Fluid.Idempotence
import FluidSizing.Proofs.Fluid.Report
import FluidSizing.Proofs.Fluid.Reread
import FluidSizing.Proofs.Sheet.LaidOut
import FluidSizing.Proofs.Processing
import FluidSizing.Proofs.Text.Trim
import FluidSizing.Proofs.Token.Letters
import FluidSizing.Proofs.Sheet.RawValue
import FluidSizing.Proofs.Sheet.InPlace
import FluidSizing.Proofs.Sheet.Rewriting
import FluidSizing.Proofs.Sheet.Structure
import FluidSizing.Proofs.Sheet.SecondPass
import FluidSizing.Proofs.Sheet.Tails
import FluidSizing.Proofs.Sheet.Written
import FluidSizing.Proofs.Fluid.Pattern
import FluidSizing.Proofs.Untouched
import FluidSizing.Proofs.Sheet.Nested
import FluidSizing.Proofs.Component.Joined
import FluidSizing.Proofs.Value.Arguments
import FluidSizing.Proofs.Value.Walk
import FluidSizing.Proofs.Value.Spacing
import FluidSizing.Proofs.Fluid.Joined
import FluidSizing.Proofs.Fluid.Written
import FluidSizing.Proofs.CommandLine.Run
import FluidSizing.Proofs.Binary64.Nearest
import FluidSizing.Proofs.Binary64.DecimalText
import FluidSizing.Proofs.Binary64.Shortest
import FluidSizing.Proofs.Number
import FluidSizing.Proofs.Length
import FluidSizing.Proofs.Text.Location
import FluidSizing.Proofs.Sheet.Located
import FluidSizing.Proofs.Fluid.Shielded
import FluidSizing.Proofs.Token.Ended
import FluidSizing.Proofs.Value.Completed
import FluidSizing.Proofs.Binary64.Value
import FluidSizing.Proofs.Fluid.Decimals
import FluidSizing.Proofs.Fluid.Places
import FluidSizing.Proofs.Fluid.EndPoints
import FluidSizing.Proofs.Fluid.FiniteSizes
import FluidSizing.Proofs.Fluid.AcceptedSettings
import FluidSizing.Proofs.Fluid.SettingsObject
