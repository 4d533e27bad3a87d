import SiteFusion.Analysis.Calls
import SiteFusion.Analysis.Dominance
import SiteFusion.Analysis.Validity
import SiteFusion.Code.Assembly
import SiteFusion.Code.Block
import SiteFusion.Code.Document
import SiteFusion.Code.Function
import SiteFusion.Code.Graph
import SiteFusion.Code.Ident
import SiteFusion.Code.Instruction
import SiteFusion.Code.Module
import SiteFusion.Code.Operand
import SiteFusion.Code.Tag
import SiteFusion.Code.Terminator
import SiteFusion.CommandLine.Arguments
import SiteFusion.CommandLine.Directory
import SiteFusion.CommandLine.Run
import SiteFusion.Edit
import SiteFusion.Fusion.Candidates
import SiteFusion.Fusion.Pass
import SiteFusion.Fusion.Rounds
import SiteFusion.Fusion.Settings
import SiteFusion.Fusion.SettingsFile
import SiteFusion.Fusion.Site
import SiteFusion.Json.Numeral
import SiteFusion.Json.Reader
import SiteFusion.Json.Shape
import SiteFusion.Json.Value
import SiteFusion.Json.Writer
import SiteFusion.Machine.Arithmetic
import SiteFusion.Machine.Run
import SiteFusion.Machine.Value
import SiteFusion.Main
import SiteFusion.Pipeline.Grammar
import SiteFusion.Pipeline.Run
import SiteFusion.Pipeline.Steps
import SiteFusion.Reach
import SiteFusion.Table
import SiteFusion.Text.Blank
import SiteFusion.Text.Decimal
import SiteFusion.Text.Hidden
import SiteFusion.Text.Quoted
import SiteFusion.Toml.Reader
import SiteFusion.Toml.Scalar
import SiteFusion.Toml.Value
import SiteFusion.Transform.Branches
import SiteFusion.Transform.DeadCode
import SiteFusion.Transform.Duplicates
import SiteFusion.Transform.Globals
import SiteFusion.Transform.Inline
import SiteFusion.Transform.Report
import SiteFusion.Transform.Spill
import SiteFusion.Proofs.CallCycles
import SiteFusion.Proofs.GraphSurgery
import SiteFusion.Proofs.LivePointers
import SiteFusion.Proofs.MergingTurns
import SiteFusion.Proofs.NestedCalls
import SiteFusion.Proofs.NumberKeeping
import SiteFusion.Proofs.PipelineTexts
import SiteFusion.Proofs.ProtectedCode
import SiteFusion.Proofs.ReachableSymbols
import SiteFusion.Proofs.SeparateSites
import SiteFusion.Proofs.SettledGlobals
import SiteFusion.Proofs.SpilledBehaviour
import SiteFusion.Proofs.ValidSites
