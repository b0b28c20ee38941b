import ShaderGraph.Document.Choices
import ShaderGraph.Document.Graphs
import ShaderGraph.Document.Results
import ShaderGraph.Json.Reader
import ShaderGraph.Proofs.Cycles
import ShaderGraph.Proofs.Headers
import ShaderGraph.Proofs.Instances
import ShaderGraph.Proofs.OutputVariables
import ShaderGraph.Timeline.Exact
import ShaderGraph.Workspace
import ShaderGraph.Proofs.Evaluators
import ShaderGraph.Proofs.Spelling
import ShaderGraph.Proofs.Reading
import ShaderGraph.Proofs.EvaluatorTexts
import ShaderGraph.Proofs.UniformNames
import ShaderGraph.Proofs.BakedParameters
import ShaderGraph.Proofs.Seams
import ShaderGraph.Proofs.Assembly
import ShaderGraph.Proofs.ProgramIdentifiers
import ShaderGraph.Proofs.ProgramText
import ShaderGraph.Proofs.UsedUniforms
import ShaderGraph.Proofs.StableCode
import ShaderGraph.Proofs.Invalidation
import ShaderGraph.Proofs.InlineDepth
import ShaderGraph.Proofs.WellFormed
import ShaderGraph.Proofs.InputConflicts
import ShaderGraph.Proofs.VariableTypes
import ShaderGraph.Proofs.Distances
import ShaderGraph.Proofs.Strays
import ShaderGraph.Proofs.DecidingConnection
import ShaderGraph.Proofs.Numerals
import ShaderGraph.Proofs.Nearest
import ShaderGraph.Proofs.Literals
import ShaderGraph.Proofs.Renaming
import ShaderGraph.Proofs.JsonText
import ShaderGraph.Proofs.Documents
import ShaderGraph.Proofs.JoinedFunctions
import ShaderGraph.Proofs.RenamedFunctions
import ShaderGraph.Proofs.ScanRanges
import ShaderGraph.Proofs.Indentation
import ShaderGraph.Proofs.Masks
import ShaderGraph.Proofs.Leftovers
import ShaderGraph.Proofs.Substitution
import ShaderGraph.Proofs.CurveSamples
import ShaderGraph.Proofs.Definitions
import ShaderGraph.Proofs.Lanes
import ShaderGraph.Proofs.Conversions
import ShaderGraph.Proofs.FinalColor
import ShaderGraph.Proofs.StraightLines
import ShaderGraph.Proofs.Dependencies
