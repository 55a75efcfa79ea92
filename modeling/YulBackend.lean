import YulBackend.Main
import YulBackend.Codegen.ObjectGenerator
import YulBackend.Command.FileTree
import YulBackend.Declaration.Interchange
import YulBackend.Syntax.Interchange
import YulBackend.Proofs.Codegen.Generation
import YulBackend.Proofs.Optimizer.ConstantConditions
import YulBackend.Proofs.Parser.RoundTrip
import YulBackend.Proofs.Codegen.FixedPoint
import YulBackend.Proofs.Codegen.Filing
import YulBackend.Proofs.Logic.Sessions
import YulBackend.Proofs.Optimizer.Resolution
import YulBackend.Proofs.Codegen.Deployment
import YulBackend.Proofs.Logic.Transcript
import YulBackend.Proofs.Logic.Expansion
import YulBackend.Proofs.Logic.ClosedProblems
import YulBackend.Proofs.Logic.Renaming
import YulBackend.Proofs.Optimizer.Transcript
import YulBackend.Proofs.Syntax.Conditions
import YulBackend.Proofs.Optimizer.ReplacedConditions
import YulBackend.Proofs.Syntax.Enclosure
import YulBackend.Proofs.Optimizer.OpenAssertions
import YulBackend.Proofs.Literal.Words
import YulBackend.Proofs.Semantics.Words
import YulBackend.Proofs.Optimizer.WordEncoding
import YulBackend.Proofs.Optimizer.Rerun
import YulBackend.Proofs.Syntax.Grammar
import YulBackend.Proofs.Syntax.Derivations
import YulBackend.Proofs.Parser.Trees
import YulBackend.Proofs.Text.Validity
import YulBackend.Proofs.Token.Splits
import YulBackend.Proofs.Parser.Language
import YulBackend.Proofs.Parser.Normalisation
import YulBackend.Proofs.Codegen.Helpers
import YulBackend.Proofs.Codegen.HelperNames
import YulBackend.Proofs.Codegen.HelperCode
import YulBackend.Proofs.Codegen.Requests
import YulBackend.Proofs.Semantics.Evm
import YulBackend.Proofs.Semantics.Rules
import YulBackend.Proofs.Codegen.Cleaning
import YulBackend.Proofs.Codegen.AbiCoding
import YulBackend.Proofs.Syntax.Calls
import YulBackend.Proofs.Codegen.HelperTexts
import YulBackend.Proofs.Codegen.EmittedCode
import YulBackend.Proofs.Codegen.CodeRequests
import YulBackend.Proofs.Codegen.StockedCode
import YulBackend.Proofs.Codegen.ClosedCode
import YulBackend.Proofs.Codegen.TargetInstructions
import YulBackend.Proofs.Codegen.Dispatching
import YulBackend.Proofs.Codegen.ContextOperations
import YulBackend.Proofs.Codegen.Refusals
import YulBackend.Proofs.Codegen.ImmutableLayout
import YulBackend.Proofs.Codegen.Termination
import YulBackend.Proofs.Text.Slices
import YulBackend.Proofs.Syntax.Nodes
import YulBackend.Proofs.Token.Places
import YulBackend.Proofs.Parser.Pieces
import YulBackend.Proofs.Parser.Places
import YulBackend.Proofs.Optimizer.Places
import YulBackend.Proofs.Literal.Strings
import YulBackend.Proofs.Codegen.GeneratedNames
import YulBackend.Proofs.Codegen.Creators
import YulBackend.Proofs.Codegen.RevertPayload
import YulBackend.Proofs.Syntax.ParseTrees
import YulBackend.Proofs.Parser.TreeBuilder
import YulBackend.Proofs.Parser.BuiltTrees
import YulBackend.Proofs.Printer.Indentation
import YulBackend.Proofs.Printer.Colours
import YulBackend.Proofs.Optimizer.FreshVariables
import YulBackend.Proofs.Codegen.Arithmetic
import YulBackend.Proofs.Parser.Outcomes
