import LinearSystems.Checked.Grid
import LinearSystems.Checked.Numbers
import LinearSystems.Checked.Sides
import LinearSystems.Checked.Solver
import LinearSystems.CommandLine.Answer
import LinearSystems.CommandLine.Options
import LinearSystems.Error
import LinearSystems.Key
import LinearSystems.LinearSystem
import LinearSystems.Main
import LinearSystems.Matrix
import LinearSystems.Number
import LinearSystems.Proofs.AssembledMatrix
import LinearSystems.Proofs.Assignments
import LinearSystems.Proofs.Blanks
import LinearSystems.Proofs.BlockLines
import LinearSystems.Proofs.CanonicalForm
import LinearSystems.Proofs.CheckedElimination
import LinearSystems.Proofs.CheckedGrids
import LinearSystems.Proofs.CheckedNumbers
import LinearSystems.Proofs.CheckedSides
import LinearSystems.Proofs.CheckedSolving
import LinearSystems.Proofs.CheckedSubstitution
import LinearSystems.Proofs.DecimalTexts
import LinearSystems.Proofs.DefectPlaces
import LinearSystems.Proofs.EchelonForm
import LinearSystems.Proofs.EchelonSubstitution
import LinearSystems.Proofs.Elimination
import LinearSystems.Proofs.EquationBeginnings
import LinearSystems.Proofs.EquationGrammar
import LinearSystems.Proofs.FormArithmetic
import LinearSystems.Proofs.FreeUnknowns
import LinearSystems.Proofs.Grammar
import LinearSystems.Proofs.GrammarPrefixes
import LinearSystems.Proofs.GrammarRuns
import LinearSystems.Proofs.LeastSquaresPivots
import LinearSystems.Proofs.LosslessMarkup
import LinearSystems.Proofs.Marks
import LinearSystems.Proofs.MarkupPieces
import LinearSystems.Proofs.NamedColumns
import LinearSystems.Proofs.NormalEquations
import LinearSystems.Proofs.NumberGrammar
import LinearSystems.Proofs.NumberTexts
import LinearSystems.Proofs.Outcome
import LinearSystems.Proofs.PinnedUnknowns
import LinearSystems.Proofs.PivotColumns
import LinearSystems.Proofs.PositionalRows
import LinearSystems.Proofs.PrintedSolutions
import LinearSystems.Proofs.PrunedTerms
import LinearSystems.Proofs.Rearrangement
import LinearSystems.Proofs.ReducedForm
import LinearSystems.Proofs.RightHandSides
import LinearSystems.Proofs.RoundedNumbers
import LinearSystems.Proofs.RowCombinations
import LinearSystems.Proofs.ScanPrefixes
import LinearSystems.Proofs.Scanning
import LinearSystems.Proofs.SideRuns
import LinearSystems.Proofs.SolutionSets
import LinearSystems.Proofs.Solving
import LinearSystems.Proofs.Substitution
import LinearSystems.Proofs.TableSums
import LinearSystems.Proofs.TableTotals
import LinearSystems.Proofs.TextPieces
import LinearSystems.Proofs.TokenCalls
import LinearSystems.Proofs.Traversals
import LinearSystems.Proofs.TriangularSolutions
import LinearSystems.Proofs.ValueArithmetic
import LinearSystems.Proofs.ValueEquations
import LinearSystems.Proofs.ValueMarkup
import LinearSystems.Proofs.ValueNumbers
import LinearSystems.Proofs.ValueTrees
import LinearSystems.Proofs.WrittenExpressions
import LinearSystems.Proofs.WrittenValues
import LinearSystems.Reduction
import LinearSystems.Rendering
import LinearSystems.Side
import LinearSystems.Solver
import LinearSystems.Table
import LinearSystems.Text.Basic
import LinearSystems.Text.Cursor
import LinearSystems.Value
