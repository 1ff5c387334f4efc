import TwoLevel.Expression.Reader
import TwoLevel.Main
import TwoLevel.Proofs.ColumnCovers
import TwoLevel.Proofs.ColumnOrder
import TwoLevel.Proofs.DominatedRows
import TwoLevel.Proofs.Encoding
import TwoLevel.Proofs.EssentialColumns
import TwoLevel.Proofs.Evaluation
import TwoLevel.Proofs.FileRuns
import TwoLevel.Proofs.GivenWidth
import TwoLevel.Proofs.GreedyOrder
import TwoLevel.Proofs.InputInvariance
import TwoLevel.Proofs.ListGrammar
import TwoLevel.Proofs.MatrixHistory
import TwoLevel.Proofs.MinimalRows
import TwoLevel.Proofs.Minimization
import TwoLevel.Proofs.NamedLiterals
import TwoLevel.Proofs.Outcomes
import TwoLevel.Proofs.Polarity
import TwoLevel.Proofs.PrimeImplicants
import TwoLevel.Proofs.ProblemTexts
import TwoLevel.Proofs.ReducedCovers
import TwoLevel.Proofs.RowOrder
import TwoLevel.Proofs.Runs
import TwoLevel.Proofs.SearchInvariance
import TwoLevel.Proofs.SmallestImplicants
import TwoLevel.Proofs.SumGrammar
import TwoLevel.Proofs.TermLengths
import TwoLevel.Proofs.UniqueTexts
import TwoLevel.Proofs.Widths
