/-
  Two-level minimization. Every minterm of the ON-set is expanded into the implicants with the
  fewest literals.

  The exact method keeps all of them as candidates and searches the smallest selections which
  cover the ON-set. The greedy method keeps one candidate for each minterm and takes, in their
  order, those which cover a minterm not covered before.
-/
import TwoLevel.Expansion
import TwoLevel.Expression
import TwoLevel.Specification

namespace TwoLevel

namespace Specification

/-- The distinct implicants into which the minterms of the ON-set expand, in the order of the
    minterms. -/
def candidates (s : Specification) (ties : Ties) : Except Defect (List Cube) := do
  let found ← s.on.mapM fun f => expand f s.off ties
  return found.flatten.eraseDups

/-- Which candidates contain which minterms of the ON-set. -/
def coveringMatrix (s : Specification) (candidates : List Cube) : CoverMatrix Cube :=
  .ofRelation s.on candidates fun f c => c.contains f

/-! ## Exact -/

/-- The mandatory candidates, followed by each of the minimal covers of what they leave. -/
def alternatives (s : Specification) : Except Defect (List Expression) := do
  let candidates ← s.candidates .all
  let (mandatory, rest) ← (s.coveringMatrix candidates).simplify
  let covers ← rest.minimalCovers
  return covers.map fun cover => cover.foldl Expression.push (.ofTerms s.width mandatory)

/-- The first of the alternatives. -/
def exact (s : Specification) : Except Defect Expression :=
  s.alternatives.map fun found => found.headD (.empty s.width)

/-! ## Greedy -/

/-- The cubes which contain one of the vectors that no earlier cube contains. -/
def greedyTerms : List Cube → List BitVector → List Cube
  | [], _ => []
  | c :: cubes, uncovered =>
    let later := greedyTerms cubes (uncovered.filter fun v => !c.contains v)
    if uncovered.any c.contains then c :: later else later

/-- Takes one implicant for each minterm and keeps those which cover something new. -/
def greedy (s : Specification) : Except Defect Expression := do
  let candidates ← s.candidates .first
  if s.on.all fun v => candidates.any (·.contains v) then
    return .ofTerms s.width (greedyTerms candidates s.on)
  else
    throw .uncoveredMinterm

end Specification

/-! ## Methods -/

/-- The choice between the two searches. -/
inductive Method where
  | systematic
  | heuristic
  deriving DecidableEq

namespace Method

def all : List Method :=
  [systematic, heuristic]

def name : Method → String
  | systematic => "systematic"
  | heuristic => "heuristic"

/-- The method used unless one is named. -/
def standard : Method :=
  systematic

end Method

/-- The function described by two lists of minterms, or what is wrong with them. -/
def specify (on off : List Int64) : Except Error Specification :=
  (Specification.ofLists on off).mapError .input

/-- The search of a method. -/
def Method.search : Method → Specification → Except Defect Expression
  | systematic => Specification.exact
  | heuristic => Specification.greedy

/-- A sum of products which is true on the ON-set and false on the OFF-set. -/
def minimize (method : Method) (on off : List Int64) : Except Error Expression := do
  let s ← specify on off
  (method.search s).mapError .defect

/-- All sums with the fewest terms which the exact search finds. -/
def minimizeAll (on off : List Int64) : Except Error (List Expression) := do
  let s ← specify on off
  s.alternatives.mapError .defect

end TwoLevel
