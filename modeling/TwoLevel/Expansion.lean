/-
  Expansion of a minterm into the largest cubes which contain it and avoid the OFF-set.

  A product of literals of the minterm `f` avoids the minterm `r` if it fixes a position where
  they differ. Hence the implicants with the fewest literals are the minimal covers of the
  difference matrix: one row for each `r`, with the positions where it differs from `f`, and one
  column for each literal of `f`.
-/
import TwoLevel.Cover.Simplification
import TwoLevel.Cover.Minimal
import TwoLevel.Cube

namespace TwoLevel

/-- Which of several implicants of the same size are kept. -/
inductive Ties where
  | all
  | first
  deriving DecidableEq

def Ties.select {α : Type} : Ties → List α → List α
  | all, l => l
  | first, l => l.take 1

/-- The literals which hold on a minterm given by its bits. -/
def literalsOfBits : List Bool → List Literal
  | [] => []
  | b :: bs => ⟨bs.length, b⟩ :: literalsOfBits bs

/-- The rows tell where the vectors of the OFF-set differ from `f`; column `k` is labelled with
    the literal of `f` at position `k`. -/
def differenceMatrix (f : BitVector) (off : List BitVector) : CoverMatrix Literal :=
  ⟨off.map fun r => .ofBits (r.xor f).bits, literalsOfBits f.bits⟩

/-- The cubes with the fewest literals which contain `f` and no vector of the OFF-set. -/
def expand (f : BitVector) (off : List BitVector) (ties : Ties) : Except Defect (List Cube) := do
  let (forced, rest) ← (differenceMatrix f off).simplify
  let covers ← rest.minimalCovers
  return (ties.select covers).map fun cover => .ofLiterals f.width (forced ++ cover)

end TwoLevel
