/-
  Sums of products. The empty sum is constantly false; the universal cube as a term makes the
  sum constantly true. A term is held once, at the place where it was added first.
-/
import TwoLevel.Cube
import TwoLevel.Sequence.Distinct

namespace TwoLevel

/-- A sum of distinct product terms over the variables of a fixed width. -/
structure Expression where
  width : Nat
  terms : List Cube
  nodup : terms.Nodup
  deriving DecidableEq

namespace Expression

/-- The empty sum. -/
def empty (w : Nat) : Expression :=
  ⟨w, [], List.nodup_nil⟩

/-- The sum of a list of terms; repeated terms are skipped. -/
def ofTerms (w : Nat) (terms : List Cube) : Expression :=
  ⟨w, terms.eraseDups, nodup_eraseDups terms⟩

/-- Adds a term at the end, unless it is there already. -/
def push (e : Expression) (t : Cube) : Expression :=
  if h : t ∈ e.terms then e
  else ⟨e.width, e.terms ++ [t], nodup_concat e.nodup h⟩

/-- Number of terms. -/
def size (e : Expression) : Nat :=
  e.terms.length

/-- Number of literals of all terms. -/
def literalCount (e : Expression) : Nat :=
  e.terms.foldr (fun t total => t.literalCount + total) 0

/-- Some term holds on the minterm. -/
def eval (e : Expression) (n : UInt64) : Bool :=
  e.terms.any (·.eval n)

/-- Every term has the width of the expression. -/
def Uniform (e : Expression) : Prop :=
  ∀ t ∈ e.terms, t.width = e.width

instance (e : Expression) : Decidable e.Uniform :=
  inferInstanceAs (Decidable (∀ t ∈ e.terms, t.width = e.width))

end Expression

end TwoLevel
