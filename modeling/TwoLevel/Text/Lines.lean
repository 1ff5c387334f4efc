/-
  Lines of a text. A line ends with a line feed, or with a carriage return and a line feed.
-/

namespace TwoLevel.Text

/-- A line without the carriage return which may precede the line feed. -/
def dropCarriageReturn (line : List Char) : List Char :=
  if line.getLast? = some '\r' then line.dropLast else line

/-- The lines of a text. What follows the last line feed is a line too, and keeps its carriage
    return. -/
def lines (cs : List Char) : List (List Char) :=
  let pieces := cs.splitOn '\n'
  pieces.dropLast.map dropCarriageReturn ++ pieces.getLast?.toList

/-- The text with the given lines, each ended by a line feed. -/
def ofLines (lines : List String) : String :=
  String.ofList (lines.flatMap fun line => line.toList ++ ['\n'])

end TwoLevel.Text
