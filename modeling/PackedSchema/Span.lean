/-!
# Source spans

A span is a pair of positions in a source text: lines and columns count from one, columns count
characters, and the end column is one past the last character.
-/

namespace PackedSchema

structure Span where
  line : Int
  col : Int
  endLine : Int
  endCol : Int
  deriving Repr, DecidableEq

namespace Span

/-- The empty span at one position. -/
def point (line col : Int) : Span := ⟨line, col, line, col⟩

/-- The span from the start of one span to the end of another. -/
def cover (first last : Span) : Span := ⟨first.line, first.col, last.endLine, last.endCol⟩

/-- An end coordinate that is absent or zero falls back to the start coordinate. -/
def endOr (start : Int) : Option Int → Int
  | none => start
  | some e => if e = 0 then start else e

/-- The span of a mark whose coordinates may be absent: without a line and a column there is none. -/
def ofMarks (line col endLine endCol : Option Int) : Option Span :=
  match line, col with
  | some l, some c => some ⟨l, c, endOr l endLine, endOr c endCol⟩
  | _, _ => none

end Span

end PackedSchema
