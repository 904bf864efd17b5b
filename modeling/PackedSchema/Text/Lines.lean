/-!
# Lines

Two readings of line ends. `lines` cuts a text at every line boundary character, as a report needs
it to show one line of a source. `unifyNewlines` turns the three usual line ends into `\n`, as it
happens when a text file is read.
-/

namespace PackedSchema.Text

/-- The characters that end a line: line feed, carriage return, vertical tab, form feed, the three
information separators, next line, and the line and paragraph separators. -/
def isLineBreak (c : Char) : Bool :=
  ['\n', '\r', '\x0b', '\x0c', '\x1c', '\x1d', '\x1e', '\x85', '\u2028', '\u2029'].contains c

/-- The lines of a text whose current line, read so far and reversed, is `line`. -/
def linesFrom (line : List Char) : List Char → List (List Char)
  | [] => if line.isEmpty then [] else [line.reverse]
  | '\r' :: '\n' :: cs => line.reverse :: linesFrom [] cs
  | c :: cs => if isLineBreak c then line.reverse :: linesFrom [] cs else linesFrom (c :: line) cs

/-- The lines of a text without their ends; there is no empty last line after a final line end. -/
def lines (s : String) : List String :=
  (linesFrom [] s.toList).map String.ofList

/-- Every `\r\n` and every lone `\r` becomes `\n`. -/
def unifyNewlines : List Char → List Char
  | [] => []
  | '\r' :: '\n' :: cs => '\n' :: unifyNewlines cs
  | c :: cs => (if c = '\r' then '\n' else c) :: unifyNewlines cs

end PackedSchema.Text
