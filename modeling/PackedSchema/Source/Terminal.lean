import PackedSchema.Text.Lines
import PackedSchema.Text.Quoted

/-!
# Terminals

The classes of tokens in a schema text, and the wording of syntax faults in terms of them.
-/

namespace PackedSchema.Source

inductive Terminal
  | name | int | struct | enum | mod
  | comma | colon | semicolon | lbrace | rbrace | lpar | rpar | lsqb | rsqb | less | more
  deriving Repr, DecidableEq

namespace Terminal

def all : List Terminal :=
  [name, int, struct, enum, mod, comma, colon, semicolon, lbrace, rbrace, lpar, rpar, lsqb, rsqb,
    less, more]

/-- The name of a terminal in the grammar. -/
def id : Terminal → String
  | name => "NAME" | int => "INT" | struct => "STRUCT" | enum => "ENUM" | mod => "MOD"
  | comma => "COMMA" | colon => "COLON" | semicolon => "SEMICOLON"
  | lbrace => "LBRACE" | rbrace => "RBRACE" | lpar => "LPAR" | rpar => "RPAR"
  | lsqb => "LSQB" | rsqb => "RSQB" | less => "LESSTHAN" | more => "MORETHAN"

/-- The fixed spelling of a keyword or a punctuation mark; names and integers have none. -/
def spelling : Terminal → List Char
  | name => [] | int => []
  | struct => ['s', 't', 'r', 'u', 'c', 't'] | enum => ['e', 'n', 'u', 'm'] | mod => ['m', 'o', 'd']
  | comma => [','] | colon => [':'] | semicolon => [';']
  | lbrace => ['\x7b'] | rbrace => ['\x7d'] | lpar => ['('] | rpar => [')']
  | lsqb => ['['] | rsqb => [']'] | less => ['<'] | more => ['>']

/-- The words a message uses for a terminal. -/
def label : Terminal → String
  | name => "a name"
  | int => "an integer"
  | t => "'" ++ String.ofList t.spelling ++ "'"

end Terminal

/-- What a syntax fault speaks of: a terminal, the end of the input, the mark for a place where
nothing but the end can follow, or a name outside this grammar. -/
inductive Symbol
  | terminal (t : Terminal)
  | endOfInput
  | nothingElse
  | foreign (name : String)
  deriving Repr, DecidableEq

namespace Symbol

def ofId (s : String) : Symbol :=
  match Terminal.all.find? fun t => t.id == s with
  | some t => .terminal t
  | none => if s == "$END" then .endOfInput else .foreign s

def label : Symbol → String
  | terminal t => t.label
  | endOfInput => "$END"
  | nothingElse => "<END-OF-FILE>"
  | foreign s => s

end Symbol

/-- What stops the reading of a schema text. -/
inductive SyntaxFault
  /-- A token, or the end of the input, that cannot stand where it stands. -/
  | unexpected (found : Symbol) (text : String) (expected : List Symbol)
  /-- A character with which no token starts. -/
  | stray (c : Char)
  /-- An end of the input about which nothing more is known. -/
  | prematureEnd
  /-- A fault described by a text of its own. -/
  | described (text : String)
  deriving Repr, DecidableEq

namespace SyntaxFault

/-- The labels of some symbols in the order of their characters. -/
def labels (expected : List Symbol) : List String :=
  (expected.map Symbol.label).mergeSort fun a b => a ≤ b

def hint : String := " (fields are written as \x60name: type\x60)"

/-- The fault on one line; a description of no line at all has none. -/
def detail? : SyntaxFault → Option String
  | unexpected found text expected =>
    let wanted := labels expected
    let got := if found = .endOfInput then "end of input" else "'" ++ text ++ "'"
    let said := "unexpected " ++ got ++ ", expected " ++ ", ".intercalate wanted
    some (if wanted.contains Terminal.colon.label && found = .terminal .name then said ++ hint
      else said)
  | stray c => some ("unexpected character " ++ Text.quote (String.singleton c))
  | prematureEnd => some "unexpected end of input"
  | described text => (Text.lines text).head?

end SyntaxFault

end PackedSchema.Source
