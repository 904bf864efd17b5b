import PackedSchema.Kernel
import PackedSchema.Manifest.File
import PackedSchema.Schema.OfTree

/-!
# Compilation

From a schema text to its kernel text: schema, type table, layouts, text.
-/

namespace PackedSchema

/-- What the compilation of a schema gives. -/
structure Compiled where
  table : TypeTable
  layouts : List TypeLayout
  text : String
  warnings : List Finding

namespace Schema

/-- The type table of a schema. -/
def table (s : Schema) : Except Failure TypeTable := (TypeTable.ofSchema s).mapError .schema

/-- Compiles a schema. Its warnings are told to a report and then taken from there. -/
def tellCompile (s : Schema) : Telling Compiled := do
  let table ← s.table
  let layouts ← ((Layout.layouts table).run.run {}).1
  let text ← Kernel.tellText table layouts
  return { table, layouts, text, warnings := (← get).items.filter fun f => f.severity == .warning }

def compile (s : Schema) : Except Failure Compiled := (s.tellCompile.exec {}).1

end Schema

/-- The compilation of a schema text. -/
def compileText (source : String) : Except Failure Compiled := do
  (← Schema.ofText source).compile

namespace Compiled

/-- The manifest, with types of any length. -/
def manifest (c : Compiled) : Manifest.Value := Manifest.ofLayouts c.table c.layouts

/-- The manifest, if all its types can be written. -/
def describe (c : Compiled) : Except Failure Manifest.Value := Manifest.describe c.table c.layouts

end Compiled

end PackedSchema
