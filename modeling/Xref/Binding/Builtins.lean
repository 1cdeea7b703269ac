import Xref.Symbol.Symbol

/-!
# What the language provides

The types and functions that every module can use without a declaration.
-/

namespace Xref.Binding

/-- The types of the language. -/
def builtinTypes : List String := ["int", "string", "bool"]

/-- The functions of the language, with the lines that describe them. -/
def builtinFunctions : List (String × String) := [("print", "fn print(value: string)")]

/-- The line that describes something the language provides. -/
def builtinDetail? (name : String) : Option String :=
  if builtinTypes.contains name then some ("type " ++ name) else builtinFunctions.lookup name

/-- The symbol of something the language provides. -/
def builtin? (name : String) : Option Symbol :=
  (builtinDetail? name).map fun detail =>
    { id := .ofPath (.builtin name), name, kind := .builtin, owner := .language
      declaration := none, shape := none, detail := some detail }

/-- The symbol of an imported module. -/
def moduleSymbol (name : String) : Symbol :=
  { id := .ofPath (.module name), name, kind := .module, owner := ⟨name⟩
    declaration := none, shape := none, detail := some ("module " ++ name) }

end Xref.Binding
