import Xref.Binding.Declarations

/-!
# Types of names and their fields

A unit sees its own module and the modules it imports. Types matter only as far as they have
fields: a record type is either a declared type, known by its module and name, or a record written
in place, known by its fields. A declared type that is no record stands for another type, and a
chain of such types is followed for a limited number of steps.
-/

namespace Xref.Binding

/-- A type whose fields can be looked up. -/
inductive RecordType where
  | named (module : ModuleId) (name : String)
  /-- A record written in place, with its fields and their types. -/
  | written (fields : List (Symbol × Option RecordType))

/-- What a unit sees: the scope of its own module, and those of the modules it imports. -/
structure Visible where
  own : ModuleScope
  imports : List ModuleScope
  deriving Repr

/-- The number of declared types that a search for fields looks at. -/
def aliasLimit : Nat := 8

namespace Visible

/-- The imported module with the name written in the source. -/
def imported? (v : Visible) (name : String) : Option ModuleScope :=
  v.imports.find? fun scope => scope.module.name == name

/-- The scope of a module that the unit sees. -/
def scope? (v : Visible) (module : ModuleId) : Option ModuleScope :=
  if module = v.own.module then some v.own
  else v.imports.find? fun scope => scope.module == module

/-- What a type name written in `scope` means: its symbol, and its record type if it is declared. A
qualified name means a type of a module that the unit imports. -/
def resolve? (v : Visible) (scope : ModuleScope) (t : TypeName) :
    Option (Symbol × Option RecordType) :=
  match t.qualifier with
  | some q =>
    (v.imported? q).bind fun target =>
      (target.type? t.name).map fun item =>
        (item.symbol, some (.named target.module t.name))
  | none =>
    match scope.type? t.name with
    | some item => some (item.symbol, some (.named scope.module t.name))
    | none =>
      if builtinTypes.contains t.name then (builtin? t.name).map fun symbol => (symbol, none)
      else none

/-- The record type that a type name written in `scope` means. -/
def recordType? (v : Visible) (scope : ModuleScope) (t : Option TypeName) : Option RecordType :=
  t.bind fun t => (v.resolve? scope t).bind (·.2)

/-- The fields of the first record among at most `n` declared types, each of which stands for the
next, and the scope in which the types of the fields are written. -/
def fieldsWithin (v : Visible) : Nat → ModuleId → String → Option (ModuleScope × List Field)
  | 0, _, _ => none
  | n + 1, module, name =>
    (v.scope? module).bind fun scope =>
      (scope.type? name).bind fun item =>
        if item.fields ≠ [] then some (scope, item.fields)
        else match v.recordType? scope item.type with
          | some (.named module name) => v.fieldsWithin n module name
          | _ => none

/-- The fields of a declared type. -/
def fields? (v : Visible) (module : ModuleId) (name : String) :
    Option (ModuleScope × List Field) :=
  v.fieldsWithin aliasLimit module name

/-- The field of a record type with a given name, and the type of the field. -/
def field? (v : Visible) (t : RecordType) (name : String) : Option (Symbol × Option RecordType) :=
  match t with
  | .named module type =>
    (v.fields? module type).bind fun found =>
      (found.2.find? fun field => field.symbol.name == name).map fun field =>
        (field.symbol, v.recordType? found.1 field.type)
  | .written fields => fields.find? fun field => field.1.name == name

/-- The record type of an item of `scope` that is used as a value. -/
def valueType? (v : Visible) (scope : ModuleScope) (item : Item) : Option RecordType :=
  if item.symbol.kind = .var then v.recordType? scope item.type else none

/-- The record type of the result of an item of `scope` that is called. -/
def resultType? (v : Visible) (scope : ModuleScope) (item : Item) : Option RecordType :=
  if item.symbol.kind = .function then v.recordType? scope item.type else none

end Visible

end Xref.Binding
