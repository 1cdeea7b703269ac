import Xref.Project.ModuleGraph
import Xref.Project.Uri

/-!
# Where the units of a project lie

    root/unit                     a unit of the module without a name
    root/modulesDir/module/unit   a unit of a named module

The way back from a path to a unit accepts exactly these two forms.
-/

namespace Xref

/-- A unit of a module. -/
structure UnitId where
  module : ModuleId
  unit : String
  deriving DecidableEq, Repr, Inhabited

/-- Where the files of a project lie. -/
structure Layout where
  root : FilePath
  modulesDir : String
  deriving DecidableEq, Repr

namespace Layout

/-- The layout with the usual directory for modules. -/
def ofRoot (root : FilePath) : Layout := ⟨root, "src"⟩

/-- The path of a unit. -/
def pathOf (l : Layout) (u : UnitId) : FilePath :=
  if u.module.isCurrent then l.root.join (.ofText u.unit)
  else ((l.root.join (.ofText l.modulesDir)).join (.ofText u.module.name)).join (.ofText u.unit)

/-- The URI of a unit, if its path is absolute. -/
def uriOf? (l : Layout) (u : UnitId) : Option Uri := Uri.ofFile? (l.pathOf u)

/-- The unit at a path, if the path has one of the two forms and its names are UTF-8. -/
def unitAt? (l : Layout) (p : FilePath) : Option UnitId :=
  match (p.stepsFrom? l.root).bind (·.mapM PathComponent.text?) with
  | some [unit] => some ⟨.current, unit⟩
  | some [dir, module, unit] => if dir = l.modulesDir then some ⟨⟨module⟩, unit⟩ else none
  | _ => none

end Layout

end Xref
