import Xref.Binding.Types

/-!
# Binding names to symbols

The binder walks the tree of a unit once and records which node mentions which symbol. A bare name
means the innermost local variable or parameter of that name, else a declaration of the module, else
something that the language provides. A local variable is visible from the end of its declaration to
the end of the block.

On the way back from a node its meaning is handed to the node above: the record type of its value,
or of the result if it is called, and what it means as a written type. A record written in place is
a symbol of its own. Its shape lists the fields with their types, and records of one shape are
equivalent.
-/

namespace Xref.Binding

/-- The symbol that a node refers to or declares, and the token that names it there. -/
structure Mention where
  symbol : Symbol
  name : TokenId
  deriving DecidableEq, Repr

/-- The meaning of a written type. -/
structure WrittenType where
  record : Option RecordType
  /-- What the type adds to the shape of a record. -/
  shape : String

/-- The meaning of a node for the node above it. -/
structure Meaning where
  /-- The record type of the value. -/
  value : Option RecordType
  /-- The record type of the result of a call. -/
  result : Option RecordType
  /-- The type that is written here, or that the field here is written with. -/
  written : Option WrittenType

namespace Meaning

/-- A node that means nothing to the node above it. -/
def none : Meaning := ⟨.none, .none, .none⟩

/-- A node with a value. -/
def ofValue (type : Option RecordType) : Meaning := { none with value := type }

/-- A written type. -/
def ofWritten (type : WrittenType) : Meaning := { none with written := some type }

end Meaning

/-- A parameter or a local variable. -/
structure Local where
  symbol : Symbol
  type : Option RecordType

/-- What the binder knows at one point of the walk. -/
structure State where
  /-- The variables of the open blocks, the innermost block first and in it the latest variable. -/
  scopes : List (List Local)
  /-- The name of the function around this point. -/
  function : Option String
  /-- The names of the local variables declared so far in the function. -/
  declared : List String
  /-- The mentions so far, the latest first. -/
  mentions : List (NodeId × Mention)

/-- The unit that is bound, and what it sees. -/
structure Context where
  module : ModuleId
  unit : String
  visible : Visible

namespace State

/-- Nothing has been walked yet. -/
def start : State := ⟨[], none, [], []⟩

/-- Records that a node mentions a symbol. -/
def mention (s : State) (n : Node) (name : Token) (symbol : Symbol) : State :=
  { s with mentions := (n.id, ⟨symbol, name.id⟩) :: s.mentions }

/-- Makes a variable visible in the innermost block. -/
def bind (s : State) (found : Local) : State :=
  match s.scopes with
  | [] => s
  | scope :: outer => { s with scopes := (found :: scope) :: outer }

/-- The latest variable of a name in the innermost block that has one. -/
def local? (s : State) (name : String) : Option Local :=
  s.scopes.findSome? fun scope => scope.find? fun found => found.symbol.name == name

/-- Opens a block. -/
def openScope (s : State) : State := { s with scopes := [] :: s.scopes }

/-- Closes the innermost block. -/
def closeScope (s : State) : State := { s with scopes := s.scopes.tail }

/-- The name of the function around this point, or a stand-in. -/
def functionName (s : State) : String := s.function.getD "<module>"

end State

/-- The nodes below a node with their meanings, in order. -/
abbrev Meanings := List (Node × Meaning)

namespace Meanings

/-- The first written type among them. -/
def writtenType? (ms : Meanings) : Option WrittenType :=
  (ms.find? fun m => m.1.kind.isType).bind (·.2.written)

/-- Whether a type is written among them. -/
def hasType (ms : Meanings) : Bool := ms.any fun m => m.1.kind.isType

/-- The value of the first of them. -/
def firstValue? (ms : Meanings) : Option RecordType := ms.head?.bind (·.2.value)

/-- The value of the last of them that is no written type. -/
def lastValue? (ms : Meanings) : Option RecordType :=
  (ms.filter fun m => !m.1.kind.isType).getLast?.bind (·.2.value)

end Meanings

namespace Context

/-! ## Records written in place -/

/-- The meaning of a type name that stands in the tree. -/
def namedType (c : Context) (n : Node) : WrittenType :=
  let resolved := (TypeName.ofNode? n).bind (c.visible.resolve? c.visible.own)
  { record := resolved.bind (·.2)
    shape := match resolved with
      | some (symbol, _) => symbol.owner.name ++ "::" ++ symbol.name
      | none => "?" ++ n.header fun _ => true }

/-- A field of a record written in place: its node, its name, its symbol and its type. -/
structure WrittenField where
  node : Node
  name : Token
  symbol : Symbol
  type : Option WrittenType

/-- The field that a node declares in the record with the given path. -/
def writtenField? (c : Context) (record : SymbolPath) (field : Node × Meaning) :
    Option WrittenField :=
  (field.1.identifierAt? 0).map fun name =>
    { node := field.1, name
      symbol := declaredSymbol (.field record name.text) name .field c.module c.unit
        (field.1.header fun slot => !holds ";" slot)
      type := field.2.written }

/-- The shape of a record with the given fields. -/
def shapeOf (fields : List WrittenField) : String :=
  "record\x7b" ++
    String.join (fields.map fun field =>
      field.name.text ++ ":" ++ (field.type.elim "?" WrittenType.shape) ++ ";") ++
    "\x7d"

/-- The record type with the given fields. -/
def recordOf (fields : List WrittenField) : RecordType :=
  .written (fields.map fun field => (field.symbol, field.type.bind WrittenType.record))

/-- Records the mentions of a record written in place, its fields first. -/
def declareRecord (c : Context) (n : Node) (fields : Meanings) (s : State) : Meaning × State :=
  match n.slots.head?.bind Slot.token? with
  | none => (.ofWritten ⟨none, ""⟩, s)
  | some keyword =>
    let path := SymbolPath.record c.module c.unit keyword.span.start
    let fields := fields.filterMap (c.writtenField? path)
    let shape := shapeOf fields
    let symbol : Symbol :=
      { id := .ofPath path, name := "record", kind := .type, owner := c.module
        declaration := none, shape := some (.ofPath (.shape shape))
        detail := some (n.header fun _ => true) }
    let s := fields.foldl (fun s field => s.mention field.node field.name field.symbol) s
    (.ofWritten ⟨some (recordOf fields), shape⟩, s.mention n keyword symbol)

/-! ## Declarations -/

/-- Records the mentions of a declaration at the top of the unit, the fields that it declares
first. -/
def declareItem (c : Context) (n : Node) (s : State) : State :=
  match itemOf? c.module c.unit n with
  | none => s
  | some item =>
    let noted := (item.fields.map fun field => (field.node, Mention.mk field.symbol field.name))
      ++ [(n.id, ⟨item.symbol, item.name⟩)]
    { s with mentions := noted.reverse ++ s.mentions }

/-- Declares a parameter. -/
def declareParameter (c : Context) (n : Node) (below : Meanings) (s : State) : State :=
  match n.identifierAt? 0 with
  | none => s
  | some name =>
    let symbol := declaredSymbol (.parameter c.module c.unit s.functionName name.text) name
      .parameter c.module c.unit (n.header fun _ => true)
    (s.mention n name symbol).bind ⟨symbol, below.writtenType?.bind WrittenType.record⟩

/-- Declares a local variable. Its type is the one written or else that of its first value. -/
def declareVariable (c : Context) (n : Node) (below : Meanings) (s : State) : State :=
  match n.identifierAt? 1 with
  | none => s
  | some name =>
    let number := s.declared.count name.text + 1
    let symbol := declaredSymbol (.localVar c.module c.unit s.functionName name.text number) name
      .var c.module c.unit (n.header fun slot => !holds "=" slot && !holds ";" slot)
    let type :=
      if below.hasType then below.writtenType?.bind WrittenType.record else below.lastValue?
    ({ s with declared := name.text :: s.declared }.mention n name symbol).bind ⟨symbol, type⟩

/-! ## References -/

/-- Records the mention of a module in an import. -/
def bindImport (n : Node) (s : State) : State :=
  match n.identifierAt? 1 with
  | none => s
  | some name => s.mention n name (moduleSymbol name.text)

/-- Binds a type name. -/
def bindType (c : Context) (n : Node) (s : State) : Meaning × State :=
  let resolved := (TypeName.ofNode? n).bind (c.visible.resolve? c.visible.own)
  let named := (n.childTokens.filter (·.kind.isIdentifier)).getLast?
  (.ofWritten (c.namedType n), match resolved, named with
    | some (symbol, _), some name => s.mention n name symbol
    | _, _ => s)

/-- Binds a name to an item of a module that the unit sees. -/
def bindItem (c : Context) (scope : ModuleScope) (item : Item) (n : Node) (name : Token)
    (s : State) : Meaning × State :=
  ({ Meaning.none with
      value := c.visible.valueType? scope item
      result := c.visible.resultType? scope item }, s.mention n name item.symbol)

/-- Binds a bare name. -/
def bindName (c : Context) (n : Node) (s : State) : Meaning × State :=
  match n.identifierAt? 0 with
  | none => (.none, s)
  | some name =>
    match s.local? name.text with
    | some found => (.ofValue found.type, s.mention n name found.symbol)
    | none =>
      match c.visible.own.get? name.text with
      | some item => c.bindItem c.visible.own item n name s
      | none =>
        match builtin? name.text with
        | some symbol => (.none, s.mention n name symbol)
        | none => (.none, s)

/-- Binds a name with the module it comes from. -/
def bindQualifiedName (c : Context) (n : Node) (s : State) : Meaning × State :=
  match n.identifierAt? 0, n.identifierAt? 2 with
  | some qualifier, some name =>
    match c.visible.imported? qualifier.text with
    | none => (.none, s)
    | some scope =>
      match scope.get? name.text with
      | none => (.none, s)
      | some item => c.bindItem scope item n name s
  | _, _ => (.none, s)

/-- Binds the field of a value whose type is known. -/
def bindField (c : Context) (n : Node) (below : Meanings) (s : State) : Meaning × State :=
  match n.identifierAt? 2, below.firstValue? with
  | some name, some type =>
    match c.visible.field? type name.text with
    | some (symbol, type) => (.ofValue type, s.mention n name symbol)
    | none => (.none, s)
  | _, _ => (.none, s)

/-! ## The walk -/

/-- What happens before the slots of a node are walked. -/
def enter (c : Context) (n : Node) (s : State) : State :=
  match n.kind with
  | .importDeclaration => bindImport n s
  | .functionDefinition =>
    let s := c.declareItem n s
    { s with function := (n.identifierAt? 1).map Token.text, declared := [] }.openScope
  | .typeDefinition | .moduleVariableDeclaration => c.declareItem n s
  | .functionBody | .blockStatement => s.openScope
  | _ => s

/-- What happens after the slots of a node have been walked. The body of a type definition is the
type itself and no record written in place. -/
def leave (c : Context) (n : Node) (isBody : Bool) (below : Meanings) (s : State) :
    Meaning × State :=
  match n.kind with
  | .functionDefinition => (.none, { s.closeScope with function := none })
  | .functionBody | .blockStatement => (.none, s.closeScope)
  | .recordTypeDescriptor => if isBody then (.none, s) else c.declareRecord n below s
  | .recordField => ({ Meaning.none with written := below.writtenType? }, s)
  | .requiredParameter => (.none, c.declareParameter n below s)
  | .variableDeclaration => (.none, c.declareVariable n below s)
  | .typeReference => c.bindType n s
  | .simpleNameReference => c.bindName n s
  | .qualifiedNameReference => c.bindQualifiedName n s
  | .functionCall => (.ofValue (below.head?.bind (·.2.result)), s)
  | .fieldAccess => c.bindField n below s
  | .bracedExpression => (.ofValue below.firstValue?, s)
  | _ => (.none, s)

end Context

mutual

/-- Binds the names below a node, and the node itself. -/
def bindNode (c : Context) (isBody : Bool) : Node → State → Meaning × State
  | ⟨id, kind, full, ends, slots⟩, s =>
    let n : Node := ⟨id, kind, full, ends, slots⟩
    let below := bindSlots c (kind == .typeDefinition) slots (c.enter n s)
    c.leave n isBody below.1 below.2

/-- Binds the names in several slots, from the first to the last. -/
def bindSlots (c : Context) (inType : Bool) : List Child → State → Meanings × State
  | [], s => ([], s)
  | .node n :: rest, s =>
    let first := bindNode c inType n s
    let others := bindSlots c inType rest first.2
    ((n, first.1) :: others.1, others.2)
  | .token _ :: rest, s => bindSlots c inType rest s
  | .missing :: rest, s => bindSlots c inType rest s

end

/-- The mentions of a unit, in the order in which they are made. -/
def bindTree (c : Context) (t : Tree) : List (NodeId × Mention) :=
  (bindNode c false t.root .start).2.mentions.reverse

end Xref.Binding
