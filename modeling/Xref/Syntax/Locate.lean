import Xref.Syntax.Tree

/-!
# From an offset to a token

The descent starts at the root and goes from child to child until the widths passed reach the
offset. Widths include trivia, so an offset inside trivia leads to the token that owns them. The
end of the file is no answer.
-/

namespace Xref

/-- A token and the nodes above it, the root first. -/
structure TokenPath where
  ancestors : List Node
  token : Token

/-- There is no token at an offset of a text of the given length. -/
structure LocateError where
  offset : Nat
  length : Nat
  deriving DecidableEq, Repr

/-- The text of a failed search. -/
def LocateError.message (e : LocateError) : String :=
  s!"no token at offset {e.offset} (text length {e.length})"

mutual

/-- The token at `offset` below a node that starts at `here`. -/
def Node.descend (offset here : Nat) : Node → Option TokenPath
  | ⟨id, kind, full, ends, slots⟩ =>
    (Child.descendAll offset here slots).map fun path =>
      { path with ancestors := ⟨id, kind, full, ends, slots⟩ :: path.ancestors }

/-- The token at `offset` in slots the first of which starts at `here`. The first slot that ends
after the offset decides. -/
def Child.descendAll (offset : Nat) : Nat → List Child → Option TokenPath
  | _, [] => none
  | here, .node n :: rest =>
    if offset < here + n.fullSpan.length then n.descend offset here
    else Child.descendAll offset (here + n.fullSpan.length) rest
  | here, .token t :: rest =>
    if offset < here + t.fullSpan.length then
      if t.kind.isEnd then none else some ⟨[], t⟩
    else Child.descendAll offset (here + t.fullSpan.length) rest
  | here, .missing :: rest => Child.descendAll offset here rest

end

namespace TokenPath

/-- The nodes above the token, from its parent to the root. -/
def innermostFirst (p : TokenPath) : List Node := p.ancestors.reverse

/-- The node right above the token. -/
def parent? (p : TokenPath) : Option Node := p.ancestors.getLast?

end TokenPath

namespace Tree

/-- The token whose text or trivia hold the byte at `offset`. -/
def locate (t : Tree) (offset : Nat) : Except LocateError TokenPath :=
  match t.root.descend offset t.root.fullSpan.start with
  | some path => .ok path
  | none => .error ⟨offset, t.length⟩

/-- The last token other than the end of the file that starts at or before `offset`. -/
def tokenBefore? (t : Tree) (offset : Nat) : Option Token :=
  (t.tokens.toList.filter fun token => !token.kind.isEnd && token.span.start ≤ offset).getLast?

/-- The token at `offset`, or else the one before it. -/
def locateOrBefore (t : Tree) (offset : Nat) : Except LocateError TokenPath :=
  match t.locate offset with
  | .ok path => .ok path
  | .error e =>
    match t.tokenBefore? offset with
    | none => .error e
    | some token => (t.locate token.fullSpan.start).mapError fun _ => e

end Tree

end Xref
