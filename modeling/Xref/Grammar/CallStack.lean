import Xref.Grammar.Modules

/-!
# Parsing on a call stack

A block is parsed by calls that nest as blocks do, so that many blocks in each other take much of the
call stack. An if statement first has the stack grow where little of it is left, and so do records and
expressions; a block that stands in a block or behind a while does not. A text whose blocks need more
of the stack than there is ends the program without an answer.
-/

namespace Xref

/-- A call stack: the bytes that are free, and the bytes that the calls for one block take. -/
structure CallStack where
  free : Nat
  frame : Nat
  deriving DecidableEq, Repr

namespace CallStack

/-- The stack grows if fewer bytes than these are free. -/
def redZone : Nat := 128 * 1024

/-- The bytes that are free on a new segment of the stack. -/
def segment : Nat := 2 * 1024 * 1024

/-- The stack after it has grown if it had to. -/
def grown (s : CallStack) : CallStack :=
  if s.free < redZone then { s with free := segment } else s

/-- The stack inside a block, if the block has room. -/
def enter? (s : CallStack) : Option CallStack :=
  if s.frame ≤ s.free then some { s with free := s.free - s.frame } else none

/-- The stack inside a node of a kind. -/
def inside? (s : CallStack) : NodeKind → Option CallStack
  | .functionBody => s.enter?
  | .blockStatement => s.enter?
  | .ifElseStatement => some s.grown
  | _ => some s

end CallStack

namespace Phrase

mutual

/-- Whether a call stack has room for parsing a phrase. -/
def fits (s : CallStack) : Phrase → Bool
  | ⟨kind, slots⟩ =>
    match s.inside? kind with
    | some inner => fitsAll inner slots
    | none => false

/-- Whether a call stack has room for parsing several slots, one after the other. -/
def fitsAll (s : CallStack) : List Part → Bool
  | [] => true
  | .node p :: rest => p.fits s && fitsAll s rest
  | .token _ :: rest => fitsAll s rest
  | .missing :: rest => fitsAll s rest

end

end Phrase

/-- Why a source text has no tree. -/
inductive ParseError where
  /-- The call stack has no room for the blocks of the text. -/
  | stackExhausted
  /-- The builder refuses the tree. -/
  | unbuildable (cause : BuildError)
  deriving DecidableEq, Repr

/-- The tree of a source text that is parsed on a call stack. -/
def parseOn (s : CallStack) (source : String) : Except ParseError Tree :=
  if (Phrase.ofSource source).fits s then (parse source).mapError .unbuildable
  else .error .stackExhausted

end Xref
