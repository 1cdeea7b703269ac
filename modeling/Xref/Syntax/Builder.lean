import Xref.Syntax.Tree

/-!
# Building trees

A builder takes the parts of a tree in document order. Nodes that are open share one list of
pending slots; an open node owns the pending slots from the place where it was opened, and when it
is finished they become its slots and the node itself becomes a pending slot. A checkpoint
remembers a place, so that a node opened later can start there.

The builder checks a checkpoint by two numbers only, the depth of open nodes and the number of
pending slots. `BuildError.slotsTaken` is what comes of a checkpoint that passes this check and
still does not fit.
-/

namespace Xref

/-- Why the builder cannot do what it is told to. -/
inductive BuildError where
  /-- No node is open that could be finished. -/
  | noOpenNode
  /-- Nodes are open at the end. -/
  | unclosed (count : Nat)
  /-- The slots at the end are not one node. -/
  | invalidRoot (slots : Nat)
  /-- The text has more bytes than offsets can count. -/
  | tooLarge
  /-- A checkpoint is used at another depth, or after slots before it are gone. -/
  | staleCheckpoint
  /-- The slots from which the open node starts belong to another node already. -/
  | slotsTaken
  deriving DecidableEq, Repr

/-- The text of a build error. -/
def BuildError.message : BuildError → String
  | noOpenNode => "finish_node called with no open node"
  | unclosed n => s!"{n} node(s) still open at finish"
  | invalidRoot n => s!"expected exactly one root node, found {n} top-level slot(s)"
  | tooLarge => "source text exceeds u32::MAX bytes"
  | staleCheckpoint => "checkpoint no longer matches the open node stack"
  | slotsTaken => "the slots of the open node belong to another node"

/-- A node that is not finished. -/
structure OpenNode where
  kind : NodeKind
  /-- The number of pending slots before its own. -/
  firstSlot : Nat
  /-- The byte offset at which it starts. -/
  start : Nat
  deriving DecidableEq, Repr

/-- A place in the output of a builder. -/
structure Checkpoint where
  pending : Nat
  offset : Nat
  depth : Nat
  deriving DecidableEq, Repr, Inhabited

/-- A tree under construction. -/
structure TreeBuilder where
  text : String
  tokens : Array Token
  nodeCount : Nat
  /-- The open nodes, the innermost first. -/
  opened : List OpenNode
  /-- The slots of all open nodes, in document order. -/
  pending : Array Child

namespace TreeBuilder

/-- The builder that has been told nothing. -/
def empty : TreeBuilder := ⟨"", #[], 0, [], #[]⟩

/-- The number of bytes so far. -/
def offset (b : TreeBuilder) : Nat := b.text.utf8ByteSize

/-- The number of open nodes. -/
def depth (b : TreeBuilder) : Nat := b.opened.length

/-- Opens a node at the current place. -/
def start (b : TreeBuilder) (kind : NodeKind) : TreeBuilder :=
  { b with opened := ⟨kind, b.pending.size, b.offset⟩ :: b.opened }

/-- Remembers the current place. -/
def checkpoint (b : TreeBuilder) : Checkpoint := ⟨b.pending.size, b.offset, b.depth⟩

/-- Opens a node at a remembered place. -/
def startAt (b : TreeBuilder) (c : Checkpoint) (kind : NodeKind) : Except BuildError TreeBuilder :=
  if c.depth ≠ b.depth ∨ b.pending.size < c.pending then .error .staleCheckpoint
  else .ok { b with opened := ⟨kind, c.pending, c.offset⟩ :: b.opened }

/-- Adds a token with its trivia. -/
def token (b : TreeBuilder) (l : Lexeme) : TreeBuilder :=
  let t : Token := ⟨b.tokens.size, b.offset, l⟩
  { b with
    text := b.text ++ l.source
    tokens := b.tokens.push t
    pending := b.pending.push (.token t) }

/-- Adds an empty slot. -/
def missing (b : TreeBuilder) : TreeBuilder := { b with pending := b.pending.push .missing }

/-- Finishes the innermost open node, which gets the next number. -/
def finishNode (b : TreeBuilder) : Except BuildError TreeBuilder :=
  match b.opened with
  | [] => .error .noOpenNode
  | open_ :: rest =>
    if b.pending.size < open_.firstSlot then .error .slotsTaken
    else
      let slots := (b.pending.extract open_.firstSlot b.pending.size).toList
      let node : Node :=
        ⟨b.nodeCount, open_.kind, ⟨open_.start, b.offset⟩, Child.endsOf slots, slots⟩
      .ok { b with
        nodeCount := b.nodeCount + 1
        opened := rest
        pending := (b.pending.shrink open_.firstSlot).push (.node node) }

/-- The finished tree, if no node is open, offsets can count all bytes and one node is all there
is. -/
def finish (b : TreeBuilder) : Except BuildError Tree :=
  if b.opened ≠ [] then .error (.unclosed b.depth)
  else if Span.maxOffset < b.offset then .error .tooLarge
  else match b.pending.toList with
    | [.node root] => .ok ⟨b.text, b.tokens, b.nodeCount, root⟩
    | slots => .error (.invalidRoot slots.length)

end TreeBuilder

/-! ## Instructions -/

/-- One instruction to a builder. Checkpoints are referred to by the order in which they were
taken. -/
inductive BuildStep where
  | start (kind : NodeKind)
  | mark
  | startAt (mark : Nat) (kind : NodeKind)
  | token (l : Lexeme)
  | missing
  | finish
  deriving Repr

/-- What the builder answers to an instruction. -/
inductive BuildReply where
  /-- The number of open nodes afterwards. -/
  | depth (n : Nat)
  | token (id : TokenId)
  | node (id : NodeId)
  | failed (e : BuildError)
  deriving DecidableEq, Repr

/-- A builder and the checkpoints taken so far, the first one first. -/
structure BuildRun where
  builder : TreeBuilder
  marks : Array Checkpoint

namespace BuildRun

/-- Nothing has been built and no checkpoint taken. -/
def empty : BuildRun := ⟨.empty, #[]⟩

/-- Carries out one instruction. One that fails leaves the builder as it was. -/
def step (r : BuildRun) : BuildStep → BuildReply × BuildRun
  | .start kind =>
    let b := r.builder.start kind
    (.depth b.depth, { r with builder := b })
  | .mark => (.depth r.builder.depth, { r with marks := r.marks.push r.builder.checkpoint })
  | .startAt i kind =>
    match r.builder.startAt (r.marks.getD i default) kind with
    | .ok b => (.depth b.depth, { r with builder := b })
    | .error e => (.failed e, r)
  | .token l => (.token r.builder.tokens.size, { r with builder := r.builder.token l })
  | .missing =>
    let b := r.builder.missing
    (.depth b.depth, { r with builder := b })
  | .finish =>
    match r.builder.finishNode with
    | .ok b => (.node r.builder.nodeCount, { r with builder := b })
    | .error e => (.failed e, r)

/-- Carries out instructions in order. -/
def run (r : BuildRun) : List BuildStep → List BuildReply × BuildRun
  | [] => ([], r)
  | s :: rest =>
    let now := r.step s
    let later := now.2.run rest
    (now.1 :: later.1, later.2)

end BuildRun

end Xref
