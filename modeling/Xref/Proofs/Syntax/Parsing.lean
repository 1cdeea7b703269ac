import Mathlib.Data.List.Forall2
import Xref.Grammar.Modules
import Xref.Proofs.Syntax.Scanning

/-!
# Laws of productions

Four laws hold of every production of the grammar, and each combinator keeps them:

* it loses no lexeme: what it fills slots with and what it leaves make up what was there;
* it fills slots with nodes of certain kinds only (`NodeKind.allows`), and so do the productions of
  these nodes;
* it writes types out: a type name is a name, or two with a colon between them, and a record starts
  with its keyword (`NodeKind.isWrittenAs`);
* it does not tell one name from another: lexemes that differ in the texts of identifiers only lead
  to phrases that differ in them only.

From the first law it follows that the phrase of a source text holds all of its lexemes
(`lexemes_ofSource`).
-/

namespace Xref

/-! ## Kinds below kinds -/

namespace NodeKind

/-- Whether nodes of this kind declare or import something at the top of a module. -/
def isItem : NodeKind → Bool
  | importDeclaration | functionDefinition | typeDefinition | moduleVariableDeclaration => true
  | _ => false

/-- Whether variables of a function can be declared in nodes of this kind, or are by them. -/
def isLocal : NodeKind → Bool
  | parameterList | requiredParameter | functionBody | blockStatement | variableDeclaration
  | ifElseStatement | elseBlock | whileStatement => true
  | _ => false

/-- Whether nodes of this kind lie below an item and outside the fields of a record. -/
def isInner (k : NodeKind) : Bool := !k.isItem && k != modulePart && k != recordField

/-- Whether nodes of this kind are inner nodes that declare no variables of a function. -/
def isPlain (k : NodeKind) : Bool := k.isInner && !k.isLocal

/-- Whether nodes of this kind are statements or lie in one. -/
def isPart : NodeKind → Bool
  | blockStatement | variableDeclaration | ifElseStatement | elseBlock | whileStatement => true
  | k => k.isPlain

/-- Whether a node of kind `child` can lie right below one of kind `parent`. -/
def allows (parent child : NodeKind) : Bool :=
  match parent with
  | modulePart => child.isItem || child == invalid
  | recordTypeDescriptor => child == recordField
  | functionDefinition => child == parameterList || child == functionBody || child.isPlain
  | parameterList => child == requiredParameter
  | functionBody | blockStatement | ifElseStatement | elseBlock | whileStatement => child.isPart
  | _ => child.isPlain

/-- Whether a node of this kind can have the given lexemes in its slots. Only written types are
told apart: a type name is a name, or two with a colon between them, and a record starts with its
keyword. -/
def isWrittenAs (k : NodeKind) (lexemes : List (Option Lexeme)) : Bool :=
  match k, lexemes with
  | typeReference, [some l] => l.isIdentifier
  | typeReference, [some q, some colon, some l] =>
    q.isIdentifier && colon.isPunctuation ":" && l.isIdentifier
  | typeReference, _ => false
  | recordTypeDescriptor, first :: _ => first.any fun l => l.isKeyword "record"
  | recordTypeDescriptor, [] => false
  | _, _ => true

theorem isWrittenAs_typeReference {lexemes : List (Option Lexeme)}
    (h : typeReference.isWrittenAs lexemes) : (∃ l, lexemes = [some l] ∧ l.isIdentifier) ∨
      ∃ q colon l, lexemes = [some q, some colon, some l] ∧ q.isIdentifier ∧
        colon.isPunctuation ":" ∧ l.isIdentifier := by
  unfold isWrittenAs at h
  split at h
  · exact .inl ⟨_, rfl, h⟩
  · simp only [Bool.and_eq_true] at h
    exact .inr ⟨_, _, _, rfl, h.1.1, h.1.2, h.2⟩
  · cases h
  · cases ‹typeReference = recordTypeDescriptor›
  · cases h
  · exact absurd rfl ‹typeReference = typeReference → False›

theorem isWrittenAs_of_not_isType {k : NodeKind} (h : k.isType = false)
    (lexemes : List (Option Lexeme)) : k.isWrittenAs lexemes := by
  cases k <;> first | rfl | cases h

/-- Whether nodes of this kind lie below an item. -/
def isBelowItem (k : NodeKind) : Bool := !k.isItem && k != modulePart

/-- Whether no variables of a function can be declared in nodes of this kind. -/
def isStill (k : NodeKind) : Bool := !k.isLocal && k != functionDefinition && k != modulePart

theorem isPart_of_isPlain {k : NodeKind} (h : k.isPlain) : k.isPart := by
  cases k <;> first | rfl | exact h

/-- What lies below an item is below it at any depth. -/
theorem isBelowItem_of_allows {k c : NodeKind} (hk : k ≠ modulePart) (h : k.allows c) :
    c.isBelowItem := by
  cases k <;> cases c <;> first | rfl | exact absurd rfl hk | exact absurd h (by decide)

/-- Where no variables can be declared, none can be declared below. -/
theorem isStill_of_allows {k c : NodeKind} (hk : k.isStill) (h : k.allows c) : c.isStill := by
  cases k <;> cases c <;> first | rfl | exact absurd hk (by decide) | exact absurd h (by decide)

end NodeKind

mutual

/-- Whether every node of a phrase can lie below the node above it. -/
def Phrase.Sorted : Phrase → Prop
  | ⟨kind, slots⟩ => partsSorted kind.allows slots

/-- Whether the nodes in several slots have kinds that satisfy `ok`, and the nodes below them can
lie there. -/
def partsSorted (ok : NodeKind → Bool) : List Part → Prop
  | [] => True
  | .node p :: rest => ok p.kind ∧ p.Sorted ∧ partsSorted ok rest
  | .token _ :: rest => partsSorted ok rest
  | .missing :: rest => partsSorted ok rest

end

mutual

/-- Whether every written type in a phrase has the lexemes of one. -/
def Phrase.Written : Phrase → Prop
  | ⟨kind, slots⟩ => kind.isWrittenAs (slots.map Slot.token?) ∧ partsWritten slots

/-- Whether every written type in several slots has the lexemes of one. -/
def partsWritten : List Part → Prop
  | [] => True
  | .node p :: rest => p.Written ∧ partsWritten rest
  | .token _ :: rest => partsWritten rest
  | .missing :: rest => partsWritten rest

end

/-! ## Phrases alike -/

/-- Whether lexemes that are related have the same kind, and the same text unless they are
identifiers. -/
def Discerning (R : Lexeme → Lexeme → Prop) : Prop :=
  ∀ ⦃l l'⦄, R l l' → l'.kind = l.kind ∧ (l.kind ≠ .identifier → l'.text = l.text)

mutual

/-- Whether two phrases differ in their lexemes only, and these are related by `R`. -/
def Phrase.Alike (R : Lexeme → Lexeme → Prop) : Phrase → Phrase → Prop
  | ⟨kind, slots⟩, ⟨kind', slots'⟩ => kind' = kind ∧ partsAlike R slots slots'

/-- Whether several slots differ in their lexemes only, and these are related by `R`. -/
def partsAlike (R : Lexeme → Lexeme → Prop) : List Part → List Part → Prop
  | [], [] => True
  | .node p :: rest, .node p' :: rest' => p.Alike R p' ∧ partsAlike R rest rest'
  | .token l :: rest, .token l' :: rest' => R l l' ∧ partsAlike R rest rest'
  | .missing :: rest, .missing :: rest' => partsAlike R rest rest'
  | _, _ => False

end

theorem partsSorted_append {ok : NodeKind → Bool} {ps qs : List Part} :
    partsSorted ok (ps ++ qs) ↔ partsSorted ok ps ∧ partsSorted ok qs := by
  induction ps with
  | nil => simp [partsSorted]
  | cons p ps ih => cases p <;> simp [partsSorted, ih, and_assoc]

theorem partsSorted_mono {ok ok' : NodeKind → Bool} (h : ∀ k, ok k → ok' k) {ps : List Part}
    (hps : partsSorted ok ps) : partsSorted ok' ps := by
  induction ps with
  | nil => trivial
  | cons p ps ih =>
    cases p with
    | node q => exact ⟨h _ hps.1, hps.2.1, ih hps.2.2⟩
    | token l => exact ih hps
    | missing => exact ih hps

theorem partsWritten_append {ps qs : List Part} :
    partsWritten (ps ++ qs) ↔ partsWritten ps ∧ partsWritten qs := by
  induction ps with
  | nil => simp [partsWritten]
  | cons p ps ih => cases p <;> simp [partsWritten, ih, and_assoc]

theorem partsAlike_append {R : Lexeme → Lexeme → Prop} {ps qs ps' qs' : List Part}
    (h₁ : partsAlike R ps ps') (h₂ : partsAlike R qs qs') :
    partsAlike R (ps ++ qs) (ps' ++ qs') := by
  induction ps generalizing ps' with
  | nil =>
    cases ps' with
    | nil => exact h₂
    | cons p' ps' => simp [partsAlike] at h₁
  | cons p ps ih =>
    cases ps' with
    | nil => cases p <;> simp [partsAlike] at h₁
    | cons p' ps' =>
      cases p <;> cases p' <;> simp only [partsAlike] at h₁ <;>
        simp only [List.cons_append, partsAlike]
      · exact ⟨h₁.1, ih h₁.2⟩
      · exact ⟨h₁.1, ih h₁.2⟩
      · exact ih h₁

namespace Phrase

theorem lexemesOf_append (ps qs : List Part) :
    lexemesOf (ps ++ qs) = lexemesOf ps ++ lexemesOf qs := by
  induction ps with
  | nil => rfl
  | cons p ps ih => cases p <;> simp [lexemesOf, ih]

end Phrase

/-! ## Lookahead -/

/-- Whether `f` does not tell apart lexemes that are related. -/
def Blind {α : Type} (f : List Lexeme → α) : Prop :=
  ∀ R, Discerning R → ∀ ls ls', List.Forall₂ R ls ls' → f ls' = f ls

theorem blind_next {p : Lexeme → Bool}
    (h : ∀ R, Discerning R → ∀ l l', R l l' → p l' = p l) : Blind (next p) := by
  intro R hR ls ls' hls
  cases hls with
  | nil => rfl
  | cons hl _ => exact h R hR _ _ hl

theorem is_eq {R : Lexeme → Lexeme → Prop} (hR : Discerning R) {l l' : Lexeme} (hl : R l l')
    {kind : TokenKind} (hkind : kind ≠ .identifier) (text : String) :
    l'.is kind text = l.is kind text := by
  obtain ⟨hk, ht⟩ := hR hl
  unfold Lexeme.is
  rw [hk]
  by_cases h : l.kind = kind
  · rw [ht (h ▸ hkind)]
  · rw [beq_false_of_ne h, Bool.false_and, Bool.false_and]

theorem blind_atPunctuation (text : String) : Blind (atPunctuation text) :=
  blind_next fun _ hR _ _ hl => is_eq hR hl (by decide) text

theorem blind_atKeyword (text : String) : Blind (atKeyword text) :=
  blind_next fun _ hR _ _ hl => is_eq hR hl (by decide) text

theorem blind_atIdentifier : Blind atIdentifier :=
  blind_next fun _ hR _ _ hl => by rw [Lexeme.isIdentifier, (hR hl).1]; rfl

theorem blind_isEmpty : Blind fun ls => !ls.isEmpty := by
  intro R hR ls ls' hls
  cases hls <;> rfl

variable {s t : Lookahead}

theorem Blind.after (h : Blind t) (n : Nat) : Blind (after n t) := fun R hR _ _ hls =>
  h R hR _ _ (List.forall₂_drop n hls)

theorem Blind.both (hs : Blind s) (ht : Blind t) : Blind (both s t) := fun R hR ls ls' hls => by
  rw [Xref.both, Xref.both, hs R hR ls ls' hls, ht R hR ls ls' hls]

theorem Blind.either (hs : Blind s) (ht : Blind t) : Blind (either s t) :=
  fun R hR ls ls' hls => by
    rw [Xref.either, Xref.either, hs R hR ls ls' hls, ht R hR ls ls' hls]

/-! ## Combinators -/

namespace Production

open Phrase

/-- The laws of a production that fills slots with nodes of the kinds `ok`. -/
structure Lawful (ok : NodeKind → Bool) (p : Production) : Prop where
  lossless : ∀ ls, lexemesOf (p ls).1 ++ (p ls).2 = ls
  sorted : ∀ ls, partsSorted ok (p ls).1
  written : ∀ ls, partsWritten (p ls).1
  alike : ∀ {R}, Discerning R → ∀ {ls ls'}, List.Forall₂ R ls ls' →
    partsAlike R (p ls).1 (p ls').1 ∧ List.Forall₂ R (p ls).2 (p ls').2

/-- The laws of a production that goes on from what has been built. -/
structure LawfulStep (ok : NodeKind → Bool) (q : List Part → Production) : Prop where
  lossless : ∀ left ls, lexemesOf (q left ls).1 ++ (q left ls).2 = lexemesOf left ++ ls
  sorted : ∀ left ls, partsSorted NodeKind.isPlain left → partsSorted ok (q left ls).1
  written : ∀ left ls, partsWritten left → partsWritten (q left ls).1
  alike : ∀ {R}, Discerning R → ∀ {left left' ls ls'}, partsAlike R left left' →
    List.Forall₂ R ls ls' →
    partsAlike R (q left ls).1 (q left' ls').1 ∧ List.Forall₂ R (q left ls).2 (q left' ls').2

variable {ok : NodeKind → Bool} {p : Production} {ps : List Production}
  {q r : List Part → Production} {test : Lookahead} {kind : NodeKind}

namespace Lawful

theorem nothing : Lawful ok nothing :=
  ⟨fun _ => rfl, fun _ => trivial, fun _ => trivial, fun _ _ _ hls => ⟨trivial, hls⟩⟩

theorem absent : Lawful ok absent :=
  ⟨fun _ => rfl, fun _ => trivial, fun _ => trivial, fun _ _ _ hls => ⟨trivial, hls⟩⟩

theorem take : Lawful ok take where
  lossless ls := by cases ls <;> rfl
  sorted ls := by cases ls <;> trivial
  written ls := by cases ls <;> trivial
  alike _ _ _ hls := by
    cases hls with
    | nil => exact ⟨trivial, .nil⟩
    | cons hl hls => exact ⟨⟨hl, trivial⟩, hls⟩

theorem mono {ok' : NodeKind → Bool} (hp : Lawful ok p) (h : ∀ k, ok k → ok' k) : Lawful ok' p :=
  ⟨hp.lossless, fun ls => partsSorted_mono h (hp.sorted ls), hp.written, hp.alike⟩

theorem nil : Lawful ok (sequence []) := nothing

theorem cons (hp : Lawful ok p) (hps : Lawful ok (sequence ps)) :
    Lawful ok (sequence (p :: ps)) where
  lossless ls := by
    show lexemesOf ((p ls).1 ++ (sequence ps (p ls).2).1) ++ (sequence ps (p ls).2).2 = ls
    rw [lexemesOf_append, List.append_assoc, hps.lossless, hp.lossless]
  sorted ls := partsSorted_append.2 ⟨hp.sorted ls, hps.sorted _⟩
  written ls := partsWritten_append.2 ⟨hp.written ls, hps.written _⟩
  alike hR _ _ hls := by
    have hfirst := hp.alike hR hls
    have hothers := hps.alike hR hfirst.2
    exact ⟨partsAlike_append hfirst.1 hothers.1, hothers.2⟩

theorem choose {p' : Production} (ht : Blind test) (hp : Lawful ok p) (hp' : Lawful ok p') :
    Lawful ok (choose test p p') where
  lossless ls := by
    unfold Production.choose
    split
    · exact hp.lossless ls
    · exact hp'.lossless ls
  sorted ls := by
    unfold Production.choose
    split
    · exact hp.sorted ls
    · exact hp'.sorted ls
  written ls := by
    unfold Production.choose
    split
    · exact hp.written ls
    · exact hp'.written ls
  alike hR ls ls' hls := by
    unfold Production.choose
    rw [ht _ hR ls ls' hls]
    split
    · exact hp.alike hR hls
    · exact hp'.alike hR hls

theorem optional (ht : Blind test) (hp : Lawful ok p) : Lawful ok (optional test p) :=
  hp.choose ht nothing

theorem expect (ht : Blind test) (hp : Lawful ok p) : Lawful ok (expect test p) :=
  hp.choose ht absent

theorem punctuation (text : String) : Lawful ok (punctuation text) :=
  take.expect (blind_atPunctuation text)

theorem identifier : Lawful ok identifier := take.expect blind_atIdentifier

theorem repeated (ht : Blind test) (hp : Lawful ok p) (n : Nat) :
    Lawful ok (repeated test p n) := by
  induction n with
  | zero => exact nothing
  | succ n ih => exact (hp.cons (ih.cons nil)).optional ht

theorem separated (ht : Blind test) (hp : Lawful ok p) (n : Nat) :
    Lawful ok (separated test p n) := by
  induction n with
  | zero => exact nothing
  | succ n ih =>
    have hmore := (take.cons (ih.cons nil)).optional (blind_atPunctuation ",")
    exact (hp.cons (hmore.cons nil)).optional ht

theorem andThen (hp : Lawful NodeKind.isPlain p) (hq : LawfulStep ok q) :
    Lawful ok (p.andThen q) where
  lossless ls := by
    show lexemesOf (q (p ls).1 (p ls).2).1 ++ (q (p ls).1 (p ls).2).2 = ls
    rw [hq.lossless, hp.lossless]
  sorted ls := hq.sorted _ _ (hp.sorted ls)
  written ls := hq.written _ _ (hp.written ls)
  alike hR _ _ hls :=
    have hfound := hp.alike hR hls
    hq.alike hR hfound.1 hfound.2

end Lawful

namespace LawfulStep

theorem keep : LawfulStep NodeKind.isPlain fun left ls => (left, ls) :=
  ⟨fun _ _ => rfl, fun _ _ h => h, fun _ _ h => h, fun _ _ _ _ _ hleft hls => ⟨hleft, hls⟩⟩

/-- A node may take what has been built below it if it allows plain nodes. -/
theorem extend (hok : ok kind) (htype : kind.isType = false)
    (hkind : kind.allows = NodeKind.isPlain) (hps : Lawful kind.allows (sequence ps)) :
    LawfulStep ok fun left => extend left kind ps where
  lossless left ls := by
    show lexemesOf [.node ⟨kind, left ++ (sequence ps ls).1⟩] ++ (sequence ps ls).2 = _
    rw [lexemesOf, lexemesOf, Phrase.lexemes, lexemesOf_append, List.append_nil,
      List.append_assoc, hps.lossless]
  sorted left ls hleft :=
    ⟨hok, partsSorted_append.2 ⟨by rw [hkind]; exact hleft, hps.sorted ls⟩, trivial⟩
  written left ls hleft :=
    ⟨⟨NodeKind.isWrittenAs_of_not_isType htype _,
      partsWritten_append.2 ⟨hleft, hps.written ls⟩⟩, trivial⟩
  alike hR _ _ _ _ hleft hls :=
    have hfound := hps.alike hR hls
    ⟨⟨⟨rfl, partsAlike_append hleft hfound.1⟩, trivial⟩, hfound.2⟩

/-- Which production goes on may depend on the lexemes ahead. -/
theorem dispatch {α : Type} {f : List Lexeme → α} {q : α → List Part → Production}
    (hf : Blind f) (hq : ∀ a, LawfulStep ok (q a)) :
    LawfulStep ok fun left ls => q (f ls) left ls where
  lossless left ls := (hq _).lossless left ls
  sorted left ls := (hq _).sorted left ls
  written left ls := (hq _).written left ls
  alike hR left left' ls ls' hleft hls := by
    rw [hf _ hR ls ls' hls]
    exact (hq _).alike hR hleft hls

theorem choose (ht : Blind test) (hq : LawfulStep ok q) (hr : LawfulStep ok r) :
    LawfulStep ok fun left => choose test (q left) (r left) := by
  refine dispatch (f := test)
    (q := fun b left ls => if b then q left ls else r left ls) ht fun b => ?_
  cases b
  · exact hr
  · exact hq

theorem growing (ht : Blind test) (hq : LawfulStep NodeKind.isPlain q) (n : Nat) :
    LawfulStep NodeKind.isPlain (growing test q n) := by
  induction n with
  | zero => exact keep
  | succ n ih =>
    have hgrown : LawfulStep NodeKind.isPlain fun left =>
        (q left).andThen (Production.growing test q n) :=
      { lossless := fun left ls => (ih.lossless _ _).trans (hq.lossless left ls)
        sorted := fun left ls hleft => ih.sorted _ _ (hq.sorted left ls hleft)
        written := fun left ls hleft => ih.written _ _ (hq.written left ls hleft)
        alike := fun hR _ _ _ _ hleft hls =>
          have hstep := hq.alike hR hleft hls
          ih.alike hR hstep.1 hstep.2 }
    exact hgrown.choose ht keep

end LawfulStep

/-- A node is lawful if what fills its slots is, and where it is made it is written out. -/
theorem Lawful.choose_node {p' : Production} (ht : Blind test) (hok : ok kind)
    (hwritten : ∀ ls, test ls → kind.isWrittenAs ((sequence ps ls).1.map Slot.token?))
    (hps : Lawful kind.allows (sequence ps)) (hp' : Lawful ok p') :
    Lawful ok (Production.choose test (Production.node kind ps) p') where
  lossless ls := by
    unfold Production.choose
    split
    · show lexemesOf [.node ⟨kind, (sequence ps ls).1⟩] ++ (sequence ps ls).2 = ls
      rw [lexemesOf, lexemesOf, Phrase.lexemes, List.append_nil, hps.lossless]
    · exact hp'.lossless ls
  sorted ls := by
    unfold Production.choose
    split
    · exact ⟨hok, hps.sorted ls, trivial⟩
    · exact hp'.sorted ls
  written ls := by
    unfold Production.choose
    split
    · exact ⟨⟨hwritten ls ‹_›, hps.written ls⟩, trivial⟩
    · exact hp'.written ls
  alike hR ls ls' hls := by
    unfold Production.choose
    rw [ht _ hR ls ls' hls]
    split
    · exact ⟨⟨⟨rfl, (hps.alike hR hls).1⟩, trivial⟩, (hps.alike hR hls).2⟩
    · exact hp'.alike hR hls

/-- A node other than a written type is lawful if what fills its slots is. -/
theorem Lawful.node (hok : ok kind) (htype : kind.isType = false)
    (hps : Lawful kind.allows (sequence ps)) : Lawful ok (node kind ps) :=
  have hblind : Blind fun _ => true := fun _ _ _ _ _ => rfl
  choose_node hblind hok (fun _ _ => NodeKind.isWrittenAs_of_not_isType htype _) hps absent

theorem Lawful.invalid (hok : ok .invalid) : Lawful ok invalid := .node hok rfl (take.cons nil)

/-- What a production leaves is an end of what was there. -/
theorem Lawful.length_le (hp : Lawful ok p) (ls : List Lexeme) : (p ls).2.length ≤ ls.length := by
  conv_rhs => rw [← hp.lossless ls]
  simp

/-- A production that makes a node with the next lexeme in it takes a lexeme. -/
theorem Lawful.length_lt (hp : Lawful ok p) {l : Lexeme} {ls : List Lexeme} {more : List Part}
    (h : (p (l :: ls)).1 = [.node ⟨kind, .token l :: more⟩]) :
    (p (l :: ls)).2.length < (l :: ls).length := by
  have hlossless := congrArg List.length (hp.lossless (l :: ls))
  simp only [h, lexemesOf, Phrase.lexemes, List.append_nil, List.length_append,
    List.length_cons] at hlossless
  rw [List.length_cons]
  omega

end Production

/-! ## The grammar -/

namespace Grammar

open Production

theorem blind_strength? {α : Type} (f : Option Nat → α) :
    Blind fun ls => f (ls.head?.bind strength?) := by
  intro R hR ls ls' hls
  cases hls with
  | nil => rfl
  | cons hl _ =>
    obtain ⟨hk, ht⟩ := hR hl
    dsimp only [List.head?_cons, Option.bind_some]
    congr 1
    unfold strength?
    rw [hk]
    split
    · rename_i h
      rw [ht (by rw [h]; decide)]
    · rfl

theorem blind_atOperator (least : Nat) : Blind (atOperator least) := by
  have : atOperator least = fun ls => (ls.head?.bind strength?).any (least ≤ ·) := by
    funext ls
    cases ls <;> rfl
  rw [this]
  exact blind_strength? fun n => n.any (least ≤ ·)

theorem blind_nextStrength : Blind nextStrength := blind_strength? fun n => n.getD 0

theorem blind_atLiteral : Blind atLiteral :=
  blind_next fun _ hR _ _ hl => by rw [(hR hl).1]

theorem blind_atSign : Blind atSign := (blind_atPunctuation "-").either (blind_atPunctuation "!")

theorem blind_atExpression : Blind atExpression :=
  blind_atIdentifier.either (blind_atLiteral.either ((blind_atPunctuation "(").either blind_atSign))

theorem blind_atMember : Blind atMember :=
  (blind_atPunctuation ".").both (blind_atIdentifier.after 1)

/-- A production that fills slots with plain nodes. -/
abbrev Plain (p : Production) : Prop := Lawful NodeKind.isPlain p

/-- A production that fills slots with statements or parts of one. -/
abbrev Statement (p : Production) : Prop := Lawful NodeKind.isPart p

theorem Plain.statement {p : Production} (h : Plain p) : Statement p :=
  h.mono fun _ => NodeKind.isPart_of_isPlain

section
variable {inner : Production} {n : Nat}

theorem lawful_argumentList (h : Plain inner) : Plain (argumentList inner n) := by
  have harg : Plain (node .positionalArgument [inner]) := .node (by decide) rfl (h.cons .nil)
  exact .node (by decide) rfl <|
    Lawful.take.cons <| (harg.separated blind_atExpression n).cons <|
      (Lawful.punctuation ")").cons .nil

theorem lawful_nameReference : Plain nameReference := by
  refine .choose (((blind_atPunctuation ":").after 1).both (blind_atIdentifier.after 2)) ?_ ?_
  · exact .node (by decide) rfl (Lawful.take.cons (Lawful.take.cons (Lawful.take.cons .nil)))
  · exact .node (by decide) rfl (Lawful.take.cons .nil)

theorem lawful_operand (h : Plain inner) : Plain (operand inner n) := by
  refine .choose blind_atIdentifier ?_ (.choose blind_atLiteral ?_ (.expect ?_ ?_))
  · have hcall : LawfulStep NodeKind.isPlain fun name =>
        extend name .functionCall [argumentList inner n] :=
      .extend (by decide) rfl rfl ((lawful_argumentList h).cons .nil)
    exact lawful_nameReference.andThen (hcall.choose (blind_atPunctuation "(") .keep)
  · exact .node (by decide) rfl (Lawful.take.cons .nil)
  · exact blind_atPunctuation "("
  · exact .node (by decide) rfl (Lawful.take.cons (h.cons ((Lawful.punctuation ")").cons .nil)))

theorem lawful_member (h : Plain inner) : LawfulStep NodeKind.isPlain (member inner n) := by
  refine .choose ((blind_atPunctuation "(").after 2) ?_ ?_
  · exact .extend (by decide) rfl rfl <|
      Lawful.take.cons (Lawful.take.cons ((lawful_argumentList h).cons .nil))
  · exact .extend (by decide) rfl rfl (Lawful.take.cons (Lawful.take.cons .nil))

theorem lawful_memberChain (h : Plain inner) : Plain (memberChain inner n) :=
  (lawful_operand h).andThen ((lawful_member h).growing blind_atMember n)

theorem lawful_signed (h : Plain inner) (m : Nat) : Plain (signed inner n m) := by
  induction m with
  | zero => exact lawful_memberChain h
  | succ m ih =>
    refine .choose blind_atSign ?_ (lawful_memberChain h)
    exact .node (by decide) rfl (Lawful.take.cons ((ih.expect blind_atExpression).cons .nil))

end

theorem lawful_expressionAbove (n least : Nat) : Plain (expressionAbove n least) := by
  induction n generalizing least with
  | zero => exact .absent
  | succ n ih =>
    refine .expect blind_atExpression ((lawful_signed (ih 0) _).andThen ?_)
    refine .growing (blind_atOperator least) ?_ n
    exact .dispatch blind_nextStrength
      (q := fun k left => extend left .binaryExpression [take, expressionAbove n (k + 1)])
      fun k => .extend (by decide) rfl rfl (Lawful.take.cons ((ih (k + 1)).cons .nil))

theorem lawful_expression (n : Nat) : Plain (expression n) := lawful_expressionAbove n 0

/-- The productions of a type name write one. -/
theorem written_typeReference {ls : List Lexeme} (h : atIdentifier ls) :
    NodeKind.typeReference.isWrittenAs ((sequence [take, optional
      (both (atPunctuation ":") (after 1 atIdentifier)) (sequence [take, take])] ls).1.map
        Slot.token?) := by
  cases ls with
  | nil => cases h
  | cons first rest =>
    have hfirst : first.isIdentifier := h
    show NodeKind.typeReference.isWrittenAs (some first :: ((optional
      (both (atPunctuation ":") (after 1 atIdentifier)) (sequence [take, take]) rest).1 ++
        []).map Slot.token?)
    cases hqualified : both (atPunctuation ":") (after 1 atIdentifier) rest with
    | false =>
      rw [Production.optional, choose, if_neg (by rw [hqualified]; decide)]
      exact hfirst
    | true =>
      rw [Production.optional, choose, if_pos hqualified]
      obtain ⟨hcolon, hlast⟩ := Bool.and_eq_true_iff.1 hqualified
      match rest with
      | [] => cases hcolon
      | [_] => cases hlast
      | colon :: last :: rest =>
        exact Bool.and_eq_true_iff.2 ⟨Bool.and_eq_true_iff.2 ⟨hfirst, hcolon⟩, hlast⟩

theorem lawful_typeReference : Plain typeReference := by
  have hplain : NodeKind.isPlain .typeReference := by decide
  refine .choose_node blind_atIdentifier hplain (fun _ => written_typeReference)
    (Lawful.take.cons (.cons ?_ .nil)) .absent
  exact (Lawful.take.cons (Lawful.take.cons .nil)).optional
    ((blind_atPunctuation ":").both (blind_atIdentifier.after 1))

theorem lawful_typeDescriptor (n : Nat) : Plain (typeDescriptor n) := by
  induction n with
  | zero => exact .absent
  | succ n ih =>
    have hfield : Lawful (NodeKind.allows .recordTypeDescriptor)
        (node .recordField [take, punctuation ":", typeDescriptor n, punctuation ";"]) :=
      .node (by decide) rfl <| Lawful.take.cons <| (Lawful.punctuation ":").cons <|
        ih.cons ((Lawful.punctuation ";").cons .nil)
    have hplain : NodeKind.isPlain .recordTypeDescriptor := by decide
    refine .choose_node (blind_atKeyword "record") hplain (fun ls hls => ?_) ?_
      lawful_typeReference
    · cases ls with
      | nil => cases hls
      | cons l ls => exact hls
    exact Lawful.take.cons <| (Lawful.punctuation openBrace).cons <|
      (hfield.repeated blind_atIdentifier n).cons ((Lawful.punctuation closeBrace).cons .nil)

/-! ### Statements and items -/

section
variable {ok : NodeKind → Bool} {kind : NodeKind} {n : Nat}

theorem lawful_variableDeclaration (hok : ok kind) (htype : kind.isType = false)
    (hkind : kind.allows = NodeKind.isPlain) : Lawful ok (variableDeclaration kind n) := by
  refine .node hok htype ?_
  rw [hkind]
  have htype := Lawful.take.cons ((lawful_typeDescriptor n).cons .nil)
  have hvalue := Lawful.take.cons ((lawful_expression n).cons .nil)
  exact Lawful.take.cons <| Lawful.identifier.cons <|
    (htype.optional (blind_atPunctuation ":")).cons <|
      (hvalue.optional (blind_atPunctuation "=")).cons ((Lawful.punctuation ";").cons .nil)

theorem blind_insideBlock : Blind insideBlock := fun R hR ls ls' hls => by
  have hempty : (!ls'.isEmpty) = (!ls.isEmpty) := blind_isEmpty R hR ls ls' hls
  rw [insideBlock, insideBlock, hempty, blind_atPunctuation closeBrace R hR ls ls' hls]

theorem lawful_block {statement : Production} (hok : ok kind) (htype : kind.isType = false)
    (hkind : kind.allows = NodeKind.isPart) (h : Statement statement) :
    Lawful ok (block kind statement n) := by
  refine .node hok htype ?_
  rw [hkind]
  exact Lawful.take.cons <| (h.repeated blind_insideBlock n).cons <|
    (Lawful.punctuation closeBrace).cons .nil

theorem lawful_expressionStatement (n : Nat) : Statement (expressionStatement n) := by
  refine (lawful_expression n).andThen (.choose (blind_atPunctuation "=") ?_ ?_)
  · exact .extend (by decide) rfl rfl <|
      Lawful.take.cons ((lawful_expression n).cons ((Lawful.punctuation ";").cons .nil))
  · exact .extend (by decide) rfl rfl ((Lawful.punctuation ";").cons .nil)

theorem lawful_statement (n : Nat) : Statement (statement n) := by
  induction n with
  | zero => exact .invalid (by decide)
  | succ n ih =>
    have hnested : Statement (block .blockStatement (statement n) n) :=
      lawful_block (by decide) rfl rfl ih
    have hbody := hnested.expect (blind_atPunctuation openBrace)
    have helse : Statement (node .elseBlock
        [take, choose (atKeyword "if") (statement n) (expect (atPunctuation openBrace)
          (block .blockStatement (statement n) n))]) :=
      .node (by decide) rfl (Lawful.take.cons ((ih.choose (blind_atKeyword "if") hbody).cons .nil))
    have hreturned := (lawful_expression n).optional blind_atExpression
    refine .choose (blind_atKeyword "let") (lawful_variableDeclaration (by decide) rfl rfl) ?_
    refine .choose (blind_atKeyword "return") (.node (by decide) rfl ?_) ?_
    · exact Lawful.take.cons (hreturned.cons ((Lawful.punctuation ";").cons .nil))
    refine .choose (blind_atKeyword "if") (.node (by decide) rfl ?_) ?_
    · exact Lawful.take.cons <| (lawful_expression n).statement.cons <| hbody.cons <|
        (helse.optional (blind_atKeyword "else")).cons .nil
    refine .choose (blind_atKeyword "while") (.node (by decide) rfl ?_) ?_
    · exact Lawful.take.cons ((lawful_expression n).statement.cons (hbody.cons .nil))
    refine .choose (blind_atPunctuation openBrace) hnested ?_
    exact .choose blind_atExpression (lawful_expressionStatement (n + 1)) (.invalid (by decide))

/-- A production that fills slots with what can lie right below a function. -/
abbrev Signature (p : Production) : Prop := Lawful (NodeKind.allows .functionDefinition) p

theorem lawful_parameterList (n : Nat) : Signature (parameterList n) := by
  have hparameter : Lawful (NodeKind.allows .parameterList)
      (node .requiredParameter [take, punctuation ":", typeDescriptor n]) :=
    .node (by decide) rfl <|
      Lawful.take.cons ((Lawful.punctuation ":").cons ((lawful_typeDescriptor n).cons .nil))
  refine .expect (blind_atPunctuation "(") (.node (by decide) rfl ?_)
  exact Lawful.take.cons <| (hparameter.separated blind_atIdentifier n).cons <|
    (Lawful.punctuation ")").cons .nil

end

/-- A production that fills slots with what can lie at the top of a module. -/
abbrev Outer (p : Production) : Prop := Lawful (NodeKind.allows .modulePart) p

theorem lawful_functionDefinition (n : Nat) : Outer (functionDefinition n) := by
  have hresult : Signature (node .returnTypeDescriptor [take, typeDescriptor n]) :=
    .node (by decide) rfl (Lawful.take.cons ((lawful_typeDescriptor n).cons .nil))
  have hbody : Signature (block .functionBody (statement n) n) :=
    lawful_block (by decide) rfl rfl (lawful_statement n)
  refine .node (by decide) rfl ?_
  exact Lawful.take.cons <| Lawful.identifier.cons <| (lawful_parameterList n).cons <|
    (hresult.optional (blind_atPunctuation "->")).cons <|
      (hbody.expect (blind_atPunctuation openBrace)).cons .nil

theorem lawful_typeDefinition (n : Nat) : Outer (typeDefinition n) := by
  refine .node (by decide) rfl ?_
  exact Lawful.take.cons <| Lawful.identifier.cons <| (Lawful.punctuation "=").cons <|
    (lawful_typeDescriptor n).cons ((Lawful.punctuation ";").cons .nil)

theorem lawful_item (n : Nat) : Outer (item n) := by
  refine .choose (blind_atKeyword "import") (.node (by decide) rfl ?_) ?_
  · exact Lawful.take.cons (Lawful.identifier.cons ((Lawful.punctuation ";").cons .nil))
  refine .choose (blind_atKeyword "fn") (lawful_functionDefinition n) ?_
  refine .choose (blind_atKeyword "type") (lawful_typeDefinition n) ?_
  exact .choose (blind_atKeyword "let") (lawful_variableDeclaration (by decide) rfl rfl)
    (.invalid (by decide))

theorem lawful_items (n : Nat) : Outer (items n) := (lawful_item n).repeated blind_isEmpty n

/-! ## Whole texts -/

/-- Every item takes a lexeme, if there is one. -/
theorem item_cons (n : Nat) (l : Lexeme) (ls : List Lexeme) :
    ∃ kind more, (item n (l :: ls)).1 = [.node ⟨kind, .token l :: more⟩] := by
  unfold item choose
  split
  · exact ⟨_, _, rfl⟩
  split
  · exact ⟨_, _, rfl⟩
  split
  · exact ⟨_, _, rfl⟩
  split <;> exact ⟨_, _, rfl⟩

theorem item_length_lt (n : Nat) (l : Lexeme) (ls : List Lexeme) :
    (item n (l :: ls)).2.length < (l :: ls).length := by
  obtain ⟨kind, more, h⟩ := item_cons n l ls
  exact (lawful_item n).length_lt h

/-- As many items as there are lexemes take all of them. -/
theorem items_rest {m n : Nat} {ls : List Lexeme} (h : ls.length ≤ n) :
    (repeated (fun ls => !ls.isEmpty) (item m) n ls).2 = [] := by
  induction n generalizing ls with
  | zero => exact List.length_eq_zero_iff.1 (Nat.le_zero.1 h)
  | succ n ih =>
    cases ls with
    | nil => rfl
    | cons l ls =>
      have hlt := item_length_lt m l ls
      have hle : (item m (l :: ls)).2.length ≤ n := by omega
      exact ih hle

end Grammar

open Grammar Production

namespace Phrase

/-- **Parsing loses nothing:** a phrase of a source text holds the lexemes of the text. -/
theorem lexemes_ofSource (source : String) : (ofSource source).lexemes = lex source := by
  have hall := (lawful_items (scan source).1.length).lossless (scan source).1
  rw [items, items_rest (Nat.le_refl _), List.append_nil] at hall
  show lexemesOf ((items _ _).1 ++ [.token (scan source).2]) = _
  rw [lexemesOf_append, items, hall]
  rfl

theorem sorted_ofSource (source : String) : (ofSource source).Sorted :=
  partsSorted_append.2 ⟨(lawful_items _).sorted _, trivial⟩

theorem written_ofSource (source : String) : (ofSource source).Written :=
  ⟨rfl, partsWritten_append.2 ⟨(lawful_items _).written _, trivial⟩⟩

/-- Texts whose lexemes differ in names only have phrases that differ in names only. -/
theorem alike_ofSource {R : Lexeme → Lexeme → Prop} (hR : Discerning R) {source source' : String}
    (hitems : List.Forall₂ R (scan source).1 (scan source').1)
    (hend : R (scan source).2 (scan source').2) : (ofSource source).Alike R (ofSource source') := by
  refine ⟨rfl, partsAlike_append ?_ ⟨hend, trivial⟩⟩
  rw [← hitems.length_eq]
  exact ((lawful_items _).alike hR hitems).1

end Phrase

end Xref
