import Xref.Grammar.Modules
import Xref.Proofs.Syntax.Expressions
import Xref.Proofs.Syntax.Placement

/-!
# The language of the parser

Parsing never fails: what is not there leaves an empty slot, and what fits nowhere is wrapped as
invalid. So the texts of the language are those whose tree has neither. They are the texts that the
grammar derives (`parse_isClean_iff`).
-/

namespace Xref

namespace Grammar

open Production

variable {n : Nat} {f : Lookahead} {p : Production} {kind : NodeKind}

/-! ## Statements -/

theorem accepts_variableDeclaration (hkind : kind ≠ .invalid) :
    Accepts (n + 1) (atKeyword "let") (.the .letDeclaration) f (variableDeclaration kind n) := by
  have htype : Accepts n always (.optional (.row [.punctuation ":", .the .type])) (atAny closers)
      (optional (atPunctuation ":") (sequence [take, typeDescriptor n])) :=
    .optional (looks_punctuation ":") (by decide) ((looks_punctuation ":").not_of_atAny (by decide))
      (.marked (looks_punctuation ":") (accepts_typeDescriptor n))
  have hvalue : Accepts n always (.optional (.row [.punctuation "=", .the .expr]))
      (atAny [.exactly .punctuation ";"])
      (optional (atPunctuation "=") (sequence [take, expression n])) :=
    .optional (looks_punctuation "=") (by decide) ((looks_punctuation "=").not_of_atAny (by decide))
      (.marked (looks_punctuation "=")
        ((accepts_expression n).before fun _ hls => atAny_mono (by decide) hls))
  refine .the (.node hkind (.take_cons (looks_keyword "let").tests ?_))
  exact .cons_free .identifier <| htype.cons (.first (by decide)) <|
    hvalue.cons (.first (by decide)) (.last (.punctuation ";"))

/-- What may follow a statement. -/
def behindStatement : List Pattern := .exactly .punctuation closeBrace :: Nonterminal.first .stmt

theorem accepts_block (hkind : kind ≠ .invalid)
    (h : Accepts n always (.the .stmt) (atAny behindStatement) p) :
    Accepts (n + 1) (atPunctuation openBrace) (.the .block) f (block kind p n) := by
  have hstatements : Accepts n always (.star (.the .stmt))
      (atAny [.exactly .punctuation closeBrace]) (repeated insideBlock p n) := by
    refine (h.restrict (t := insideBlock) fun _ _ => rfl).repeated rfl
      (fun ls rest hread => ⟨?_, hread.atAny (by decide)⟩)
      (fun ls hls => ⟨?_, atAny_mono (by decide) hls⟩) (Nat.le_refl n)
    · have hclose := (looks_punctuation closeBrace).not_of_reads hread (by decide)
      have hlength := hread.length_lt rfl
      have hempty : ls.isEmpty = false := by cases ls <;> simp at hlength ⊢
      simp [insideBlock, hclose, hempty]
    · simp [insideBlock, (looks_punctuation closeBrace ls).trans hls]
  refine .the (.node hkind (.take_cons (looks_punctuation openBrace).tests ?_))
  exact hstatements.cons (.first (by decide)) (.last (.punctuation closeBrace))

theorem accepts_expressionStatement :
    Accepts (n + 1) always
      (.row [.the .expr, .optional (.row [.punctuation "=", .the .expr]), .punctuation ";"]) f
      (expressionStatement (n + 1)) := by
  have hassign : AcceptsStep n (atPunctuation "=")
      (.row [.punctuation "=", .the .expr, .punctuation ";"]) f
      fun left => extend left .assignmentStatement [take, expression (n + 1), punctuation ";"] :=
    .extend (by decide) <| .mono (.take_cons (looks_punctuation "=").tests <|
      (accepts_expression (n + 1)).cons (.first (by decide)) (.last (.punctuation ";")))
        (by omega)
  have hstep : AcceptsStep n always
      (.alt (.row [.punctuation "=", .the .expr, .punctuation ";"]) (.row [.punctuation ";"])) f
      fun left => choose (atPunctuation "=")
        (extend left .assignmentStatement [take, expression (n + 1), punctuation ";"])
        (extend left .expressionStatement [punctuation ";"]) :=
    hassign.choose (looks_punctuation "=") (by decide) (by decide)
      (.extend (by decide) (.last (.punctuation ";")))
  refine ((accepts_expression (n + 1)).andThen rfl (.first (by decide)) hstep).congr ?_
  intro ls rest _
  rw [reads_row_cons, reads_seq]
  simp only [reads_row_optional, reads_alt, List.cons_append, List.nil_append]

/-- A statement that starts as a conditional is one. -/
theorem accepts_ifStatement (h : Accepts n always (.the .stmt) (atAny behindStatement) p) :
    Accepts n (atKeyword "if") (.the .ifStmt) (atAny behindStatement) p := by
  refine (h.restrict fun _ _ => rfl).congr fun ls rest hls => ⟨fun hread => ?_, fun hread => ?_⟩
  · exact reads_the.2 (reads_alt.2 (.inr (reads_alt.2 (.inr (reads_alt.2 (.inl hread))))))
  · have hif := looks_keyword "if"
    rcases reads_alt.1 (reads_the.1 hread) with hlet | hread
    · exact absurd hls (hif.not_of_reads hlet (by decide))
    rcases reads_alt.1 hread with hreturn | hread
    · exact absurd hls (hif.not_of_reads hreturn (by decide))
    rcases reads_alt.1 hread with hread | hread
    · exact hread
    · exact absurd hls (hif.not_of_reads hread (by decide))

theorem accepts_statement (n : Nat) :
    Accepts n always (.the .stmt) (atAny behindStatement) (statement n) := by
  induction n with
  | zero => exact Accepts.invalid.zero (k := 0) (s := always) (f := always) rfl rfl
  | succ n ih =>
    have hnested : ∀ {f}, Accepts (n + 1) (atPunctuation openBrace) (.the .block) f
        (block .blockStatement (statement n) n) := accepts_block (by decide) ih
    have hbody : ∀ {f}, Accepts n always (.the .block) f
        (expect (atPunctuation openBrace) (block .blockStatement (statement n) n)) :=
      .expect (looks_punctuation openBrace) (by decide) (hnested.mono (Nat.le_succ n))
    have hreturned : Accepts n always (.optional (.the .expr)) (atAny [.exactly .punctuation ";"])
        (optional atExpression (expression n)) :=
      .optional looks_expression (by decide) (looks_expression.not_of_atAny (by decide))
        (((accepts_expression n).before fun _ hls => atAny_mono (by decide) hls).restrict
          fun _ _ => rfl)
    have helse : Accepts n always
        (.optional (.row [.keyword "else", .oneOf [.the .ifStmt, .the .block]]))
        (atAny behindStatement)
        (optional (atKeyword "else") (node .elseBlock
          [take, choose (atKeyword "if") (statement n)
            (expect (atPunctuation openBrace)
              (block .blockStatement (statement n) n))])) :=
      .optional (looks_keyword "else") (by decide)
        ((looks_keyword "else").not_of_atAny (by decide)) <| .node (by decide) <|
          .marked (looks_keyword "else") <| .choose (looks_keyword "if") (by decide) (by decide)
            (accepts_ifStatement ih) hbody.orNever
    refine .the (.choose (looks_keyword "let") (by decide) (by decide)
      (accepts_variableDeclaration (by decide)) ?_)
    refine .choose (looks_keyword "return") (by decide) (by decide) (.node (by decide) ?_) ?_
    · exact .take_cons (looks_keyword "return").tests <|
        hreturned.cons (.first (by decide)) (.last (.punctuation ";"))
    refine .choose (looks_keyword "if") (by decide) (by decide) (.the (.node (by decide) ?_)) ?_
    · exact .take_cons (looks_keyword "if").tests <|
        (accepts_expression n).cons (.first (by decide)) (.cons_free hbody helse.last)
    refine .choose (looks_keyword "while") (by decide) (by decide) (.node (by decide) ?_) ?_
    · exact .take_cons (looks_keyword "while").tests <|
        (accepts_expression n).cons (.first (by decide)) (.last hbody)
    refine .choose (looks_punctuation openBrace) (by decide) (by decide) hnested ?_
    exact .choose looks_expression (by decide) (by decide)
      (accepts_expressionStatement.restrict fun _ _ => rfl) .invalid

/-! ## Items -/

theorem accepts_parameterList : Accepts n always (.the .params) f (parameterList n) := by
  have hparameter : Accepts n atIdentifier (.the .param) (atAny closers)
      (node .requiredParameter [take, punctuation ":", typeDescriptor n]) :=
    .the <| .node (by decide) <| .mono (.take_cons looks_identifier.tests <|
      .cons_free (.punctuation ":") (accepts_typeDescriptor n).last) (Nat.le_succ n)
  refine .expect (looks_punctuation "(") (by decide) (.the (.node (by decide) ?_))
  exact (accepts_bracketed looks_identifier (by decide) (by decide) hparameter).mono
    (Nat.le_succ n)

theorem accepts_functionDefinition :
    Accepts (n + 1) (atKeyword "fn")
      (.row [.keyword "fn", .identifier, .the .params,
        .optional (.row [.punctuation "->", .the .type]), .the .block]) f
      (functionDefinition n) := by
  have hresult : Accepts n always (.optional (.row [.punctuation "->", .the .type]))
      (atAny [.exactly .punctuation openBrace])
      (optional (atPunctuation "->") (node .returnTypeDescriptor [take, typeDescriptor n])) :=
    .optional (looks_punctuation "->") (by decide)
      ((looks_punctuation "->").not_of_atAny (by decide)) <| .node (by decide) <|
        .marked (looks_punctuation "->")
          ((accepts_typeDescriptor n).before fun _ hls => atAny_mono (by decide) hls)
  have hbody : Accepts n always (.the .block) f
      (expect (atPunctuation openBrace) (block .functionBody (statement n) n)) :=
    .expect (looks_punctuation openBrace) (by decide)
      (.mono (accepts_block (by decide) (accepts_statement n)) (Nat.le_succ n))
  refine .node (by decide) (.take_cons (looks_keyword "fn").tests ?_)
  exact .cons_free .identifier <| .cons_free accepts_parameterList <|
    hresult.cons (.first (by decide)) hbody.last

theorem accepts_item : Accepts n always (.the .item) f (item n) := by
  have himport : Accepts (n + 1) (atKeyword "import")
      (.row [.keyword "import", .identifier, .punctuation ";"]) f
      (node .importDeclaration [take, identifier, punctuation ";"]) :=
    .node (by decide) <| .take_cons (looks_keyword "import").tests <|
      .cons_free .identifier (.last (.punctuation ";"))
  have htype : Accepts (n + 1) (atKeyword "type")
      (.row [.keyword "type", .identifier, .punctuation "=", .the .type, .punctuation ";"]) f
      (typeDefinition n) :=
    .node (by decide) <| .take_cons (looks_keyword "type").tests <|
      .cons_free .identifier <| .cons_free (.punctuation "=") <|
        (accepts_typeDescriptor n).cons (.first (by decide)) (.last (.punctuation ";"))
  have hle := Nat.le_succ n
  refine .the (.choose (looks_keyword "import") (by decide) (by decide) (himport.mono hle) ?_)
  refine .choose (looks_keyword "fn") (by decide) (by decide)
    (accepts_functionDefinition.mono hle) ?_
  refine .choose (looks_keyword "type") (by decide) (by decide) (htype.mono hle) ?_
  exact .choose (looks_keyword "let") (by decide) (by decide)
    (.mono (accepts_variableDeclaration (by decide)) hle) .invalid

/-- The items of a module accept any number of items, up to the end. -/
theorem accepts_items (n : Nat) :
    Accepts n always (.star (.the .item)) List.isEmpty (items n) := by
  refine (accepts_item.restrict fun _ _ => rfl).repeated (f := always) rfl
    (fun ls rest hread => ⟨?_, rfl⟩) (fun ls hls => ⟨?_, rfl⟩) (Nat.le_refl n)
  · have hlength := hread.length_lt rfl
    cases ls with
    | nil => simp at hlength
    | cons l ls => rfl
  · simp [hls]

/-- The items of a module are clean just if they are the items of the grammar. -/
theorem partsClean_items {ls : List Lexeme} :
    partsClean (items ls.length ls).1 ↔ Reads (.star (.the .item)) ls [] := by
  have h := accepts_items ls.length
  constructor
  · intro hclean
    have hread := h.sound ls (Nat.le_refl _) rfl hclean
    rwa [items, items_rest (Nat.le_refl _)] at hread
  · exact fun hread => (h.complete ls [] (Nat.le_refl _) rfl hread rfl).1

end Grammar

/-- A module is its items and the end of the file. -/
theorem derives_module {ls : List Lexeme} {ending : Lexeme} (hend : ending.kind = .endOfFile) :
    Derives (.the .module) ((ls ++ [ending]).map Lexeme.terminal) ↔
      Reads (.star (.the .item)) ls [] := by
  rw [← reads_nil, reads_the, Nonterminal.rule]
  simp only [reads_row_cons, reads_row_nil, exists_eq_right, reads_token]
  constructor
  · rintro ⟨_, ⟨as, happ, h⟩, l, rfl, -⟩
    rw [(List.append_inj' happ rfl).1]
    exact ⟨as, (List.append_nil as).symm, h⟩
  · rintro ⟨as, rfl, h⟩
    refine ⟨[ending], ⟨as, by rw [List.append_nil], h⟩, ending, rfl, ?_⟩
    rw [Pattern.fits, Lexeme.terminal, hend]
    rfl

/-! ## Trees -/

/-- Whether a node is not invalid and none of its slots is empty. -/
def Node.IsClean (n : Node) : Prop := n.kind ≠ .invalid ∧ ∀ s ∈ n.slots, ¬ s.isMissing

instance (n : Node) : Decidable n.IsClean :=
  inferInstanceAs (Decidable (n.kind ≠ .invalid ∧ ∀ s ∈ n.slots, ¬ s.isMissing))

/-- Whether no node of a tree is invalid, and no slot is empty. -/
def Tree.IsClean (t : Tree) : Prop := ∀ n ∈ t.nodes, n.IsClean

instance (t : Tree) : Decidable t.IsClean :=
  inferInstanceAs (Decidable (∀ n ∈ t.nodes, n.IsClean))

mutual

theorem isClean_placed : ∀ (q : Phrase) (p : Place),
    (∀ n ∈ (q.placed p).1.preorder, n.IsClean) ↔ q.IsClean
  | ⟨kind, slots⟩, p => by
    have hpre : ((Phrase.mk kind slots).placed p).1.preorder =
        ((Phrase.mk kind slots).placed p).1 :: Node.preorderOf (placedParts slots p).1 := rfl
    rw [hpre, List.forall_mem_cons, Phrase.IsClean, ← partsClean_placedParts slots p, ← and_assoc]
    rfl

theorem partsClean_placedParts : ∀ (qs : List Part) (p : Place),
    ((∀ s ∈ (placedParts qs p).1, ¬ s.isMissing) ∧
      ∀ n ∈ Node.preorderOf (placedParts qs p).1, n.IsClean) ↔ partsClean qs
  | [], _ => by simp [placedParts, partsClean, Node.preorderOf]
  | .node q :: rest, p => by
    have hpre : Node.preorderOf (placedParts (.node q :: rest) p).1 =
        (q.placed p).1.preorder ++ Node.preorderOf (placedParts rest (q.placed p).2).1 := rfl
    rw [hpre, partsClean, ← isClean_placed q p, ← partsClean_placedParts rest (q.placed p).2]
    simp only [placedParts, List.forall_mem_cons, List.forall_mem_append, Slot.isMissing]
    simp [and_left_comm]
  | .token l :: rest, p => by
    rw [partsClean, ← partsClean_placedParts rest (p.behindToken l)]
    simp [placedParts, Node.preorderOf, Slot.isMissing]
  | .missing :: rest, p => by simp [placedParts, partsClean, Slot.isMissing]

end

/-- **The parser accepts exactly its grammar:** nothing in the tree of a source text is invalid or
missing if and only if the grammar derives its lexemes. Only a text with too many bytes for offsets
has no tree. -/
theorem parse_isClean_iff (source : String) :
    (∃ t, parse source = .ok t ∧
      (t.IsClean ↔ Derives (.the .module) ((lex source).map Lexeme.terminal))) ∨
    (parse source = .error .tooLarge ∧ Span.maxOffset < source.utf8ByteSize) := by
  refine (parse_ok_or_tooLarge source).imp_left fun hparse => ⟨_, hparse, ?_⟩
  have hnodes : (Tree.ofSource source).IsClean ↔ (Phrase.ofSource source).IsClean := by
    rw [← isClean_placed _ .start]
    exact forall_congr' fun n => imp_congr_left Node.mem_postorder
  rw [hnodes, lex, derives_module rfl, ← Grammar.partsClean_items]
  show NodeKind.modulePart ≠ .invalid ∧ partsClean (_ ++ [.token _]) ↔ _
  simp [partsClean]

/-- A comma may follow the last parameter, but not stand alone. -/
example : (Tree.ofSource "fn f(x:T,){}").IsClean ∧ ¬ (Tree.ofSource "fn f(,){}").IsClean := by
  decide +kernel

end Xref
