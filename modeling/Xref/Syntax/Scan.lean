import Xref.Syntax.Lexeme

/-!
# From text to lexemes

Scanning cuts pieces off the front of a text: a token, or a piece of trivia. Each cut loses no
character (`Piece.WholeOf`) and takes at least one, so scanning comes to an end. The last lexeme is
always the end of the file, which takes the trivia that are left.
-/

namespace Xref

/-- A piece cut off the front of a text, and what remains. -/
structure Piece (κ : Type) where
  kind : κ
  text : List Char
  rest : List Char

/-- Whether a piece and its remainder make up the text `cs`, and the piece is not empty. -/
def Piece.WholeOf {κ : Type} (p : Piece κ) (cs : List Char) : Prop :=
  p.text ++ p.rest = cs ∧ p.text ≠ []

theorem Piece.WholeOf.length_lt {κ : Type} {p : Piece κ} {cs : List Char} (h : p.WholeOf cs) :
    p.rest.length < cs.length := by
  obtain ⟨rfl, hne⟩ := h
  have := List.length_pos_iff.2 hne
  simp; omega

/-! ## Trivia -/

/-- Whether `c` can be part of a run of blanks within a line. -/
def isLineBlank (c : Char) : Bool := c == ' ' || c == '\t' || c == '\r'

/-- Whether `c` goes on a line comment. -/
def continuesLineComment (c : Char) : Bool := c != '\n' && c != '\r'

/-- Divides the inside of a block comment after its end mark; an unclosed one takes everything. -/
def closeComment : List Char → List Char × List Char
  | [] => ([], [])
  | '*' :: '/' :: cs => (['*', '/'], cs)
  | c :: cs => let parts := closeComment cs; (c :: parts.1, parts.2)

/-- The run of blanks at the front of a text. A carriage return right before a newline is left to
that newline. -/
def blanks? (cs : List Char) : Option (Piece TriviaKind) :=
  let run := cs.takeWhile isLineBlank
  let rest := cs.dropWhile isLineBlank
  if run.getLast? = some '\r' ∧ rest.head? = some '\n' then
    if run.dropLast = [] then none else some ⟨.whitespace, run.dropLast, '\r' :: rest⟩
  else if run = [] then none
  else some ⟨.whitespace, run, rest⟩

/-- The piece of trivia at the front of a text, if one starts there. -/
def trivium? : List Char → Option (Piece TriviaKind)
  | '\r' :: '\n' :: cs => some ⟨.newline, ['\r', '\n'], cs⟩
  | '\n' :: cs => some ⟨.newline, ['\n'], cs⟩
  | '/' :: '/' :: cs =>
    some ⟨.lineComment, '/' :: '/' :: cs.takeWhile continuesLineComment,
      cs.dropWhile continuesLineComment⟩
  | '/' :: '*' :: cs =>
    let parts := closeComment cs
    some ⟨.blockComment, '/' :: '*' :: parts.1, parts.2⟩
  | cs => blanks? cs

theorem closeComment_append (cs : List Char) : (closeComment cs).1 ++ (closeComment cs).2 = cs := by
  fun_induction closeComment cs with
  | case1 => rfl
  | case2 => rfl
  | case3 c cs _ parts ih => simpa [parts] using ih

theorem blanks?_wholeOf {cs : List Char} {p : Piece TriviaKind} (h : blanks? cs = some p) :
    p.WholeOf cs := by
  have hsplit := List.takeWhile_append_dropWhile (p := isLineBlank) (l := cs)
  unfold blanks? at h
  generalize cs.takeWhile isLineBlank = run at h hsplit
  generalize cs.dropWhile isLineBlank = rest at h hsplit
  dsimp only at h
  split at h
  · rename_i hlast
    split at h
    · simp at h
    · rename_i hne
      obtain rfl := Option.some.inj h
      obtain ⟨init, rfl⟩ := List.getLast?_eq_some_iff.1 hlast.1
      exact ⟨by simpa using hsplit, hne⟩
  · split at h
    · simp at h
    · rename_i hne
      obtain rfl := Option.some.inj h
      exact ⟨hsplit, hne⟩

theorem trivium?_wholeOf {cs : List Char} {p : Piece TriviaKind} (h : trivium? cs = some p) :
    p.WholeOf cs := by
  unfold trivium? at h
  split at h
  case h_5 => exact blanks?_wholeOf h
  all_goals obtain rfl := Option.some.inj h
  all_goals simp [Piece.WholeOf, closeComment_append, List.takeWhile_append_dropWhile]

/-- The trivia at the front of a text. With `oneLine` they end after the first newline. -/
def trivia (oneLine : Bool) (cs : List Char) : List Trivia × List Char :=
  match h : trivium? cs with
  | none => ([], cs)
  | some p =>
    have := (trivium?_wholeOf h).length_lt
    let piece : Trivia := ⟨p.kind, String.ofList p.text⟩
    if oneLine && p.kind == .newline then ([piece], p.rest)
    else
      let more := trivia oneLine p.rest
      (piece :: more.1, more.2)
termination_by cs.length

theorem trivia_length_le (oneLine : Bool) (cs : List Char) :
    (trivia oneLine cs).2.length ≤ cs.length := by
  fun_induction trivia oneLine cs with
  | case1 => simp
  | case2 cs p h hlt => exact Nat.le_of_lt (trivium?_wholeOf h).length_lt
  | case3 cs p h hlt piece _ more ih => exact Nat.le_trans ih (Nat.le_of_lt hlt)

/-! ## Tokens -/

/-- Whether `c` goes on a string literal: it ends at a quote, or before a newline. -/
def continuesString (c : Char) : Bool := c != '"' && c != '\n'

/-- The token at the front of a text, given its first character and the others. -/
def token (c : Char) (cs : List Char) : Piece TokenKind :=
  if startsWord c then
    let word := c :: cs.takeWhile continuesWord
    ⟨wordKind (String.ofList word), word, cs.dropWhile continuesWord⟩
  else if c.isDigit then
    ⟨.literal, c :: cs.takeWhile Char.isDigit, cs.dropWhile Char.isDigit⟩
  else if c = '"' then
    let inside := cs.takeWhile continuesString
    match cs.dropWhile continuesString with
    | '"' :: rest => ⟨.literal, '"' :: (inside ++ ['"']), rest⟩
    | rest => ⟨.literal, '"' :: inside, rest⟩
  else if cs.head?.any fun d => doublePunctuation.contains (c, d) then
    ⟨.punctuation, c :: cs.take 1, cs.drop 1⟩
  else if singlePunctuation.contains c then ⟨.punctuation, [c], cs⟩
  else ⟨.unknown, [c], cs⟩

theorem token_wholeOf (c : Char) (cs : List Char) : (token c cs).WholeOf (c :: cs) := by
  unfold token
  split
  · simp [Piece.WholeOf, List.takeWhile_append_dropWhile]
  split
  · simp [Piece.WholeOf, List.takeWhile_append_dropWhile]
  split
  · rename_i hquote
    have hsplit := List.takeWhile_append_dropWhile (p := continuesString) (l := cs)
    subst hquote
    dsimp only
    split
    · rename_i rest hrest
      rw [hrest] at hsplit
      simp [Piece.WholeOf, hsplit]
    · simp [Piece.WholeOf, hsplit]
  split
  · exact ⟨congrArg (c :: ·) (List.take_append_drop 1 cs), by simp⟩
  split <;> simp [Piece.WholeOf]

theorem token_length_le (c : Char) (cs : List Char) : (token c cs).rest.length ≤ cs.length :=
  Nat.le_of_lt_succ (token_wholeOf c cs).length_lt

/-! ## Lexemes -/

/-- The lexemes of a text whose first token comes after the trivia `leading`, and the trivia that
no token takes. -/
def lexemes (leading : List Trivia) : List Char → List Lexeme × List Trivia
  | [] => ([], leading)
  | c :: cs =>
    let head := token c cs
    let trailing := trivia true head.rest
    let next := trivia false trailing.2
    have : next.2.length ≤ cs.length :=
      Nat.le_trans (trivia_length_le _ _) <|
        Nat.le_trans (trivia_length_le _ _) (token_length_le c cs)
    let more := lexemes next.1 next.2
    (⟨head.kind, String.ofList head.text, leading, trailing.1⟩ :: more.1, more.2)
termination_by cs => cs.length
decreasing_by exact Nat.lt_succ_of_le this

/-- The lexemes of a source text without the end of the file, and the end of the file. -/
def scan (source : String) : List Lexeme × Lexeme :=
  let start := trivia false source.toList
  let found := lexemes start.1 start.2
  (found.1, ⟨.endOfFile, "", found.2, []⟩)

/-- The lexemes of a source text; the last is the end of the file. -/
def lex (source : String) : List Lexeme := (scan source).1 ++ [(scan source).2]

end Xref
