import Xref.Proofs.Syntax.Spans
import Xref.Proofs.Text.Replacements

/-!
# Replacing tokens

To give some words of a text a new text by edits of their ranges is to put the lexemes together
again with these texts replaced (`edited_eq`): the edits do not overlap, and as they are carried out
from the back the spans of those still to come stay valid.
-/

namespace Xref

/-- A lexeme with another text. -/
def Lexeme.withText (l : Lexeme) (text : String) : Lexeme := { l with text }

/-- The lexemes that several tokens become if those that `p` holds of get a new text. -/
def replaced (p : Token → Bool) (new : String) (ts : List Token) : List Lexeme :=
  ts.map fun t => if p t then t.lexeme.withText new else t.lexeme

/-- A source text in which the tokens that `p` holds of get a new text, and nothing else changes. -/
def replaceTokens (p : Token → Bool) (new : String) (source : String) : String :=
  String.join ((replaced p new (sourceTokens source)).map Lexeme.source)

/-- The edits that replace tokens. -/
def tokenEdits (p : Token → Bool) (new : String) (ts : List Token) : List Edit :=
  (ts.filter p).map fun t => ⟨t.span, new⟩

/-- The lexeme of a token that gets a new text if `ρ` has one for it. -/
def Token.respelled (ρ : Token → Option String) (t : Token) : Lexeme :=
  (ρ t).elim t.lexeme t.lexeme.withText

/-- The edits that give tokens new texts. -/
def respellings (ρ : Token → Option String) (ts : List Token) : List Edit :=
  ts.filterMap fun t => (ρ t).map (Edit.mk t.span)

/-- One new text for the tokens that `p` holds of. -/
def oneText (p : Token → Bool) (new : String) (t : Token) : Option String :=
  if p t then some new else none

section
variable {p : Token → Bool} {new source : String} {t : Token}

theorem replaced_eq (ts : List Token) :
    replaced p new ts = ts.map (Token.respelled (oneText p new)) := by
  refine List.map_congr_left fun t _ => ?_
  rw [Token.respelled, oneText]
  split <;> rfl

theorem tokenEdits_eq (ts : List Token) : tokenEdits p new ts = respellings (oneText p new) ts := by
  induction ts with
  | nil => rfl
  | cons t ts ih =>
    have htail : (ts.filter p).map (fun t => Edit.mk t.span new) =
        respellings (oneText p new) ts := ih
    rw [tokenEdits, List.filter_cons, respellings, List.filterMap_cons, oneText]
    split
    · exact congrArg (_ :: ·) htail
    · exact htail

theorem toList_replaceTokens : (replaceTokens p new source).toList =
    (replaced p new (sourceTokens source)).flatMap Lexeme.chars := by
  rw [replaceTokens, String.toList_join, List.flatMap_map]
  rfl

/-- Replacing no tokens changes nothing. -/
theorem replaceTokens_eq_self (h : ∀ t ∈ sourceTokens source, p t = false) :
    replaceTokens p new source = source := by
  have hsame : replaced p new (sourceTokens source) = lex source := by
    rw [replaced, ← @map_lexeme_tokensFrom .start (lex source)]
    refine List.map_congr_left fun t ht => ?_
    rw [h t ht, if_neg Bool.false_ne_true]
  rw [replaceTokens, hsame, join_lex]

theorem replaceTokens_congr {q : Token → Bool} (h : ∀ t ∈ sourceTokens source, p t = q t) :
    replaceTokens p new source = replaceTokens q new source := by
  rw [replaceTokens, replaceTokens, replaced, replaced]
  congr 2
  exact List.map_congr_left fun t ht => by rw [h t ht]

/-! ## Edits at once -/

/-- To give tokens new texts is to put these in the place of their spans. -/
theorem replaces_respellings (ρ : Token → Option String) (ls : List Lexeme) (place : Place) :
    Replaces place.offset (respellings ρ (tokensFrom place ls)) (ls.flatMap Lexeme.chars)
      (((tokensFrom place ls).map (Token.respelled ρ)).flatMap Lexeme.chars) := by
  induction ls generalizing place with
  | nil => exact .nil
  | cons l ls ih =>
    have hbytes : Text.byteLength l.chars = l.source.utf8ByteSize := (Text.utf8ByteSize_eq _).symm
    have hrest := ih (place.behindToken l)
    let t : Token := ⟨place.token, place.offset, l⟩
    rw [tokensFrom, respellings, List.filterMap_cons, List.flatMap_cons, List.map_cons,
      List.flatMap_cons]
    cases hnew : ρ t with
    | some new =>
      have hstart : t.span.start = place.offset + Text.byteLength t.leadingText.toList := by
        rw [← Text.utf8ByteSize_eq]
        rfl
      have hstop : t.span.stop = t.span.start + Text.byteLength l.text.toList := by
        rw [(span_in_fullSpan t).2.2, Text.utf8ByteSize_eq]
        rfl
      -- What follows the token in its lexeme stays, as do the lexemes behind it.
      have hnext : (place.behindToken l).offset =
          t.span.stop + Text.byteLength t.trailingText.toList := by
        have hparts : Text.byteLength t.leadingText.toList + Text.byteLength l.text.toList +
            Text.byteLength t.trailingText.toList = l.source.utf8ByteSize := by
          rw [← hbytes, Lexeme.chars_eq, Text.byteLength_append, Text.byteLength_append]
          rfl
        have hoffset : (place.behindToken l).offset = place.offset + l.source.utf8ByteSize := rfl
        omega
      rw [hnext] at hrest
      have hall := Replaces.cons (e := ⟨t.span, new⟩) hstart hstop hrest.skip
      have hchars : (t.respelled ρ).chars = (Trivia.join l.leading).toList ++ new.toList ++
          (Trivia.join l.trailing).toList := by
        rw [Token.respelled, hnew, Lexeme.chars_eq]
        rfl
      rw [Lexeme.chars_eq, hchars, List.append_assoc, List.append_assoc, List.append_assoc,
        List.append_assoc]
      exact hall
    | none =>
      have hchars : (t.respelled ρ).chars = l.chars := by
        rw [Token.respelled, hnew]
        rfl
      rw [hchars]
      refine Replaces.skip ?_
      rw [hbytes]
      exact hrest

variable (p new) in
/-- To replace tokens is to put a new text in the place of their spans. -/
theorem replaces_tokenEdits (ls : List Lexeme) (place : Place) :
    Replaces place.offset (tokenEdits p new (tokensFrom place ls)) (ls.flatMap Lexeme.chars)
      ((replaced p new (tokensFrom place ls)).flatMap Lexeme.chars) := by
  rw [tokenEdits_eq, replaced_eq]
  exact replaces_respellings _ ls place

/-! ## All edits of a text -/

variable (new) (hp : ∀ t ∈ sourceTokens source, p t → isWord t.text)

include hp

theorem pairwise_tokenEdits : (tokenEdits p new (sourceTokens source)).Pairwise fun e f =>
    e.span.start < e.span.stop ∧ e.span.stop ≤ f.span.start := by
  refine List.pairwise_map.2 ((pairwise_id_sourceTokens.filter p).imp_of_mem ?_)
  intro t t' ht ht' hlt
  obtain ⟨ht, hpt⟩ := List.mem_filter.1 ht
  exact ⟨span_start_lt ht (kind_ne_of_isWord ht (hp t ht hpt)),
    span_stop_le ht (List.mem_filter.1 ht').1 hlt⟩

/-- The edits stand in the order of their spans. -/
theorem compare_tokenEdits : (tokenEdits p new (sourceTokens source)).Pairwise fun e f =>
    e.span.compare f.span = .lt := by
  refine (pairwise_tokenEdits new hp).imp fun h => ?_
  rw [Span.compare, Ordering.then_eq_lt, Nat.compare_eq_lt]
  exact .inl (Nat.lt_of_lt_of_le h.1 h.2)

theorem placed_tokenEdits {es : List Edit} (hes : es.Perm (tokenEdits p new (sourceTokens source))) :
    (ChangeSet.mk es).placed = tokenEdits p new (sourceTokens source) :=
  ChangeSet.placed_eq_of_perm hes (compare_tokenEdits new hp)

theorem performChecked?_tokenEdits :
    (ChangeSet.mk (tokenEdits p new (sourceTokens source))).performChecked? source =
      .ok (some (replaceTokens p new source)) := by
  have hforward : ∀ e ∈ tokenEdits p new (sourceTokens source), e.IsForward := by
    intro e he
    obtain ⟨t, -, rfl⟩ := List.mem_map.1 he
    exact Nat.le.intro (span_in_fullSpan t).2.2.symm
  have hapart : (tokenEdits p new (sourceTokens source)).Pairwise Edit.Apart := by
    refine (pairwise_tokenEdits new hp).imp fun h => ?_
    rw [Edit.Apart, Span.overlaps, decide_eq_false_iff_not]
    exact fun h' => Nat.not_le.2 h'.2 h.2
  have hall := (replaces_tokenEdits p new (lex source) .start).fromBack? [] rfl
  rw [List.nil_append, List.nil_append, flatMap_chars_lex, ← sourceTokens,
    ← toList_replaceTokens, ← placed_tokenEdits new hp (.refl _)] at hall
  have hnone : (ChangeSet.mk (tokenEdits p new (sourceTokens source))).conflict? = none :=
    (ChangeSet.conflict?_eq_none_iff hforward).2 hapart
  rw [ChangeSet.performChecked?, hnone]
  dsimp only
  rw [ChangeSet.perform?_eq_fromBack?, hall, Option.map_some, String.ofList_toList]

/-- **Edits of the ranges of words replace these words.** -/
theorem edited_eq (hsize : source.utf8ByteSize ≤ Span.maxOffset) (path : FilePath) :
    Documents.edited path source (((sourceTokens source).filter p).map fun t =>
      ⟨(LineIndex.ofText source).range t.span, new⟩) = .ok (replaceTokens p new source) := by
  have hspans : Documents.editsIn path source (((sourceTokens source).filter p).map fun t =>
      ⟨(LineIndex.ofText source).range t.span, new⟩) =
        .ok ⟨tokenEdits p new (sourceTokens source)⟩ := by
    rw [Documents.editsIn, List.mapM_map, mapM_ok (g := fun t => Edit.mk t.span new)]
    · rfl
    · intro t ht
      obtain ⟨ht, hpt⟩ := List.mem_filter.1 ht
      dsimp only [Function.comp]
      rw [spanOf?_range hsize ht (hp t ht hpt)]
  rw [Documents.edited, hspans]
  dsimp only
  rw [performChecked?_tokenEdits new hp]

end

end Xref
