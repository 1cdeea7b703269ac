import Xref.Proofs.Project.WorkspaceEdits
import Xref.Proofs.Syntax.Likeness
import Xref.Proofs.Syntax.Replacing
import Xref.Proofs.Text.Splices

/-!
# Edits of names

Edits of the ranges of identifiers that can be carried out in a text do nothing but replace these
identifiers, in whatever order they are given (`edited_names`). If their new text is that of an
identifier, the syntax of the text is as it was (`sameSyntax_replaceTokens`).
-/

namespace Xref

variable {source result new : String} {edits : List TextEdit} {path : FilePath} {t : Token}

/-- Whether an edit gives the range of an identifier of a text a new text. -/
structure TextEdit.Renames (source new : String) (edit : TextEdit) : Prop where
  newText : edit.newText = new
  sized : source.utf8ByteSize ≤ Span.maxOffset
  range : ∃ t ∈ sourceTokens source, t.kind = .identifier ∧
    edit.range = (LineIndex.ofText source).range t.span

/-- Whether one of several edits is at a token of a text. -/
def isEdited (source : String) (edits : List TextEdit) (t : Token) : Bool :=
  edits.any fun edit => decide (edit.range = (LineIndex.ofText source).range t.span)

theorem kind_of_isEdited (hedits : ∀ edit ∈ edits, edit.Renames source new)
    (ht : t ∈ sourceTokens source) (hedited : isEdited source edits t) : t.kind = .identifier := by
  obtain ⟨edit, hedit, hrange⟩ := List.any_eq_true.1 hedited
  obtain ⟨t', ht', hkind, hrange'⟩ := (hedits edit hedit).range
  rwa [eq_of_range_eq ht ht' ((of_decide_eq_true hrange).symm.trans hrange')]

theorem isWord_of_isEdited (hedits : ∀ edit ∈ edits, edit.Renames source new) :
    ∀ t ∈ sourceTokens source, isEdited source edits t → isWord t.text :=
  fun _ ht hedited => (isWord_of_mem ht (kind_of_isEdited hedits ht hedited)).1

theorem means_range (hsize : source.utf8ByteSize ≤ Span.maxOffset) (ht : t ∈ sourceTokens source)
    (hkind : t.kind = .identifier) :
    Documents.Means source ((LineIndex.ofText source).range t.span) t.span := by
  obtain ⟨hstart, hstop⟩ := offset?_position hsize ht (isWord_of_mem ht hkind).1
  refine ⟨hstart, hstop, ?_⟩
  rw [(span_in_fullSpan t).2.2]
  exact Nat.le_add_right _ _

/-- Edits that the renaming edits of a text mean, no two of which overlap, are those of the tokens
that are edited. -/
theorem perm_tokenEdits {es : List Edit} (hedits : ∀ edit ∈ edits, edit.Renames source new)
    (hmeans : Documents.MeansAll source edits es) (hapart : es.Pairwise Edit.Apart) :
    es.Perm (tokenEdits (isEdited source edits) new (sourceTokens source)) := by
  have hmem : ∀ e ∈ es, ∃ edit ∈ edits, ∃ t ∈ sourceTokens source, t.kind = .identifier ∧
      edit.range = (LineIndex.ofText source).range t.span ∧ e = ⟨t.span, new⟩ := by
    intro e he
    obtain ⟨edit, hedit, hspan, htext⟩ := exists_left_of_forall₂ hmeans he
    obtain ⟨hnew, hsize, t, ht, hkind, hrange⟩ := hedits edit hedit
    refine ⟨edit, hedit, t, ht, hkind, hrange, ?_⟩
    rw [hrange] at hspan
    obtain ⟨span, text⟩ := e
    exact congrArg₂ Edit.mk (hspan.unique (means_range hsize ht hkind)) (htext.trans hnew)
  have hnodup : es.Nodup := by
    refine hapart.imp_of_mem fun {e f} he _ h heq => ?_
    subst heq
    obtain ⟨-, -, t, ht, hkind, -, rfl⟩ := hmem e he
    have hlt := span_start_lt ht (by rw [hkind]; decide)
    rw [Edit.Apart, Span.overlaps, decide_eq_false_iff_not] at h
    exact h ⟨hlt, hlt⟩
  have hnodup' : (tokenEdits (isEdited source edits) new (sourceTokens source)).Nodup :=
    (pairwise_tokenEdits new (isWord_of_isEdited hedits)).imp fun h heq => by
      rw [heq] at h
      omega
  refine (List.perm_ext_iff_of_nodup hnodup hnodup').2 fun e => ?_
  rw [tokenEdits, List.mem_map]
  constructor
  · intro he
    obtain ⟨edit, hedit, t, ht, -, hrange, rfl⟩ := hmem e he
    refine ⟨t, List.mem_filter.2 ⟨ht, List.any_eq_true.2 ⟨edit, hedit, decide_eq_true hrange⟩⟩, rfl⟩
  · rintro ⟨t, ht, rfl⟩
    obtain ⟨ht, hedited⟩ := List.mem_filter.1 ht
    obtain ⟨edit, hedit, hrange⟩ := List.any_eq_true.1 hedited
    have hrange := of_decide_eq_true hrange
    obtain ⟨e, he, hspan, -⟩ := exists_right_of_forall₂ hmeans hedit
    obtain ⟨-, -, t', ht', hkind, -, rfl⟩ := hmem e he
    rw [hrange] at hspan
    have := hspan.unique
      (means_range (hedits edit hedit).sized ht (kind_of_isEdited hedits ht hedited))
    rw [← eq_of_span_eq ht' ht this]
    exact he

/-- **Edits of identifiers replace these identifiers,** if they can be carried out. -/
theorem edited_names (hedits : ∀ edit ∈ edits, edit.Renames source new)
    (h : Documents.edited path source edits = .ok result) :
    result = replaceTokens (isEdited source edits) new source := by
  rcases Documents.edited_cases path source edits with ⟨_, hok, hrewrites⟩ | ⟨e, herror, -⟩
  · cases hok.symm.trans h
    obtain ⟨es, hmeans, hapart, hreplaces⟩ := hrewrites
    rw [placed_tokenEdits new (isWord_of_isEdited hedits)
      (perm_tokenEdits hedits hmeans hapart)] at hreplaces
    have hall := replaces_tokenEdits (isEdited source edits) new (lex source) .start
    rw [flatMap_chars_lex, ← sourceTokens, ← toList_replaceTokens] at hall
    exact String.toList_injective (hreplaces.unique hall)
  · cases herror.symm.trans h

/-! ## Syntax -/

/-- Whether a text is an earlier one in which the tokens that `p` holds of have become `new`, and has
the same syntax: if offsets can count the bytes of both, its tree has the same nodes with the same
slots and tokens of the same kinds, and the tokens that have become `new` are identifiers. -/
structure SameSyntax (p : Token → Bool) (new : String) (before after : String) : Prop where
  trees : before.utf8ByteSize ≤ Span.maxOffset → after.utf8ByteSize ≤ Span.maxOffset →
    ∃ t t', parse before = .ok t ∧ parse after = .ok t' ∧
      t.root.Alike (Token.Renamed p new) t'.root
  identifiers : ∀ t ∈ sourceTokens before, p t → t.kind = .identifier

/-- Texts with the same syntax have tokens of the same kinds, in the same order. -/
theorem SameSyntax.kinds {p : Token → Bool} {before after : String}
    (h : SameSyntax p new before after) (hsize : before.utf8ByteSize ≤ Span.maxOffset)
    (hsize' : after.utf8ByteSize ≤ Span.maxOffset) :
    (sourceTokens after).map Token.kind = (sourceTokens before).map Token.kind := by
  obtain ⟨t, t', hbefore, hafter, halike⟩ := h.trees hsize hsize'
  cases hbefore.symm.trans (parse_eq_ok hsize)
  cases hafter.symm.trans (parse_eq_ok hsize')
  have htokens := halike.tokens
  rw [Tree.tokens_root, Tree.tokens_root] at htokens
  generalize sourceTokens before = ts at htokens
  generalize sourceTokens after = ts' at htokens
  induction htokens with
  | nil => rfl
  | cons hfirst _ ih => rw [List.map_cons, List.map_cons, hfirst.kind, ih]

theorem sameSyntax_replaceTokens {p : Token → Bool} (hword : isWord new)
    (hkind : wordKind new = .identifier)
    (hp : ∀ t ∈ sourceTokens source, p t → t.kind = .identifier) :
    SameSyntax p new source (replaceTokens p new source) :=
  ⟨fun hsize hsize' =>
    ⟨_, _, parse_eq_ok hsize, parse_eq_ok hsize', Tree.alike_replaceTokens hp hword hkind⟩, hp⟩

/-- A text has the syntax of itself. -/
theorem sameSyntax_self (hword : isWord new) (hkind : wordKind new = .identifier)
    (source : String) : SameSyntax (fun _ => false) new source source := by
  have h : SameSyntax (fun _ => false) new source (replaceTokens (fun _ => false) new source) :=
    sameSyntax_replaceTokens hword hkind nofun
  rwa [replaceTokens_eq_self fun _ _ => rfl] at h

end Xref
