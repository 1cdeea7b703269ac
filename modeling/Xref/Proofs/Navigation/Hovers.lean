import Xref.Proofs.Binding.NameTokens
import Xref.Proofs.Navigation.References
import Xref.Proofs.Syntax.Lossless

/-!
# Quiet requests

A hover finds what a strict request finds and fails only where a strict request fails for a reason
that is not the cursor (`hover_agrees`). Behind the last token of a document it shows what it shows
at the start of that token, as the detour over the token before the end of the file ends at the same
token below the same nodes (`Tree.locateOrBefore_behind`).
-/

namespace Xref

/-! ## Tokens before the end of the file -/

section
variable {source : String} {t : Token} {offset : Nat}

/-- The last token of a text other than the end of the file. -/
def Tree.lastToken? (tree : Tree) : Option Token :=
  (tree.tokens.toList.filter fun token => !token.kind.isEnd).getLast?

theorem mem_of_lastToken? (h : (Tree.ofSource source).lastToken? = some t) :
    t ∈ sourceTokens source ∧ t.kind ≠ .endOfFile := by
  have hmem := List.mem_filter.1 (List.mem_of_getLast? h)
  exact ⟨hmem.1, fun hend => by simp [hend, TokenKind.isEnd] at hmem⟩

/-- Every other token ends where the end of the file starts, or before. -/
theorem fullSpan_stop_le_ending {ending : Token} (h : t ∈ sourceTokens source)
    (hkind : t.kind ≠ .endOfFile) (hending : ending ∈ sourceTokens source)
    (hend : ending.kind = .endOfFile) : t.fullSpan.stop ≤ ending.fullSpan.start := by
  refine fullSpan_stop_le h hending ?_
  rcases Nat.lt_trichotomy t.id ending.id with hlt | hid | hlt
  · exact hlt
  · rw [eq_of_id_eq h hending hid] at hkind
    exact absurd hend hkind
  · exact absurd hend (kind_ne_of_lt hending h hlt)

/-- A token holds the bytes from the start of its trivia to its own first byte. -/
theorem Token.covers_of_mem (h : t ∈ sourceTokens source) (hkind : t.kind ≠ .endOfFile)
    (hstart : t.fullSpan.start ≤ offset) (hstop : offset ≤ t.span.start) : t.Covers offset := by
  have := span_start_lt h hkind
  have := span_in_fullSpan t
  exact ⟨hstart, by omega, hkind⟩

namespace Tree

theorem locateOrBefore_of_locate {tree : Tree} {path : TokenPath}
    (h : tree.locate offset = .ok path) : tree.locateOrBefore offset = .ok path := by
  rw [locateOrBefore, h]

/-- Behind the last token there is nothing, and the token before is the last. -/
theorem locate_behind {ending : Token} (hending : ending ∈ sourceTokens source)
    (hend : ending.kind = .endOfFile) (hoffset : ending.fullSpan.start ≤ offset) :
    (∃ e, (ofSource source).locate offset = .error e) ∧
      (ofSource source).tokenBefore? offset = (ofSource source).lastToken? := by
  constructor
  · refine ⟨_, tiled_ofSource.locate_eq_error fun t ht hcovers => ?_⟩
    rw [tokens_root] at ht
    have := fullSpan_stop_le_ending ht hcovers.2.2 hending hend
    have := hcovers.2.1
    omega
  · refine congrArg List.getLast? (List.filter_congr fun t ht => ?_)
    by_cases hkind : t.kind = .endOfFile
    · simp [hkind, TokenKind.isEnd]
    · have := fullSpan_stop_le_ending ht hkind hending hend
      have := span_start_lt ht hkind
      have := span_in_fullSpan t
      have hle : t.span.start ≤ offset := by omega
      simp [hle]

/-- **Behind the last token the answer is the one at the start of this token.** -/
theorem locateOrBefore_behind {ending : Token} (hending : ending ∈ sourceTokens source)
    (hend : ending.kind = .endOfFile) (hoffset : ending.fullSpan.start ≤ offset) :
    match (ofSource source).lastToken? with
    | none => ∃ e, (ofSource source).locateOrBefore offset = .error e
    | some t => ∃ path, (ofSource source).locateOrBefore offset = .ok path ∧
        (ofSource source).locateOrBefore t.span.start = .ok path := by
  obtain ⟨⟨e, hlocate⟩, hbefore⟩ := locate_behind hending hend hoffset
  rw [locateOrBefore, hlocate]
  simp only [hbefore]
  cases hlast : (ofSource source).lastToken? with
  | none => exact ⟨e, rfl⟩
  | some t =>
    obtain ⟨ht, hkind⟩ := mem_of_lastToken? hlast
    have hspan := (span_in_fullSpan t).1
    have htrivia : t.Covers t.fullSpan.start :=
      Token.covers_of_mem ht hkind (Nat.le_refl _) hspan
    have hown : t.Covers t.span.start := Token.covers_of_mem ht hkind hspan (Nat.le_refl _)
    obtain ⟨path, hpath, rfl⟩ := tiled_ofSource.exists_locate (tokens_root ▸ ht) htrivia
    refine ⟨path, ?_, locateOrBefore_of_locate ?_⟩
    · show ((ofSource source).locate path.token.fullSpan.start).mapError _ = _
      rw [hpath]
      rfl
    · exact locate_eq_ok_iff.2 ⟨(locate_eq_ok_iff.1 hpath).1, hown⟩

end Tree

end

/-! ## Failures of the cursor -/

/-- Whether a request fails because there is nothing under the cursor. -/
def RequestError.isCursorFailure : RequestError → Bool
  | positionNotFound _ => true
  | unresolvedSymbol _ => true
  | _ => false

namespace BoundUnit

variable {b : BoundUnit} {u : UnitId} {position : Position} {manner : Manner}

/-- What is under the cursor if it is on the token that a path leads to. -/
def resolveToken (b : BoundUnit) (u : UnitId) (path : TokenPath) : Except RequestError Resolved :=
  match b.innermost? path with
  | none => .error (.unresolvedSymbol path.token.text)
  | some (n, mention) =>
    let occurrences := Occurrences.empty.gather b mention.symbol (some n.id)
    match occurrences.cursor with
    | none => .error (.unresolvedSymbol path.token.text)
    | some cursor => .ok ⟨u, path.token, cursor, occurrences⟩

/-- What is under the cursor depends on the token there alone. -/
theorem resolve_of_locate (manner : Manner) {offset : Nat} {path : TokenPath}
    (hoffset : (LineIndex.ofText b.tree.text).offset? position = some offset)
    (hlocate : b.tree.locateIn manner offset = .ok path) :
    b.resolve u position manner = b.resolveToken u path := by
  rw [resolve, hoffset]
  simp only [hlocate]
  rfl

theorem resolve_of_error (manner : Manner) {offset : Nat} {e : LocateError}
    (hoffset : (LineIndex.ofText b.tree.text).offset? position = some offset)
    (hlocate : b.tree.locateIn manner offset = .error e) :
    b.resolve u position manner = .error (.positionNotFound position) := by
  rw [resolve, hoffset]
  simp only [hlocate]

theorem resolve_of_none (hoffset : (LineIndex.ofText b.tree.text).offset? position = none) :
    b.resolve u position manner = .error (.positionNotFound position) := by
  rw [resolve, hoffset]

theorem isCursorFailure_of_resolveToken {path : TokenPath} {e : RequestError}
    (h : b.resolveToken u path = .error e) : e.isCursorFailure := by
  rw [resolveToken] at h
  split at h
  · cases h
    rfl
  · dsimp only at h
    split at h
    · cases h
      rfl
    · cases h

/-- The cursor is the only reason for a bound unit to have no answer. -/
theorem isCursorFailure_of_resolve {e : RequestError}
    (h : b.resolve u position manner = .error e) : e.isCursorFailure := by
  cases hoffset : (LineIndex.ofText b.tree.text).offset? position with
  | none =>
    rw [resolve_of_none hoffset] at h
    cases h
    rfl
  | some offset =>
    cases hlocate : b.tree.locateIn manner offset with
    | error _ =>
      rw [resolve_of_error manner hoffset hlocate] at h
      cases h
      rfl
    | ok path =>
      rw [resolve_of_locate manner hoffset hlocate] at h
      exact isCursorFailure_of_resolveToken h

/-- What a strict request finds a quiet one finds as well. -/
theorem resolve_quiet {r : Resolved} (h : b.resolve u position .strict = .ok r) :
    b.resolve u position .quiet = .ok r := by
  cases hoffset : (LineIndex.ofText b.tree.text).offset? position with
  | none =>
    rw [resolve_of_none hoffset] at h
    cases h
  | some offset =>
    cases hlocate : b.tree.locate offset with
    | error _ =>
      rw [resolve_of_error .strict hoffset hlocate] at h
      cases h
    | ok path =>
      rw [resolve_of_locate .strict hoffset hlocate] at h
      rwa [resolve_of_locate .quiet hoffset (Tree.locateOrBefore_of_locate hlocate)]

end BoundUnit

namespace Analysis

variable {a : Analysis} {d : Documents} {held : List FilePath}

/-- A unit is not there for reasons other than the cursor. -/
theorem isCursorFailure_of_unitFrom {path : FilePath} {unit : UnitId} {e : RequestError}
    (h : a.unitFrom d held path unit = .error e) : e.isCursorFailure = false := by
  unfold unitFrom at h
  split at h
  · cases h
    rfl
  · rw [Documents.content] at h
    cases hget : d.get? path with
    | none =>
      rw [hget] at h
      cases h
      rfl
    | some source =>
      rw [hget] at h
      cases hcompile : a.compiler.compile d a.graph unit source with
      | ok b =>
        rw [Except.mapError, Except.bind, hcompile] at h
        cases h
      | error cause =>
        rw [Except.mapError, Except.bind, hcompile] at h
        cases h
        rfl

theorem isCursorFailure_of_unitOfUri {uri : Uri} {e : RequestError}
    (h : a.unitOfUri uri = .error e) : e.isCursorFailure = false := by
  unfold unitOfUri at h
  split at h
  · cases h
    rfl
  · split at h
    · cases h
      rfl
    · cases h

/-! ## Hovers -/

/-- What a hover says of a bound unit. -/
theorem hoverFrom_eq {uri : Uri} (position : Position) {path : FilePath} {u : UnitId} {b : BoundUnit}
    (hplace : a.unitOfUri uri = .ok (path, u)) (hunit : a.unitFrom d held path u = .ok b) :
    a.hoverFrom d held uri position = match b.resolve u position .quiet with
      | .ok r => .ok r.symbol.hoverText
      | .error _ => .ok a.config.hoverDefault := by
  rw [hoverFrom, resolveFrom, hplace]
  simp only [Except.bind, hunit]
  cases b.resolve u position .quiet <;> rfl

/-- A hover has the answer of a strict request, and fails only for other reasons than the cursor. -/
theorem hoverFrom_agrees (uri : Uri) (position : Position) :
    match a.strictFrom d held uri position with
    | .ok r => a.hoverFrom d held uri position = .ok r.symbol.hoverText
    | .error e => if e.isCursorFailure then ∃ text, a.hoverFrom d held uri position = .ok text
        else a.hoverFrom d held uri position = .error e := by
  rw [strictFrom]
  cases hplace : a.unitOfUri uri with
  | error e =>
    simp only [Except.bind, isCursorFailure_of_unitOfUri hplace, Bool.false_eq_true, if_false]
    rw [hoverFrom, resolveFrom, hplace]
    rfl
  | ok place =>
    obtain ⟨path, u⟩ := place
    cases hunit : a.unitFrom d held path u with
    | error e =>
      simp only [Except.bind, hunit, isCursorFailure_of_unitFrom hunit, Bool.false_eq_true,
        if_false]
      rw [hoverFrom, resolveFrom, hplace]
      simp only [Except.bind, hunit]
    | ok b =>
      simp only [Except.bind, hunit, hoverFrom_eq position hplace hunit]
      cases hstrict : b.resolve u position .strict with
      | ok r => simp only [BoundUnit.resolve_quiet hstrict]
      | error e =>
        simp only [BoundUnit.isCursorFailure_of_resolve hstrict, if_true]
        cases b.resolve u position .quiet with
        | ok r => exact ⟨_, rfl⟩
        | error _ => exact ⟨_, rfl⟩

/-- A hover in a document that compiles: where there is no line it has nothing to describe, and
behind the last token it describes what it does at the start of this token. -/
theorem hoverFrom_behind {uri : Uri} {path : FilePath} {u : UnitId} {b : BoundUnit}
    {source : String} (hplace : a.unitOfUri uri = .ok (path, u))
    (hunit : a.unitFrom d held path u = .ok b) (htree : b.tree = .ofSource source)
    (hsize : source.utf8ByteSize ≤ Span.maxOffset) (position : Position) :
    match (LineIndex.ofText source).offset? position with
    | none => a.hoverFrom d held uri position = .ok a.config.hoverDefault
    | some offset => ∀ ending ∈ b.tree.tokens.toList, ending.kind = .endOfFile →
        ending.fullSpan.start ≤ offset → a.hoverFrom d held uri position =
          match b.tree.lastToken? with
          | none => .ok a.config.hoverDefault
          | some t =>
            a.hoverFrom d held uri ((LineIndex.ofText source).position t.span.start) := by
  have htext : b.tree.text = source := congrArg Tree.text htree
  have hhover := fun p => hoverFrom_eq p hplace hunit
  simp only [hhover]
  cases hoffset : (LineIndex.ofText source).offset? position with
  | none => simp only [BoundUnit.resolve_of_none (b := b) (htext.symm ▸ hoffset)]
  | some offset =>
    intro ending hending hend hle
    rw [htree] at hending
    have hbehind := Tree.locateOrBefore_behind hending hend hle
    rw [← htree] at hbehind
    rw [← htext] at hoffset
    cases hlast : b.tree.lastToken? with
    | none =>
      rw [hlast] at hbehind
      obtain ⟨e, hlocate⟩ := hbehind
      simp only [BoundUnit.resolve_of_error .quiet hoffset hlocate]
    | some t =>
      rw [hlast] at hbehind
      obtain ⟨path, hlocate, hstart⟩ := hbehind
      obtain ⟨ht, hkind⟩ := mem_of_lastToken? (htree ▸ hlast)
      have hposition := offset?_start hsize ht hkind
      rw [← htext] at hposition ⊢
      simp only [BoundUnit.resolve_of_locate .quiet hoffset hlocate,
        BoundUnit.resolve_of_locate .quiet hposition hstart]

/-- **Quiet and strict requests agree.** If a strict request finds a symbol then a hover describes
it; if the cursor is why it fails, a hover does not fail; if it fails otherwise, a hover fails in the
same way. In a document that is there, not locked and compiles, a hover has nothing to describe on a
line that does not exist; behind the start of the end of the file it describes what it does at the
start of the last other token, and if there is none it has nothing to describe. -/
theorem hover_agrees (config : Config) (g : ModuleGraph) (l : Layout) (s : Store) (uri : Uri)
    (position : Position) :
    let a : Analysis := ⟨config, g, Binding.compiler l⟩
    let hovered (p : Position) := ((a.hover uri p).exec s).1
    (match ((a.reference uri position).exec s).1 with
      | .ok r => hovered position = .ok r.symbol.hoverText
      | .error e => if e.isCursorFailure then ∃ text, hovered position = .ok text
          else hovered position = .error e) ∧
    ∀ path u source b, uri.toFile? = some path → config.layout.unitAt? path = some u →
      (∀ p ∈ s.documents.locks.held, p.sameAs path = false) →
      s.documents.get? path = some source →
      Binding.compile l s.documents g u source = .ok b →
      match (LineIndex.ofText source).offset? position with
      | none => hovered position = .ok config.hoverDefault
      | some offset => ∀ ending ∈ b.tree.tokens.toList, ending.kind = .endOfFile →
          ending.fullSpan.start ≤ offset → hovered position =
            match b.tree.lastToken? with
            | none => .ok config.hoverDefault
            | some t => hovered ((LineIndex.ofText source).position t.span.start) := by
  intro a hovered
  have hreads : a.compiler.ReadsTexts := Binding.compiler_readsTexts l
  have hholds : s.Holds s.documents s.documents.locks.held := ⟨rfl, rfl⟩
  have hhover : ∀ p, hovered p = a.hoverFrom s.documents s.documents.locks.held uri p := fun p =>
    (hover_answersFrom hreads uri p s hholds).1
  have hreference := (reference_answersFrom hreads uri position s hholds).1
  constructor
  · have hagrees := @hoverFrom_agrees a s.documents s.documents.locks.held uri position
    rw [hreference, hhover]
    cases hstrict : a.strictFrom s.documents s.documents.locks.held uri position with
    | ok r => rwa [hstrict] at hagrees
    | error e => rwa [hstrict] at hagrees
  · intro path u source b hfile hat hfree hget hcompile
    have hplace : a.unitOfUri uri = .ok (path, u) := unitOfUri_eq_ok.2 ⟨hfile, hat⟩
    have hunit : a.unitFrom s.documents s.documents.locks.held path u = .ok b := by
      rw [unitFrom_of_get? hfree hget]
      exact congrArg (Except.mapError _) hcompile
    have hsize : source.utf8ByteSize ≤ Span.maxOffset := (Binding.compile_eq_ok.1 hcompile).1
    obtain ⟨_, -, -, -, rfl⟩ := Binding.exists_context_of_compile hcompile
    simp only [hhover]
    exact hoverFrom_behind hplace hunit rfl hsize position

open Workspace (usualLayout ofFiles callFiles) in
theorem hover_agrees_callFiles : ∃ r source b t,
    let a : Analysis := ⟨.ofLayout usualLayout, (ofFiles callFiles).graph, Binding.compiler usualLayout⟩
    let s : Store := ⟨(ofFiles callFiles).session.documents, []⟩
    let uri : Uri := ⟨"file:///workspace/main.nav"⟩
    let hovered (p : Position) := ((a.hover uri p).exec s).1
    (((a.reference uri ⟨1, 17⟩).exec s).1 = .ok r ∧ hovered ⟨1, 17⟩ = .ok r.symbol.hoverText) ∧
    Binding.compile usualLayout s.documents a.graph ⟨.current, "main.nav"⟩ source = .ok b ∧
      b.tree.lastToken? = some t ∧
      hovered ⟨2, 0⟩ = hovered ((LineIndex.ofText source).position t.span.start) ∧
      hovered ⟨3, 0⟩ = .ok "" := by
  have hreference : ((Analysis.reference ⟨.ofLayout usualLayout, (ofFiles callFiles).graph,
      Binding.compiler usualLayout⟩ ⟨"file:///workspace/main.nav"⟩ ⟨1, 17⟩).exec
        ⟨(ofFiles callFiles).session.documents, []⟩).1.toOption.any fun _ => true := by
    decide +kernel
  have hcompile : (Binding.compile usualLayout (ofFiles callFiles).session.documents
      (ofFiles callFiles).graph ⟨.current, "main.nav"⟩
      "import lib;\nfn main() { lib:make(); }\n").toOption.any fun b =>
        b.tree.lastToken?.isSome && b.tree.tokens.toList.any fun t =>
          t.kind == .endOfFile && t.fullSpan.start ≤ 38 := by
    decide +kernel
  have hfile : (Uri.mk "file:///workspace/main.nav").toFile? =
      some (.ofText "/workspace/main.nav") := by decide +kernel
  have hat : usualLayout.unitAt? (.ofText "/workspace/main.nav") =
      some ⟨.current, "main.nav"⟩ := by decide +kernel
  have hget : (ofFiles callFiles).session.documents.get? (.ofText "/workspace/main.nav") =
      some "import lib;\nfn main() { lib:make(); }\n" := by decide +kernel
  have hend : (LineIndex.ofText "import lib;\nfn main() { lib:make(); }\n").offset? ⟨2, 0⟩ =
      some 38 := by decide +kernel
  have hnone : (LineIndex.ofText "import lib;\nfn main() { lib:make(); }\n").offset? ⟨3, 0⟩ =
      none := by decide +kernel
  -- The text is not looked at again.
  generalize "import lib;\nfn main() { lib:make(); }\n" = source at hcompile hget hend hnone
  obtain ⟨r, hr, -⟩ := exists_ok_of_any hreference
  obtain ⟨b, hb, hlast⟩ := exists_ok_of_any hcompile
  rw [Bool.and_eq_true, List.any_eq_true] at hlast
  obtain ⟨hsome, ending, hmem, hending⟩ := hlast
  obtain ⟨t, ht⟩ := Option.isSome_iff_exists.1 hsome
  rw [Bool.and_eq_true, beq_iff_eq, decide_eq_true_eq] at hending
  have hagrees := fun position => hover_agrees (.ofLayout usualLayout) (ofFiles callFiles).graph
    usualLayout ⟨(ofFiles callFiles).session.documents, []⟩ ⟨"file:///workspace/main.nav"⟩ position
  have hbehind := fun position =>
    (hagrees position).2 _ _ source b hfile hat (by decide +kernel) hget hb
  have hfound := (hagrees ⟨1, 17⟩).1
  dsimp only at hfound
  rw [hr] at hfound
  have hlast := hbehind ⟨2, 0⟩
  rw [hend] at hlast
  have hdefault := hbehind ⟨3, 0⟩
  rw [hnone] at hdefault
  have hstart := hlast ending hmem hending.1 hending.2
  rw [ht] at hstart
  exact ⟨r, source, b, t, ⟨hr, hfound⟩, hb, ht, hstart, hdefault⟩

end Analysis

end Xref
