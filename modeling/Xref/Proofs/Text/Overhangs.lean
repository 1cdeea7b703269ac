import Xref.Proofs.Text.Bytes
import Xref.Proofs.Text.ChangeSets

/-!
# Edits past the end of a text

A span that reaches past the end of a text is cut down to the text, but to the text as it is when
the turn of the edit comes, and an edit further behind may have made it longer by then. Every edit
is carried out where its span lies in the text that is given exactly if no edit that reaches past
the end stands before one that adds something (`ChangeSet.cutsDown_iff`). The edits then make the
splice of the spans cut down. Otherwise the text that a later edit has added is replaced, split or
overtaken (`ChangeSet.not_cutsDown_overhangingSet`).
-/

namespace Xref

open Text

variable {e f : Edit} {es : List Edit} {cs old : List Char}

/-! ## Spans cut down -/

/-- An edit whose span is cut down to a length. -/
def Edit.within (e : Edit) (length : Nat) : Edit :=
  { e with span := ⟨min e.span.start length, min e.span.stop length⟩ }

/-- A span that ends within the length is not cut. -/
theorem Edit.within_of_le {length : Nat} (he : e.IsForward) (h : e.span.stop ≤ length) :
    e.within length = e := by
  obtain ⟨⟨start, stop⟩, newText⟩ := e
  rw [Edit.within, Nat.min_eq_left h, Nat.min_eq_left (Nat.le_trans he h)]

theorem Edit.isForward_within (he : e.IsForward) (length : Nat) : (e.within length).IsForward := by
  unfold Edit.IsForward at *
  simp only [Edit.within]
  omega

/-- To carry out an edit is to carry it out with its span cut down to the text as it is. -/
theorem Edit.perform?_within (e : Edit) (cs : List Char) :
    (e.within (byteLength cs)).perform? cs = e.perform? cs := by
  have hstart : min (min e.span.start (byteLength cs)) (byteLength cs) =
      min e.span.start (byteLength cs) := by omega
  have hstop : max (min (min e.span.stop (byteLength cs)) (byteLength cs))
      (min e.span.start (byteLength cs)) =
        max (min e.span.stop (byteLength cs)) (min e.span.start (byteLength cs)) := by omega
  simp only [Edit.perform?, Edit.within, hstart, hstop]

/-- An edit that starts at the end of a text, or behind it, adds its new text there. -/
theorem Edit.perform?_behind (he : e.IsForward) (h : byteLength cs ≤ e.span.start) :
    e.perform? cs = some (cs ++ e.newText.toList) := by
  have hstart : (e.within (byteLength cs)).span.start = byteLength cs := Nat.min_eq_right h
  have hstop : (e.within (byteLength cs)).span.stop =
      (e.within (byteLength cs)).span.start + byteLength [] :=
    (Nat.min_eq_right (Nat.le_trans h he)).trans hstart.symm
  have hone : (e.within (byteLength cs)).perform? (cs ++ ([] ++ [])) =
      some (cs ++ (e.newText.toList ++ [])) :=
    Edit.perform?_eq hstart hstop []
  rw [List.append_nil, List.append_nil, List.append_nil, Edit.perform?_within] at hone
  exact hone

/-! ## Turns -/

/-- Edits behind the end of a text that add nothing leave it as it is. -/
theorem fromBack?_behind (hforward : ∀ e ∈ es, e.IsForward)
    (hstart : ∀ e ∈ es, byteLength old ≤ e.span.start) (hempty : ∀ e ∈ es, e.newText = "") :
    fromBack? es old = some old := by
  induction es with
  | nil => rfl
  | cons e es ih =>
    rw [List.forall_mem_cons] at hforward hstart hempty
    rw [fromBack?_cons, ih hforward.2 hstart.2 hempty.2, Option.bind_some,
      e.perform?_behind hforward.1 hstart.1, hempty.1, String.toList_empty, List.append_nil]

/-- An edit has its place in the text as it is when its turn comes, if it does not reach past the
end or if nothing has been added behind it. -/
theorem Edit.within_of_turn (he : e.IsForward)
    (hbound : IsBoundary old (e.within (byteLength old)).span.stop)
    (hforward : ∀ f ∈ es, f.IsForward) (hbehind : ∀ f ∈ es, e.span.stop ≤ f.span.start)
    (hempty : byteLength old < e.span.stop → ∀ f ∈ es, f.newText = "")
    (h : fromBack? es old = some cs) : e.within (byteLength cs) = e.within (byteLength old) := by
  rcases Nat.lt_or_ge (byteLength old) e.span.stop with hlt | hle
  · have hsame := fromBack?_behind hforward
      (fun f hf => Nat.le_trans (Nat.le_of_lt hlt) (hbehind f hf)) (hempty hlt)
    rw [Option.some.inj (h.symm.trans hsame)]
  · rw [e.within_of_le he hle] at hbound ⊢
    obtain ⟨before, after, rfl, hlength⟩ := hbound
    obtain ⟨rest, rfl⟩ := fromBack?_append (fun f hf => hlength ▸ hbehind f hf) h
    refine e.within_of_le he ?_
    rw [byteLength_append, hlength]
    exact Nat.le_add_right _ _

/-- Whether every edit of a list has its place in a text when its turn comes. The edits behind it
come first. -/
def HaveTurns (old : List Char) (es : List Edit) : Prop :=
  ∀ before e behind, es = before ++ e :: behind → ∀ cs, fromBack? behind old = some cs →
    e.within (byteLength cs) = e.within (byteLength old)

theorem HaveTurns.tail (h : HaveTurns old (e :: es)) : HaveTurns old es :=
  fun before f behind happ => h (e :: before) f behind (congrArg (e :: ·) happ)

/-- Whether nothing is added behind an edit that reaches past the end of a text. -/
def QuietBehind (old : List Char) (es : List Edit) : Prop :=
  es.Pairwise fun e f => byteLength old < e.span.stop → f.newText = ""

section
variable (hforward : ∀ e ∈ es, e.IsForward)
  (hseparate : es.Pairwise fun e f => e.span.stop ≤ f.span.start)

include hforward hseparate

theorem QuietBehind.haveTurns
    (hbounds : ∀ e ∈ es, IsBoundary old (e.within (byteLength old)).span.stop)
    (h : QuietBehind old es) : HaveTurns old es := by
  rintro before e behind rfl cs hcs
  have hmem : ∀ {f}, f ∈ e :: behind → f ∈ before ++ e :: behind := List.mem_append_right _
  have hbehind := (List.pairwise_cons.1 (List.pairwise_append.1 hseparate).2.1).1
  have hempty := (List.pairwise_cons.1 (List.pairwise_append.1 h).2.1).1
  exact e.within_of_turn (hforward e (hmem List.mem_cons_self))
    (hbounds e (hmem List.mem_cons_self))
    (fun f hf => hforward f (hmem (List.mem_cons_of_mem _ hf))) hbehind
    (fun hlt f hf => hempty f hf hlt) hcs

theorem HaveTurns.quietBehind (h : HaveTurns old es) : QuietBehind old es := by
  induction es with
  | nil => exact .nil
  | cons e es ih =>
    obtain ⟨hfirst, hforward'⟩ := List.forall_mem_cons.1 hforward
    obtain ⟨hbehind, hseparate'⟩ := List.pairwise_cons.1 hseparate
    have hquiet : QuietBehind old es := ih hforward' hseparate' h.tail
    refine List.pairwise_cons.2 ⟨fun f hf hlt => ?_, hquiet⟩
    cases es with
    | nil => cases hf
    | cons g es =>
      -- All edits behind `e` start behind the end, and only `g`, the next one, can add something.
      have hstart : ∀ g' ∈ g :: es, byteLength old < g'.span.start := fun g' hg' =>
        Nat.lt_of_lt_of_le hlt (hbehind g' hg')
      obtain ⟨hg, hes⟩ := List.forall_mem_cons.1 hstart
      obtain ⟨hgforward, hesforward⟩ := List.forall_mem_cons.1 hforward'
      have hempty : ∀ g' ∈ es, g'.newText = "" := fun g' hg' =>
        (List.pairwise_cons.1 hquiet).1 g' hg' (Nat.lt_of_lt_of_le hg hgforward)
      have hturn := h [] e (g :: es) rfl (old ++ g.newText.toList) <| by
        rw [fromBack?_cons, fromBack?_behind hesforward (fun g' hg' => Nat.le_of_lt (hes g' hg'))
          hempty, Option.bind_some, g.perform?_behind hgforward (Nat.le_of_lt hg)]
      have hstop := congrArg (fun e => e.span.stop) hturn
      simp only [Edit.within, byteLength_append] at hstop
      have hnone : byteLength g.newText.toList = 0 := by omega
      rcases List.mem_cons.1 hf with rfl | hf
      · by_contra hne
        have := byteLength_pos (String.toList_eq_nil_iff.not.2 hne)
        omega
      · exact hempty f hf

end

/-- Edits that have their place when their turn comes do what they do with their spans cut down. -/
theorem HaveTurns.fromBack?_within (h : HaveTurns old es) :
    fromBack? es old = fromBack? (es.map (·.within (byteLength old))) old := by
  induction es with
  | nil => rfl
  | cons e es ih =>
    rw [List.map_cons, fromBack?_cons, fromBack?_cons, ← ih h.tail]
    refine Option.bind_congr fun cs hcs => ?_
    rw [← h [] e es rfl cs hcs, e.perform?_within]

namespace ChangeSet

variable {s : ChangeSet} {text : String}

/-- A change set takes every span as it lies in the text that is given, cut down to that text. -/
structure CutsDown (s : ChangeSet) (text : String) : Prop where
  /-- All spans are replaced at once, and what comes to stand at the end does so in the order of the
  spans. -/
  result : s.perform? text =
    some (splice (s.forward.map (·.within (byteLength text.toList))) text)
  /-- No edit replaces, splits or overtakes what an edit behind it has added: when its turn comes it
  is carried out at its place in the text that is given. -/
  turns : ∀ e cs, s.CarriesOut text e cs →
    e.within (byteLength cs) = e.within (byteLength text.toList)

theorem lt_forward (hdistinct : s.edits.Pairwise fun e f => e.span ≠ f.span) :
    s.forward.Pairwise fun e f => e.span.compare f.span = .lt := by
  have hne := (s.forward_perm.pairwise_iff fun h => Ne.symm h).2 hdistinct
  refine (s.pairwise_forward.and hne).imp fun {e f} h => ?_
  rcases Ordering.isLE_iff_eq_lt_or_eq_eq.1 h.1 with hlt | heq
  · exact hlt
  · exact absurd (Std.LawfulEqCmp.eq_of_compare heq) h.2

theorem haveTurns_placed_iff : HaveTurns text.toList s.placed ↔ ∀ e cs, s.CarriesOut text e cs →
    e.within (byteLength cs) = e.within (byteLength text.toList) := by
  simp only [carriesOut_iff]
  exact ⟨fun h e cs ⟨before, behind, happ, hcs⟩ => h before e behind happ cs hcs,
    fun h before e behind happ cs hcs => h e cs ⟨before, behind, happ, hcs⟩⟩

theorem quietBehind_iff (hes : es.Pairwise fun e f => e.span.compare f.span = .lt) :
    QuietBehind old es ↔ ∀ e ∈ es, ∀ f ∈ es, e.span.compare f.span = .lt →
      byteLength old < e.span.stop → f.newText = "" := by
  constructor
  · intro h
    have hself : ∀ {s t : Span}, s.compare t = .lt → t.compare s ≠ .lt := fun {s t} hst hts => by
      have hswap : t.compare s = (s.compare t).swap := Std.OrientedCmp.eq_swap
      rw [hswap, hst] at hts
      cases hts
    -- Of two edits in the list the one whose span comes first stands first.
    have hbackward : es.Pairwise (flip fun e f : Edit => e.span.compare f.span = .lt →
        byteLength old < e.span.stop → f.newText = "") :=
      hes.imp fun hlt hgt => absurd hgt (hself hlt)
    have hahead : es.Pairwise fun e f => e.span.compare f.span = .lt →
        byteLength old < e.span.stop → f.newText = "" :=
      List.Pairwise.imp (fun hempty _ hlt => hempty hlt) h
    intro e he f hf
    exact hahead.forall_of_forall_of_flip (fun e _ hlt => absurd hlt (hself hlt)) hbackward he hf
  · exact fun h => hes.imp_of_mem fun he hf hlt => h _ he _ hf hlt

/-- **Spans are cut down to the text that is given** exactly if no edit that reaches past its end
stands before one that adds something. -/
theorem cutsDown_iff (hforward : ∀ e ∈ s.edits, e.IsForward)
    (hbounds : ∀ e ∈ s.edits,
      IsBoundary text.toList (e.within (byteLength text.toList)).span.start ∧
        IsBoundary text.toList (e.within (byteLength text.toList)).span.stop)
    (hdistinct : s.edits.Pairwise fun e f => e.span ≠ f.span) (hnone : s.conflict? = none) :
    s.CutsDown text ↔ ∀ e ∈ s.edits, ∀ f ∈ s.edits, e.span.compare f.span = .lt →
      byteLength text.toList < e.span.stop → f.newText = "" := by
  have hapart := (conflict?_eq_none_iff hforward).1 hnone
  have hlt := lt_forward hdistinct
  have hplaced : s.placed = s.forward := placed_eq_of_perm s.forward_perm.symm hlt
  have hmem : ∀ {e}, e ∈ s.placed → e ∈ s.edits := s.placed_perm.mem_iff.1
  have hforward' : ∀ e ∈ s.placed, e.IsForward := fun e he => hforward e (hmem he)
  have hseparate := separate_placed hforward hapart
  have hquiet : QuietBehind text.toList s.placed ↔ ∀ e ∈ s.edits, ∀ f ∈ s.edits,
      e.span.compare f.span = .lt → byteLength text.toList < e.span.stop → f.newText = "" := by
    rw [quietBehind_iff (hplaced ▸ hlt)]
    simp only [s.placed_perm.mem_iff]
  rw [← hquiet]
  refine ⟨fun h => (haveTurns_placed_iff.2 h.turns).quietBehind hforward' hseparate, fun h => ?_⟩
  have hturns := h.haveTurns hforward' hseparate fun e he => (hbounds e (hmem he)).2
  refine ⟨?_, haveTurns_placed_iff.1 hturns⟩
  -- The spans cut down are still in order, so they can all be replaced at once.
  have hbounds' : ∀ e ∈ s.placed.map (·.within (byteLength text.toList)),
      IsBoundary text.toList e.span.start ∧ IsBoundary text.toList e.span.stop :=
    List.forall_mem_map.2 fun e he => hbounds e (hmem he)
  obtain ⟨new, hnew⟩ := exists_replaces [] text.toList
    (List.forall_mem_map.2 fun e he => Edit.isForward_within (hforward' e he) _)
    (fun _ _ => Nat.zero_le _)
    (List.pairwise_map.2 (hseparate.imp fun hle => by simp only [Edit.within]; omega)) hbounds'
  have hsplice : new = spliced (s.placed.map (·.within (byteLength text.toList))) 0 text.toList :=
    hnew.eq_spliced
  rw [perform?_eq_fromBack?, hturns.fromBack?_within, ← hplaced, splice, ← hsplice]
  exact congrArg (Option.map String.ofList) (hnew.fromBack? [] rfl)

/-- Two edits behind the end of a text of three bytes. -/
def overhangingSet : ChangeSet := ⟨[⟨⟨4, 5⟩, "Z"⟩, ⟨⟨10, 12⟩, "XY"⟩]⟩

theorem cutsDown_iff_overhangingSet :
    (∀ e ∈ overhangingSet.edits, e.IsForward) ∧
      (∀ e ∈ overhangingSet.edits,
        IsBoundary "abc".toList (e.within (byteLength "abc".toList)).span.start ∧
          IsBoundary "abc".toList (e.within (byteLength "abc".toList)).span.stop) ∧
      (overhangingSet.edits.Pairwise fun e f => e.span ≠ f.span) ∧
      overhangingSet.conflict? = none ∧
      (overhangingSet.CutsDown "abc" ↔ ∀ e ∈ overhangingSet.edits, ∀ f ∈ overhangingSet.edits,
        e.span.compare f.span = .lt → byteLength "abc".toList < e.span.stop → f.newText = "") :=
  have hforward : ∀ e ∈ overhangingSet.edits, e.IsForward := by decide
  have hbounds : ∀ e ∈ overhangingSet.edits,
      IsBoundary "abc".toList (e.within (byteLength "abc".toList)).span.start ∧
        IsBoundary "abc".toList (e.within (byteLength "abc".toList)).span.stop := by decide
  have hdistinct : overhangingSet.edits.Pairwise fun e f => e.span ≠ f.span := by decide
  have hnone : overhangingSet.conflict? = none :=
    (conflict?_eq_none_iff hforward).2 (by decide)
  ⟨hforward, hbounds, hdistinct, hnone, cutsDown_iff hforward hbounds hdistinct hnone⟩

/-- The first edit replaces a part of what the second one, which stands behind it, has added. -/
theorem not_cutsDown_overhangingSet :
    overhangingSet.perform? "abc" = some "abcXZ" ∧
      splice (overhangingSet.forward.map (·.within (byteLength "abc".toList))) "abc" = "abcZXY" ∧
      ¬ overhangingSet.CutsDown "abc" := by
  have hplaced : overhangingSet.placed = overhangingSet.edits :=
    placed_eq_of_perm (.refl _) (by decide)
  have hforward : overhangingSet.placed = overhangingSet.forward :=
    placed_eq_of_perm overhangingSet.forward_perm.symm (lt_forward (by decide))
  have hperform : overhangingSet.perform? "abc" = some "abcXZ" := by
    rw [perform?_eq_fromBack?, hplaced]
    decide
  have hsplice : splice (overhangingSet.forward.map (·.within (byteLength "abc".toList))) "abc" =
      "abcZXY" := by
    rw [← hforward, hplaced]
    decide
  refine ⟨hperform, hsplice, fun h => ?_⟩
  have hresult := h.result
  rw [hperform, hsplice] at hresult
  exact absurd hresult (by decide)

end ChangeSet

end Xref
