import Xref.Proofs.Text.Replacements

/-!
# Splices

What it means to replace several spans of a text at the same time, as a function of the text: it
goes through the text once and puts the new text of every edit where the edit stands (`splice`). The
edits may be given in any order, which only decides between insertions at one place. Edits that are
carried out at once come to the same (`Replaces.eq_spliced`), and of edits that do not overlap a
change set makes the splice in which the last of several insertions at one place comes first
(`ChangeSet.perform?_eq_splice`).
-/

namespace Xref

open Text

variable {e : Edit} {es fs : List Edit} {offset : Nat} {cs : List Char}

/-- What the edits at an offset that remove nothing insert there, in the order of the list. -/
def insertedAt (es : List Edit) (offset : Nat) : List Char :=
  (es.filter fun e => e.span = .point offset).flatMap fun e => e.newText.toList

/-- What comes in the place of the text that is removed from an offset on. -/
def replacingAt (es : List Edit) (offset : Nat) : List Char :=
  (es.filter fun e => e.span.start = offset ∧ offset < e.span.stop).flatMap fun e =>
    e.newText.toList

/-- Whether the byte at an offset is removed. -/
def removesAt (es : List Edit) (offset : Nat) : Bool := es.any fun e => e.span.contains offset

/-- The characters of a text that starts at an offset after all edits. -/
def spliced (es : List Edit) : Nat → List Char → List Char
  | offset, [] => insertedAt es offset
  | offset, c :: cs =>
    insertedAt es offset ++ (replacingAt es offset ++
      ((if removesAt es offset then [] else [c]) ++ spliced es (offset + c.utf8Size) cs))

/-- A text with the new text of every edit in the place of its span. All spans count in the text as
it is given. -/
def splice (es : List Edit) (text : String) : String := String.ofList (spliced es 0 text.toList)

/-! ## One offset -/

theorem insertedAt_cons (e : Edit) (es : List Edit) (offset : Nat) : insertedAt (e :: es) offset =
    (if e.span = .point offset then e.newText.toList else []) ++ insertedAt es offset := by
  rw [insertedAt, List.filter_cons]
  split_ifs <;> simp_all [insertedAt]

theorem replacingAt_cons (e : Edit) (es : List Edit) (offset : Nat) : replacingAt (e :: es) offset =
    (if e.span.start = offset ∧ offset < e.span.stop then e.newText.toList else []) ++
      replacingAt es offset := by
  rw [replacingAt, List.filter_cons]
  split_ifs <;> simp_all [replacingAt]

theorem removesAt_cons (e : Edit) (es : List Edit) (offset : Nat) :
    removesAt (e :: es) offset = (e.span.contains offset || removesAt es offset) := rfl

variable (offset) in
/-- Nothing happens before the first edit. -/
theorem nothing_at (h : ∀ e ∈ es, offset < e.span.start) :
    insertedAt es offset = [] ∧ replacingAt es offset = [] ∧ removesAt es offset = false := by
  induction es with
  | nil => exact ⟨rfl, rfl, rfl⟩
  | cons e es ih =>
    obtain ⟨hfirst, hrest⟩ := List.forall_mem_cons.1 h
    obtain ⟨hinserted, hreplacing, hremoves⟩ := ih hrest
    have hpoint : e.span ≠ .point offset := fun heq => by
      rw [heq, Span.point] at hfirst
      exact Nat.lt_irrefl _ hfirst
    refine ⟨?_, ?_, ?_⟩
    · rw [insertedAt_cons, if_neg hpoint, hinserted, List.append_nil]
    · rw [replacingAt_cons, if_neg fun hstart => Nat.ne_of_gt hfirst hstart.1, hreplacing,
        List.append_nil]
    · rw [removesAt_cons, hremoves, Bool.or_false, Span.contains, decide_eq_false_iff_not]
      exact fun hin => Nat.not_le.2 hfirst hin.1

/-! ## From edits at once to splices -/

/-- Characters before the first edit stay. -/
theorem spliced_skip {kept : List Char} (h : ∀ e ∈ es, offset + byteLength kept ≤ e.span.start) :
    spliced es offset (kept ++ cs) = kept ++ spliced es (offset + byteLength kept) cs := by
  induction kept generalizing offset with
  | nil => rfl
  | cons c kept ih =>
    have hpos := c.utf8Size_pos
    rw [byteLength_cons] at h ⊢
    obtain ⟨hinserted, hreplacing, hremoves⟩ := nothing_at offset fun e he => by
      have := h e he
      omega
    rw [List.cons_append, spliced, hinserted, hreplacing, hremoves,
      ih fun e he => by rw [Nat.add_assoc]; exact h e he, Nat.add_assoc]
    rfl

/-- Behind an edit it does not matter. -/
theorem spliced_past (hstart : e.span.start < offset) (hstop : e.span.stop ≤ offset) :
    spliced (e :: es) offset cs = spliced es offset cs := by
  have hpoint : ∀ {n}, offset ≤ n → e.span ≠ .point n := fun {n} hn heq => by
    rw [heq, Span.point] at hstart
    exact Nat.not_lt.2 hn hstart
  induction cs generalizing offset with
  | nil => rw [spliced, spliced, insertedAt_cons, if_neg (hpoint (Nat.le_refl _))]; rfl
  | cons c cs ih =>
    have hcontains : e.span.contains offset = false := by
      rw [Span.contains, decide_eq_false_iff_not]
      exact fun h => Nat.not_lt.2 hstop h.2
    have hrest : spliced (e :: es) (offset + c.utf8Size) cs = spliced es (offset + c.utf8Size) cs :=
      ih (by omega) (by omega) fun hn => hpoint (by omega)
    rw [spliced, spliced, insertedAt_cons, if_neg (hpoint (Nat.le_refl _)), replacingAt_cons,
      if_neg fun h => Nat.ne_of_lt hstart h.1, removesAt_cons, hcontains, hrest]
    rfl

/-- Within the span of an edit all characters go. -/
theorem spliced_inside {removed : List Char} (hstart : e.span.start < offset)
    (hstop : offset + byteLength removed = e.span.stop)
    (hlater : ∀ f ∈ es, e.span.stop ≤ f.span.start) :
    spliced (e :: es) offset (removed ++ cs) = spliced (e :: es) e.span.stop cs := by
  induction removed generalizing offset with
  | nil => rw [← hstop]; rfl
  | cons c removed ih =>
    have hpos := c.utf8Size_pos
    rw [byteLength_cons] at hstop
    obtain ⟨hinserted, hreplacing, -⟩ := nothing_at offset fun f hf => by
      have := hlater f hf
      omega
    have hpoint : e.span ≠ .point offset := fun heq => by
      rw [heq, Span.point] at hstart
      exact Nat.lt_irrefl _ hstart
    have hcontains : e.span.contains offset := by
      rw [Span.contains, decide_eq_true_iff]
      omega
    rw [List.cons_append, spliced, insertedAt_cons, if_neg hpoint, hinserted, replacingAt_cons,
      if_neg fun h => Nat.ne_of_lt hstart h.1, hreplacing, removesAt_cons, hcontains,
      ih (by omega) (by omega)]
    rfl

/-- At an edit its new text comes in the place of its span. -/
theorem spliced_cons {removed : List Char} (hstop : e.span.stop = e.span.start + byteLength removed)
    (hlater : ∀ f ∈ es, e.span.stop ≤ f.span.start) :
    spliced (e :: es) e.span.start (removed ++ cs) =
      e.newText.toList ++ spliced es e.span.stop cs := by
  cases removed with
  | nil =>
    have hempty : e.span.stop = e.span.start := hstop
    have hpoint : e.span = .point e.span.start := congrArg (Span.mk e.span.start) hempty
    rw [hempty, List.nil_append]
    cases cs with
    | nil => rw [spliced, spliced, insertedAt_cons, if_pos hpoint]
    | cons c cs =>
      have hpos := c.utf8Size_pos
      have hcontains : e.span.contains e.span.start = false := by
        rw [Span.contains, decide_eq_false_iff_not]
        omega
      rw [spliced, spliced, insertedAt_cons, if_pos hpoint, replacingAt_cons, if_neg (by omega),
        removesAt_cons, hcontains, spliced_past (by omega) (by omega), List.append_assoc]
      rfl
  | cons c removed =>
    have hpos := c.utf8Size_pos
    rw [byteLength_cons] at hstop
    obtain ⟨hinserted, hreplacing, -⟩ := nothing_at e.span.start fun f hf => by
      have := hlater f hf
      omega
    have hpoint : e.span ≠ .point e.span.start := fun heq => by
      have hempty : e.span.stop = e.span.start := congrArg Span.stop heq
      omega
    have hcontains : e.span.contains e.span.start := by
      rw [Span.contains, decide_eq_true_iff]
      omega
    rw [List.cons_append, spliced, insertedAt_cons, if_neg hpoint, hinserted, replacingAt_cons,
      if_pos ⟨rfl, by omega⟩, hreplacing, removesAt_cons, hcontains,
      spliced_inside (by omega) (by omega) hlater, spliced_past (by omega) (Nat.le_refl _),
      List.append_nil, List.nil_append, List.append_nil]
    rfl

theorem Replaces.start_le {old new : List Char} (h : Replaces offset es old new) :
    ∀ e ∈ es, offset ≤ e.span.start := by
  induction h with
  | nil => exact fun _ h => nomatch h
  | cons hstart hstop _ ih =>
    refine List.forall_mem_cons.2 ⟨by omega, fun f hf => ?_⟩
    have := ih f hf
    omega

/-- **Edits at once are a splice.** -/
theorem Replaces.eq_spliced {old new : List Char} (h : Replaces offset es old new) :
    new = spliced es offset old := by
  induction h with
  | @nil offset cs =>
    have hall : spliced [] offset (cs ++ []) = cs ++ spliced [] (offset + byteLength cs) [] :=
      spliced_skip nofun
    rw [List.append_nil] at hall
    rw [hall]
    exact (List.append_nil cs).symm
  | @cons offset e es kept removed rest new hstart hstop hrest ih =>
    rw [spliced_skip fun f hf => ?_, ← hstart, spliced_cons hstop hrest.start_le, ← ih]
    rw [← hstart]
    rcases List.mem_cons.1 hf with rfl | hf
    · exact Nat.le_refl _
    · have := hrest.start_le f hf
      omega

/-- All edits at once have one result. -/
theorem Replaces.unique {old new new' : List Char} (h : Replaces offset es old new)
    (h' : Replaces offset es old new') : new = new' :=
  h.eq_spliced.trans h'.eq_spliced.symm

/-! ## Splices of the same edits -/

/-- What a splice depends on. -/
theorem spliced_congr (hinserted : ∀ n, insertedAt es n = insertedAt fs n)
    (hreplacing : ∀ n, replacingAt es n = replacingAt fs n)
    (hremoves : ∀ n, removesAt es n = removesAt fs n) (offset : Nat) (cs : List Char) :
    spliced es offset cs = spliced fs offset cs := by
  induction cs generalizing offset with
  | nil => exact hinserted offset
  | cons c cs ih => rw [spliced, spliced, hinserted, hreplacing, hremoves, ih]

/-- In what order a list stands does not matter to texts of which at most one is not empty. -/
theorem flatMap_eq_of_perm {α β : Type} {g : α → List β} {l m : List α} (hperm : l.Perm m)
    (h : l.Pairwise fun a b => g a = [] ∨ g b = []) : l.flatMap g = m.flatMap g := by
  induction hperm with
  | nil => rfl
  | cons a _ ih => rw [List.flatMap_cons, List.flatMap_cons, ih (List.pairwise_cons.1 h).2]
  | swap a b l =>
    simp only [List.flatMap_cons]
    rcases (List.pairwise_cons.1 h).1 a List.mem_cons_self with hb | ha
    · rw [hb, List.nil_append, List.nil_append]
    · rw [ha, List.nil_append, List.nil_append]
  | trans hlm _ ihlm ihmn =>
    rw [ihlm h, ihmn ((hlm.pairwise_iff fun hab => hab.symm).1 h)]

/-- What is removed, and what comes in its place, does not depend on the order of edits that do not
overlap. -/
theorem replacingAt_perm (hperm : es.Perm fs) (hapart : es.Pairwise Edit.Apart) (n : Nat) :
    replacingAt es n = replacingAt fs n := by
  refine flatMap_eq_of_perm (hperm.filter _) ?_
  refine (hapart.filter _).imp_of_mem fun {e f} he hf h => ?_
  -- Two edits that both remove the byte at the offset would overlap.
  have he := of_decide_eq_true (List.mem_filter.1 he).2
  have hf := of_decide_eq_true (List.mem_filter.1 hf).2
  rw [Edit.Apart, Span.overlaps, decide_eq_false_iff_not] at h
  omega

theorem removesAt_perm (hperm : es.Perm fs) (n : Nat) : removesAt es n = removesAt fs n := by
  rw [removesAt, removesAt, Bool.eq_iff_iff, List.any_eq_true, List.any_eq_true]
  exact exists_congr fun e => and_congr_left fun _ => hperm.mem_iff

/-- Whether two edits do not both insert something at one place. -/
def Edit.InsertElsewhere (e f : Edit) : Prop :=
  e.isInsertion → f.isInsertion → e.span.start ≠ f.span.start

instance : DecidableRel Edit.InsertElsewhere := fun e f =>
  inferInstanceAs (Decidable (e.isInsertion → f.isInsertion → e.span.start ≠ f.span.start))

theorem Edit.InsertElsewhere.symm {e f : Edit} (h : e.InsertElsewhere f) : f.InsertElsewhere e :=
  fun hf he heq => h he hf heq.symm

theorem Edit.isInsertion_of_point {n : Nat} (h : e.span = .point n) (htext : e.newText ≠ "") :
    e.isInsertion := by
  rw [Edit.isInsertion, h, Bool.and_eq_true, Bool.not_eq_true', ← Bool.not_eq_true,
    String.isEmpty_iff]
  exact ⟨beq_self_eq_true n, htext⟩

theorem insertedAt_perm (hperm : es.Perm fs) (hone : es.Pairwise Edit.InsertElsewhere) (n : Nat) :
    insertedAt es n = insertedAt fs n := by
  refine flatMap_eq_of_perm (hperm.filter _) ?_
  refine (hone.filter _).imp_of_mem fun {e f} he hf h => ?_
  have he := of_decide_eq_true (List.mem_filter.1 he).2
  have hf := of_decide_eq_true (List.mem_filter.1 hf).2
  by_contra hboth
  rw [not_or, String.toList_eq_nil_iff, String.toList_eq_nil_iff] at hboth
  refine h (Edit.isInsertion_of_point he hboth.1) (Edit.isInsertion_of_point hf hboth.2) ?_
  rw [he, hf]

/-- **The order in which edits are given does not matter** unless two of them insert something at
one place. -/
theorem splice_perm (hperm : es.Perm fs) (hapart : es.Pairwise Edit.Apart)
    (hone : es.Pairwise Edit.InsertElsewhere) (text : String) :
    splice es text = splice fs text := by
  rw [splice, splice, spliced_congr (insertedAt_perm hperm hone) (replacingAt_perm hperm hapart)
    (removesAt_perm hperm)]

/-! ## Splices that agree -/

theorem IsBoundary.of_cons {c : Char} {n : Nat} (h : IsBoundary (c :: cs) n) :
    n = 0 ∨ ∃ m, n = c.utf8Size + m ∧ IsBoundary cs m := by
  obtain ⟨before, after, happ, rfl⟩ := h
  cases before with
  | nil => exact .inl rfl
  | cons d before =>
    obtain ⟨rfl, hcs⟩ := List.cons.inj happ
    exact .inr ⟨_, rfl, before, after, hcs, rfl⟩

/-- Splices that remove the same text and insert texts of the same length at every offset agree only
if they insert the same texts. -/
theorem insertedAt_eq_of_spliced_eq
    (hlength : ∀ n, (insertedAt es n).length = (insertedAt fs n).length)
    (hreplacing : ∀ n, replacingAt es n = replacingAt fs n)
    (hremoves : ∀ n, removesAt es n = removesAt fs n)
    (h : spliced es offset cs = spliced fs offset cs) {n : Nat} (hn : IsBoundary cs n) :
    insertedAt es (offset + n) = insertedAt fs (offset + n) := by
  induction cs generalizing offset n with
  | nil =>
    obtain ⟨before, after, happ, rfl⟩ := hn
    obtain ⟨rfl, rfl⟩ := List.append_eq_nil_iff.1 happ.symm
    exact h
  | cons c cs ih =>
    rw [spliced, spliced, hreplacing, hremoves] at h
    obtain ⟨hhere, hrest⟩ := List.append_inj h (hlength offset)
    rcases hn.of_cons with rfl | ⟨m, rfl, hm⟩
    · exact hhere
    · rw [← Nat.add_assoc]
      exact ih (List.append_cancel_left (List.append_cancel_left hrest)) hm

/-- **The order of insertions shows:** edits and the same edits from the last to the first make one
text exactly if at every offset their insertions read the same in both orders. -/
theorem splice_reverse_eq_iff {text : String} (hapart : es.Pairwise Edit.Apart)
    (hbounds : ∀ e ∈ es, IsBoundary text.toList e.span.start) :
    splice es.reverse text = splice es text ↔
      ∀ n, insertedAt es.reverse n = insertedAt es n := by
  have hperm := List.reverse_perm es
  have hreverse := (hperm.pairwise_iff Edit.Apart.symm).2 hapart
  constructor
  · intro h n
    by_cases hn : IsBoundary text.toList n
    · have hlength : ∀ n, (insertedAt es.reverse n).length = (insertedAt es n).length := fun n =>
        ((hperm.filter _).flatMap_right _).length_eq
      have hsame : insertedAt es.reverse (0 + n) = insertedAt es (0 + n) :=
        insertedAt_eq_of_spliced_eq hlength (replacingAt_perm hperm hreverse)
          (removesAt_perm hperm) (String.ofList_injective h) hn
      rwa [Nat.zero_add] at hsame
    · -- No edit stands where the text cannot be cut.
      have hnone : ∀ fs : List Edit, (∀ e ∈ fs, e ∈ es) → insertedAt fs n = [] := fun fs hfs => by
        rw [insertedAt, List.filter_eq_nil_iff.2 fun e he heq => hn ?_]
        · rfl
        · have hstart := hbounds e (hfs e he)
          rwa [of_decide_eq_true heq] at hstart
      rw [hnone _ fun e he => List.mem_reverse.1 he, hnone _ fun e he => he]
  · intro h
    rw [splice, splice, spliced_congr h (replacingAt_perm hperm hreverse) (removesAt_perm hperm)]

/-! ## Splices by a change set -/

/-- Sorting keeps the order of things that the order does not tell apart. -/
theorem filter_mergeSort {α : Type} {le : α → α → Bool} {p : α → Bool} {l : List α}
    (htrans : ∀ a b c, le a b → le b c → le a c) (htotal : ∀ a b, le a b || le b a)
    (hp : ∀ a b, p a → p b → le a b) : (l.mergeSort le).filter p = l.filter p := by
  have hsorted : (l.filter p).Pairwise fun a b => le a b := by
    refine List.pairwise_of_forall_mem_list fun a ha b hb => ?_
    exact hp a b (List.mem_filter.1 ha).2 (List.mem_filter.1 hb).2
  have hsub : (l.filter p).Sublist (l.mergeSort le) :=
    List.sublist_mergeSort htrans htotal hsorted List.filter_sublist
  have hkept := hsub.filter p
  simp only [List.filter_filter, Bool.and_self] at hkept
  exact (hkept.eq_of_length ((List.mergeSort_perm l le).filter p).length_eq.symm).symm

namespace ChangeSet

variable {s : ChangeSet} {text : String}

theorem insertedAt_placed (s : ChangeSet) (n : Nat) :
    insertedAt s.placed n = insertedAt s.edits.reverse n := by
  have htrans : ∀ a b c : Edit, (b.span.compare a.span).isLE → (c.span.compare b.span).isLE →
      (c.span.compare a.span).isLE := fun a b c hba hcb => Std.TransCmp.isLE_trans hcb hba
  have htotal : ∀ a b : Edit, (b.span.compare a.span).isLE || (a.span.compare b.span).isLE :=
    fun a b => compare_isLE_total b.span a.span
  rw [insertedAt, insertedAt, placed, List.filter_reverse, List.filter_reverse, backward]
  simp only [Span.isGE_compare]
  rw [filter_mergeSort htrans htotal]
  intro a b ha hb
  rw [of_decide_eq_true ha, of_decide_eq_true hb, Span.isLE_compare_iff]
  omega

/-- Edits are placed as if the last one had been added first. -/
theorem splice_placed (hapart : s.edits.Pairwise Edit.Apart) (text : String) :
    splice s.placed text = splice s.edits.reverse text := by
  have hperm : s.placed.Perm s.edits.reverse := s.placed_perm.trans (List.reverse_perm _).symm
  have hplaced := (s.placed_perm.pairwise_iff Edit.Apart.symm).2 hapart
  rw [splice, splice, spliced_congr s.insertedAt_placed (replacingAt_perm hperm hplaced)
    (removesAt_perm hperm)]

/-- **A change set makes a splice,** in which the last of several insertions at one place comes
first. -/
theorem perform?_eq_splice (hforward : ∀ e ∈ s.edits, e.IsForward)
    (hapart : s.edits.Pairwise Edit.Apart)
    (hbounds : ∀ e ∈ s.edits,
      IsBoundary text.toList e.span.start ∧ IsBoundary text.toList e.span.stop) :
    s.perform? text = some (splice s.edits.reverse text) := by
  obtain ⟨new, hnew, hreplaces⟩ := perform?_eq hforward hapart hbounds
  rw [hnew, ← splice_placed hapart, splice, ← hreplaces.eq_spliced, String.ofList_toList]

end ChangeSet

end Xref
