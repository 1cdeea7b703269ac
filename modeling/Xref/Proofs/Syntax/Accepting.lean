import Xref.Proofs.Syntax.Reading

/-!
# Productions that accept rules

A production accepts a rule (`Production.Accepts`) if it makes clean phrases of what the rule
derives, and of nothing else. As it looks ahead a few lexemes at most, it finds all that the rule
derives only if what follows cannot be taken for more of the same. So the law names what may follow,
and each combinator keeps it if its parts can be told from each other and from that. For rules
written down, this is a computation (`Rule.begins`, `Rule.avoids`, `Pattern.allApart`).
-/

namespace Xref

namespace Production

/-- The test that all lexemes pass. -/
def always : Lookahead := fun _ => true

/-- Whether `p` accepts the rule `r` where at most `k` lexemes are ahead and `start` holds of them:
what it makes a clean phrase of is derived by `r`, and it makes a clean phrase of what `r` derives
if `follow` holds of what lies behind. -/
structure Accepts (k : Nat) (start : Lookahead) (r : Rule) (follow : Lookahead)
    (p : Production) : Prop where
  sound : ∀ ls, ls.length ≤ k → start ls → partsClean (p ls).1 → Reads r ls (p ls).2
  complete : ∀ ls rest, ls.length ≤ k → start ls → Reads r ls rest → follow rest →
    partsClean (p ls).1 ∧ (p ls).2 = rest

/-- Whether `q` accepts the rule `r` and goes on from what is clean only. -/
structure AcceptsStep (k : Nat) (start : Lookahead) (r : Rule) (follow : Lookahead)
    (q : List Part → Production) : Prop where
  accepts : ∀ left, partsClean left → Accepts k start r follow (q left)
  keeps : ∀ left ls, partsClean (q left ls).1 → partsClean left

/-- Whether the test holds of all that the patterns allow, and of nothing else. -/
def Looks (test : Lookahead) (ps : List Pattern) : Prop := ∀ ls, test ls = atAny ps ls

/-- Whether a rule derives single lexemes, and these are the ones that the test holds of. -/
structure Tests (test : Lookahead) (r : Rule) : Prop where
  reads : ∀ ls rest, Reads r ls rest ↔ ∃ l, ls = l :: rest ∧ test ls
  nil : test [] = false

/-- Whether `f` holds where `r` can be read and `g` holds behind it. -/
def Leads (r : Rule) (g f : Lookahead) : Prop := ∀ ls rest, Reads r ls rest → g rest → f ls

variable {j k n : Nat} {s s' t f g test : Lookahead} {r r' : Rule} {p p' : Production}
  {ps : List Production} {q q' : List Part → Production} {kind : NodeKind} {fs gs : List Pattern}

theorem Leads.always : Leads r g always := fun _ _ _ _ => rfl

theorem Leads.empty (h : ∀ ls, g ls → f ls) : Leads .empty g f := by
  intro ls rest hr hg
  rw [reads_empty.1 hr]
  exact h rest hg

theorem Leads.first (h : r.begins fs) : Leads r g (atAny fs) := fun _ _ hr _ => hr.atAny h

/-- What may be nothing starts as it does, or as what follows. -/
theorem Leads.first_or (h : r.first ⊆ fs) (hg : gs ⊆ fs) : Leads r (atAny gs) (atAny fs) := by
  intro ls rest hr hrest
  obtain ⟨rfl, -⟩ | hls := hr.first
  · exact atAny_mono hg hrest
  · exact atAny_mono h hls

theorem Leads.last (h : Leads r g f) : Leads (.row [r]) g f := fun ls rest hread =>
  h ls rest (by simpa using hread)

/-- Rounds start as a round does, or as what follows. -/
theorem Leads.star (hstart : ∀ ls rest, Reads r ls rest → f ls) (hstop : ∀ ls, g ls → f ls) :
    Leads (.star r) g f := by
  intro ls rest hread hrest
  rcases reads_star.1 hread with rfl | ⟨mid, hround, -⟩
  · exact hstop ls hrest
  · exact hstart ls mid hround

/-! ## Tests of one lexeme -/

theorem both_iff {ls : List Lexeme} : both s t ls ↔ s ls ∧ t ls := Bool.and_eq_true_iff

theorem either_iff {ls : List Lexeme} : either s t ls ↔ s ls ∨ t ls := Bool.or_eq_true_iff

theorem looks_punctuation (text : String) :
    Looks (atPunctuation text) [.exactly .punctuation text] := by
  intro ls
  cases ls with
  | nil => rfl
  | cons l ls => exact (Bool.or_false _).symm

theorem looks_keyword (text : String) : Looks (atKeyword text) [.exactly .keyword text] := by
  intro ls
  cases ls with
  | nil => rfl
  | cons l ls => exact (Bool.or_false _).symm

theorem looks_identifier : Looks atIdentifier [.ofKind .identifier] := by
  intro ls
  cases ls with
  | nil => rfl
  | cons l ls => exact (Bool.or_false _).symm

theorem Looks.either (hs : Looks s fs) (ht : Looks t gs) :
    Looks (either s t) (fs ++ gs) := by
  intro ls
  rw [Xref.either, hs, ht]
  cases ls with
  | nil => rfl
  | cons l ls => exact List.any_append.symm

/-- The test holds where a rule is read that starts so. -/
theorem Looks.of_reads (h : Looks test fs) {ls rest : List Lexeme} (hread : Reads r ls rest)
    (hr : r.begins fs) : test ls := (h ls).trans (hread.atAny hr)

theorem Looks.not_of_reads (h : Looks test fs) {ls rest : List Lexeme} (hread : Reads r ls rest)
    (hr : r.avoids fs) : ¬ test ls := by
  rw [h]
  exact hread.not_atAny hr

/-- The test fails where patterns fit that are apart from it. -/
theorem Looks.not_of_atAny (h : Looks test fs) (hapart : Pattern.allApart gs fs) :
    ∀ ls, atAny gs ls → ¬ test ls := by
  intro ls hls
  rw [h]
  exact not_atAny_of_allApart hapart hls

theorem Looks.atAny (h : Looks test fs) (hsub : fs ⊆ gs) : ∀ ls, test ls → atAny gs ls :=
  fun ls hls => atAny_mono hsub ((h ls).symm.trans hls)

/-- A test of one lexeme tests for one of the patterns. -/
theorem Looks.tests_oneOf (h : Looks test fs) : Tests test (.oneOf (fs.map .token)) where
  reads ls rest := by
    have hone : Reads (.oneOf (fs.map .token)) ls rest ↔
        ∃ l, ls = l :: rest ∧ fs.any (·.fits l.terminal) := by
      clear h
      induction fs with
      | nil => simp
      | cons p fs ih => simp [ih, ← exists_or, ← and_or_left]
    rw [hone]
    refine exists_congr fun l => and_congr_right ?_
    rintro rfl
    rw [h]
    rfl
  nil := h []

theorem Looks.tests {q : Pattern} (h : Looks test [q]) : Tests test (.token q) where
  reads ls rest := by
    rw [← h.tests_oneOf.reads]
    simp
  nil := h []

namespace Accepts

/-! ## Weaker laws -/

theorem mono (h : Accepts k s r f p) (hle : j ≤ k) : Accepts j s r f p :=
  ⟨fun ls hls => h.sound ls (Nat.le_trans hls hle),
    fun ls rest hls => h.complete ls rest (Nat.le_trans hls hle)⟩

theorem restrict (h : Accepts k s r f p) (ht : ∀ ls, t ls → s ls) : Accepts k t r f p :=
  ⟨fun ls hls hstart => h.sound ls hls (ht ls hstart),
    fun ls rest hls hstart => h.complete ls rest hls (ht ls hstart)⟩

theorem before (h : Accepts k s r f p) (hg : ∀ ls, g ls → f ls) : Accepts k s r g p :=
  ⟨h.sound, fun ls rest hls hstart hr hrest => h.complete ls rest hls hstart hr (hg rest hrest)⟩

/-- A rule may be written in another way. -/
theorem congr (h : Accepts k s r f p)
    (hr : ∀ ls rest, s ls → (Reads r' ls rest ↔ Reads r ls rest)) : Accepts k s r' f p :=
  ⟨fun ls hls hstart hclean => (hr ls _ hstart).2 (h.sound ls hls hstart hclean),
    fun ls rest hls hstart hread => h.complete ls rest hls hstart ((hr ls rest hstart).1 hread)⟩

theorem same (h : Accepts k s r f p) (heq : ∀ ls, s ls → p' ls = p ls) : Accepts k s r f p' :=
  ⟨fun ls hls hstart => by rw [heq ls hstart]; exact h.sound ls hls hstart,
    fun ls rest hls hstart => by rw [heq ls hstart]; exact h.complete ls rest hls hstart⟩

theorem the {m : Nonterminal} (h : Accepts k s m.rule f p) : Accepts k s (.the m) f p :=
  h.congr fun _ _ _ => reads_the

theorem orNever (h : Accepts k s r f p) : Accepts k s (.alt r .never) f p :=
  h.congr fun _ _ _ => by simp

/-- Without lexemes ahead, what accepts one rule accepts another if both derive something. -/
theorem zero (h : Accepts k s r f p) (hr : r.nullable = false) (hr' : r'.nullable = false) :
    Accepts 0 s r' g p where
  sound ls hls hstart hclean := by
    have hread := h.sound ls (Nat.le_trans hls (Nat.zero_le k)) hstart hclean
    exact absurd (hread.length_lt hr) (by omega)
  complete ls rest hls _ hread _ := absurd (hread.length_lt hr') (by omega)

/-! ## Single productions -/

theorem nothing : Accepts k s .empty f nothing :=
  ⟨fun _ _ _ _ => reads_empty.2 rfl, fun _ _ _ _ h _ => ⟨trivial, reads_empty.1 h⟩⟩

/-- Without lexemes ahead nothing need be done for a rule that derives nothing, among others. -/
theorem keep_zero {left : List Part} (hleft : partsClean left) (hr : ∀ ls, Reads r ls ls) :
    Accepts 0 s r f fun ls => (left, ls) where
  sound ls _ _ _ := hr ls
  complete ls rest hls _ hread _ := by
    obtain rfl := List.length_eq_zero_iff.1 (Nat.le_zero.1 hls)
    exact ⟨hleft, (List.length_eq_zero_iff.1 (Nat.le_zero.1 hread.length_le)).symm⟩

theorem absent : Accepts k s .never f absent :=
  ⟨fun _ _ _ h => h.elim, fun _ _ _ _ h _ => (not_reads_never h).elim⟩

theorem invalid : Accepts k s .never f invalid :=
  ⟨fun _ _ _ h => absurd rfl h.1.1, fun _ _ _ _ h _ => (not_reads_never h).elim⟩

theorem take (h : Tests test r) : Accepts k test r f take where
  sound ls _ hstart _ := by
    cases ls with
    | nil =>
      rw [h.nil] at hstart
      cases hstart
    | cons l ls => exact (h.reads _ _).2 ⟨l, rfl, hstart⟩
  complete ls rest _ _ hread _ := by
    obtain ⟨l, rfl, -⟩ := (h.reads ls rest).1 hread
    exact ⟨trivial, rfl⟩

/-! ## One after the other -/

theorem nil : Accepts k s (.row []) f (sequence []) := nothing

/-- The second production has at most `j` lexemes ahead, and they pass `t`. -/
theorem cons_of (hp : Accepts k s r f p)
    (hbehind : ∀ ls mid, ls.length ≤ k → s ls → Reads r ls mid → mid.length ≤ j ∧ t mid)
    (hlead : Leads r' g f) (hps : Accepts j t r' g (sequence ps)) :
    Accepts k s (.seq r r') g (sequence (p :: ps)) where
  sound ls hls hstart hclean := by
    obtain ⟨hfirst, hothers⟩ := partsClean_append.1 hclean
    have hread := hp.sound ls hls hstart hfirst
    obtain ⟨hlength, hmid⟩ := hbehind ls _ hls hstart hread
    exact reads_seq.2 ⟨_, hread, hps.sound _ hlength hmid hothers⟩
  complete ls rest hls hstart hread hrest := by
    obtain ⟨mid, hfirst, hothers⟩ := reads_seq.1 hread
    obtain ⟨hlength, hmid⟩ := hbehind ls mid hls hstart hfirst
    obtain ⟨hclean, rfl⟩ :=
      hp.complete ls mid hls hstart hfirst (hlead _ rest hothers hrest)
    obtain ⟨hclean', hend⟩ := hps.complete _ rest hlength hmid hothers hrest
    exact ⟨partsClean_append.2 ⟨hclean, hclean'⟩, hend⟩

theorem cons (hp : Accepts k s r f p) (hlead : Leads r' g f)
    (hps : Accepts k always r' g (sequence ps)) : Accepts k s (.seq r r') g (sequence (p :: ps)) :=
  hp.cons_of (fun _ _ hls _ hread => ⟨Nat.le_trans hread.length_le hls, rfl⟩) hlead hps

/-- Behind what takes a lexeme there is one less. -/
theorem cons_lt (hp : Accepts (k + 1) s r f p) (hr : r.nullable = false) (hlead : Leads r' g f)
    (hps : Accepts k always r' g (sequence ps)) :
    Accepts (k + 1) s (.seq r r') g (sequence (p :: ps)) := by
  refine hp.cons_of (fun ls mid hls _ hread => ⟨?_, rfl⟩) hlead hps
  have := hread.length_lt hr
  omega

/-- What may follow does not matter to the first production. -/
theorem cons_free (hp : Accepts k s r always p) (hps : Accepts k always r' g (sequence ps)) :
    Accepts k s (.seq r r') g (sequence (p :: ps)) := hp.cons .always hps

theorem last (hp : Accepts k s r f p) : Accepts k s (.row [r]) f (sequence [p]) :=
  hp.cons (.empty fun _ h => h) nil

theorem single (hp : Accepts k s r f p) : Accepts k s r f (sequence [p]) :=
  hp.last.congr fun _ _ _ => by simp

/-- What passes the test before a lexeme may pass another behind it. -/
theorem take_cons_of (h : Tests test r) (hs : ∀ ls, s ls → test ls)
    (ht : ∀ l ls, s (l :: ls) → t ls) (hps : Accepts k t r' g (sequence ps)) :
    Accepts (k + 1) s (.seq r r') g (sequence (.take :: ps)) := by
  refine cons_of ((take h).restrict hs) (fun ls mid hls hstart hread => ?_) .always hps
  obtain ⟨l, rfl, -⟩ := (h.reads ls mid).1 hread
  exact ⟨Nat.le_of_succ_le_succ hls, ht l mid hstart⟩

theorem take_cons (h : Tests s r) (hps : Accepts k always r' g (sequence ps)) :
    Accepts (k + 1) s (.seq r r') g (sequence (.take :: ps)) :=
  take_cons_of h (fun _ hs => hs) (fun _ _ _ => rfl) hps

/-- A lexeme that marks what comes behind it. -/
theorem marked {m : Pattern} (hs : Looks s [m]) (hp : Accepts k always r f p) :
    Accepts k s (.row [.token m, r]) f (sequence [.take, p]) :=
  (take_cons hs.tests hp.last).mono (Nat.le_succ k)

/-! ## Nodes -/

theorem node (hkind : kind ≠ .invalid) (h : Accepts k s r f (sequence ps)) :
    Accepts k s r f (node kind ps) :=
  ⟨fun ls hls hstart hclean => h.sound ls hls hstart hclean.1.2,
    fun ls rest hls hstart hread hrest =>
      have ⟨hclean, hend⟩ := h.complete ls rest hls hstart hread hrest
      ⟨⟨⟨hkind, hclean⟩, trivial⟩, hend⟩⟩

/-- A node around one production accepts what that does. -/
theorem wrap (hkind : kind ≠ .invalid) (h : Accepts k s r f p) :
    Accepts k s r f (.node kind [p]) := node hkind h.single

/-! ## Choices -/

/-- The test tells the two rules apart. -/
theorem choose_of (hp : Accepts k t r f p) (hp' : Accepts k t' r' f p')
    (ht : ∀ ls, s ls → test ls → t ls) (ht' : ∀ ls, s ls → ¬ test ls → t' ls)
    (hr : ∀ ls rest, s ls → Reads r ls rest → f rest → test ls)
    (hr' : ∀ ls rest, s ls → Reads r' ls rest → f rest → ¬ test ls) :
    Accepts k s (.alt r r') f (choose test p p') where
  sound ls hls hstart hclean := by
    rw [reads_alt]
    by_cases htest : test ls
    · rw [Production.choose, if_pos htest] at hclean ⊢
      exact .inl (hp.sound ls hls (ht ls hstart htest) hclean)
    · rw [Production.choose, if_neg htest] at hclean ⊢
      exact .inr (hp'.sound ls hls (ht' ls hstart htest) hclean)
  complete ls rest hls hstart hread hrest := by
    rw [Production.choose]
    rcases reads_alt.1 hread with hread | hread
    · have htest := hr ls rest hstart hread hrest
      rw [if_pos htest]
      exact hp.complete ls rest hls (ht ls hstart htest) hread hrest
    · have htest := hr' ls rest hstart hread hrest
      rw [if_neg htest]
      exact hp'.complete ls rest hls (ht' ls hstart htest) hread hrest

/-- The rules start with different lexemes. -/
theorem choose (htest : Looks test fs) (hr : r.begins fs)
    (hr' : r'.avoids fs) (hp : Accepts k test r f p) (hp' : Accepts k always r' f p') :
    Accepts k always (.alt r r') f (choose test p p') := by
  refine hp.choose_of hp' (fun _ _ h => h) (fun _ _ _ => rfl) ?_ ?_
  · exact fun ls rest _ hread _ => htest.of_reads hread hr
  · exact fun ls rest _ hread _ => htest.not_of_reads hread hr'

theorem expect (htest : Looks test fs) (hr : r.begins fs)
    (hp : Accepts k test r f p) : Accepts k always r f (expect test p) :=
  (hp.choose htest hr rfl absent).congr fun _ _ _ => by simp

theorem optional_of (hr : ∀ ls rest, Reads r ls rest → test ls)
    (hf : ∀ ls, f ls → ¬ test ls) (hp : Accepts k test r f p) :
    Accepts k always r.optional f (optional test p) := by
  have hnone : Accepts k always .empty f Production.nothing := nothing
  refine hp.choose_of hnone (fun _ _ h => h) (fun _ _ _ => rfl) ?_ ?_
  · exact fun ls rest _ hread _ => hr ls rest hread
  · intro ls rest _ hread hrest
    rw [reads_empty.1 hread]
    exact hf rest hrest

theorem optional (htest : Looks test fs) (hr : r.begins fs)
    (hf : ∀ ls, f ls → ¬ test ls) (hp : Accepts k test r f p) :
    Accepts k always r.optional f (optional test p) :=
  optional_of (fun _ _ hread => htest.of_reads hread hr) hf hp

/-! ## Rounds -/

/-- Every round takes a lexeme. So `n` rounds are enough for as many lexemes. -/
theorem repeated (hp : Accepts k test r f p) (hr : r.nullable = false)
    (hstart : ∀ ls rest, Reads r ls rest → test ls ∧ f ls)
    (hstop : ∀ ls, g ls → ¬ test ls ∧ f ls) (hn : n ≤ k) :
    Accepts n always (.star r) g (repeated test p n) := by
  induction n with
  | zero => exact keep_zero trivial fun _ => .star_nil
  | succ n ih =>
    have hlead : Leads (.star r) g f :=
      .star (fun ls rest hread => (hstart ls rest hread).2) fun ls hls => (hstop ls hls).2
    have hround := (hp.mono hn).cons_lt hr hlead.last (ih (Nat.le_of_succ_le hn)).last
    refine (hround.optional_of (fun ls rest hread => ?_) fun ls hls => (hstop ls hls).1).congr ?_
    · obtain ⟨mid, hfirst, -⟩ := reads_seq.1 hread
      exact (hstart ls mid hfirst).1
    · intro ls rest _
      rw [reads_star]
      simp [or_comm]

/-- A list with commas is nothing, or one and perhaps a comma with a list behind it. -/
theorem reads_commaList {ls rest : List Lexeme} : Reads (.commaList r) ls rest ↔
    Reads (.optional (.row [r, .optional (.row [.punctuation ",", .commaList r])])) ls rest := by
  have hlist : ∀ ls, Reads (.commaList r) ls rest ↔ (∃ mid, Reads r ls mid ∧
      ∃ m, Reads (.star (.row [.punctuation ",", r])) mid m ∧
        (Reads (.punctuation ",") m rest ∨ m = rest)) ∨ ls = rest := fun ls => by
    simp [Rule.commaList]
  have hbehind : ∀ mid, (∃ m, Reads (.star (.row [.punctuation ",", r])) mid m ∧
      (Reads (.punctuation ",") m rest ∨ m = rest)) ↔
      (∃ m, Reads (.punctuation ",") mid m ∧ Reads (.commaList r) m rest) ∨ mid = rest := by
    intro mid
    constructor
    · rintro ⟨m, hstar, hend⟩
      rcases reads_star.1 hstar with rfl | ⟨m', hmore, hstar⟩
      · exact hend.imp_left fun hcomma => ⟨rest, hcomma, (hlist rest).2 (.inr rfl)⟩
      · simp only [reads_row_cons, reads_row_nil, exists_eq_right] at hmore
        obtain ⟨next, hcomma, hround⟩ := hmore
        exact .inl ⟨next, hcomma, (hlist next).2 (.inl ⟨m', hround, m, hstar, hend⟩)⟩
    · rintro (⟨next, hcomma, hmore⟩ | rfl)
      · rcases (hlist next).1 hmore with ⟨m', hround, m, hstar, hend⟩ | rfl
        · exact ⟨m, .star_cons (by simpa using ⟨next, hcomma, hround⟩) hstar, hend⟩
        · exact ⟨mid, .star_nil, .inl hcomma⟩
      · exact ⟨mid, .star_nil, .inr rfl⟩
  rw [hlist]
  simp only [hbehind, reads_optional, reads_row_cons, reads_row_nil, exists_eq_right]

theorem separated (htest : Looks test fs) (hr : r.begins fs) (hp : Accepts k test r f p)
    (hmore : ∀ ls, atPunctuation "," ls → f ls)
    (hstop : ∀ ls, g ls → ¬ test ls ∧ ¬ atPunctuation "," ls ∧ f ls) (hn : n ≤ k) :
    Accepts n always (.commaList r) g (separated test p n) := by
  induction n with
  | zero => exact keep_zero trivial fun _ => reads_commaList.2 (by simp)
  | succ n ih =>
    have hlist := ih (Nat.le_of_succ_le hn)
    have hcomma := (take_cons (looks_punctuation ",").tests hlist.last).optional
      (looks_punctuation ",") rfl fun ls hls => (hstop ls hls).2.1
    have hlead : Leads (.row [.optional (.row [.punctuation ",", .commaList r])]) g f := by
      intro ls rest hread hrest
      simp only [reads_row_cons, reads_row_nil, exists_eq_right, reads_optional] at hread
      rcases hread with ⟨mid, hfirst, -⟩ | rfl
      · exact hmore ls ((looks_punctuation ",").of_reads hfirst rfl)
      · exact (hstop ls hrest).2.2
    have hround := (hp.mono hn).cons hlead hcomma.last
    refine (hround.optional_of (fun ls rest hread => ?_) fun ls hls => (hstop ls hls).1).congr
      fun ls rest _ => reads_commaList
    obtain ⟨mid, hfirst, -⟩ := reads_seq.1 hread
    exact htest.of_reads hfirst hr

theorem punctuation (text : String) :
    Accepts k always (.punctuation text) f (punctuation text) :=
  expect (looks_punctuation text) (Rule.begins_token _) (take (looks_punctuation text).tests)

theorem identifier : Accepts k always .identifier f identifier :=
  expect looks_identifier rfl (take looks_identifier.tests)

end Accepts

/-! ## Going on -/

namespace AcceptsStep

theorem mono (h : AcceptsStep k s r f q) (hle : j ≤ k) : AcceptsStep j s r f q :=
  ⟨fun left hleft => (h.accepts left hleft).mono hle, h.keeps⟩

theorem congr (h : AcceptsStep k s r f q)
    (hr : ∀ ls rest, s ls → (Reads r' ls rest ↔ Reads r ls rest)) : AcceptsStep k s r' f q :=
  ⟨fun left hleft => (h.accepts left hleft).congr hr, h.keeps⟩

theorem keep : AcceptsStep k s .empty f fun left ls => (left, ls) :=
  ⟨fun _ hleft => ⟨fun _ _ _ _ => reads_empty.2 rfl, fun _ _ _ _ h _ => ⟨hleft, reads_empty.1 h⟩⟩,
    fun _ _ h => h⟩

theorem extend (hkind : kind ≠ .invalid) (h : Accepts k s r f (sequence ps)) :
    AcceptsStep k s r f fun left => extend left kind ps where
  accepts _ hleft :=
    ⟨fun ls hls hstart hclean => h.sound ls hls hstart (partsClean_append.1 hclean.1.2).2,
      fun ls rest hls hstart hread hrest =>
        have ⟨hclean, hend⟩ := h.complete ls rest hls hstart hread hrest
        ⟨⟨⟨hkind, partsClean_append.2 ⟨hleft, hclean⟩⟩, trivial⟩, hend⟩⟩
  keeps _ _ hclean := (partsClean_append.1 hclean.1.2).1

theorem choose_of (hq : AcceptsStep k t r f q) (hq' : AcceptsStep k t' r' f q')
    (ht : ∀ ls, s ls → test ls → t ls) (ht' : ∀ ls, s ls → ¬ test ls → t' ls)
    (hr : ∀ ls rest, s ls → Reads r ls rest → f rest → test ls)
    (hr' : ∀ ls rest, s ls → Reads r' ls rest → f rest → ¬ test ls) :
    AcceptsStep k s (.alt r r') f fun left => choose test (q left) (q' left) where
  accepts _ hleft := (hq.accepts _ hleft).choose_of (hq'.accepts _ hleft) ht ht' hr hr'
  keeps _ ls hclean := by
    rw [choose] at hclean
    split at hclean
    · exact hq.keeps _ ls hclean
    · exact hq'.keeps _ ls hclean

theorem choose (htest : Looks test fs) (hr : r.begins fs) (hr' : r'.avoids fs)
    (hq : AcceptsStep k test r f q) (hq' : AcceptsStep k always r' f q') :
    AcceptsStep k always (.alt r r') f fun left => choose test (q left) (q' left) :=
  hq.choose_of hq' (fun _ _ h => h) (fun _ _ _ => rfl)
    (fun _ _ _ hread _ => htest.of_reads hread hr)
    fun _ _ _ hread _ => htest.not_of_reads hread hr'

theorem optional_of (hr : ∀ ls rest, Reads r ls rest → test ls)
    (hf : ∀ ls, f ls → ¬ test ls) (hq : AcceptsStep k test r f q) :
    AcceptsStep k always r.optional f fun left =>
      .choose test (q left) fun ls => (left, ls) := by
  have hkeep : AcceptsStep k always .empty f fun left ls => (left, ls) := keep
  refine hq.choose_of hkeep (fun _ _ h => h) (fun _ _ _ => rfl) ?_ ?_
  · exact fun ls rest _ hread _ => hr ls rest hread
  · intro ls rest _ hread hrest
    rw [reads_empty.1 hread]
    exact hf rest hrest

theorem optional (htest : Looks test fs) (hr : r.begins fs) (hf : ∀ ls, f ls → ¬ test ls)
    (hq : AcceptsStep k test r f q) :
    AcceptsStep k always r.optional f fun left =>
      .choose test (q left) fun ls => (left, ls) :=
  optional_of (fun _ _ hread => htest.of_reads hread hr) hf hq

end AcceptsStep

/-- What has been taken is gone on from with one lexeme less ahead. -/
theorem Accepts.andThen (hp : Accepts (k + 1) s r f p) (hr : r.nullable = false)
    (hlead : Leads r' g f) (hq : AcceptsStep k always r' g q) :
    Accepts (k + 1) s (.seq r r') g (p.andThen q) where
  sound ls hls hstart hclean := by
    have hfirst := hq.keeps _ _ hclean
    have hread := hp.sound ls hls hstart hfirst
    have hlength := hread.length_lt hr
    exact reads_seq.2 ⟨_, hread, (hq.accepts _ hfirst).sound _ (by omega) rfl hclean⟩
  complete ls rest hls hstart hread hrest := by
    obtain ⟨mid, hfirst, hothers⟩ := reads_seq.1 hread
    have hlength := hfirst.length_lt hr
    obtain ⟨hclean, rfl⟩ :=
      hp.complete ls mid hls hstart hfirst (hlead _ rest hothers hrest)
    exact (hq.accepts _ hclean).complete _ rest (by omega) rfl hothers hrest

theorem AcceptsStep.andThen (hq : AcceptsStep (k + 1) s r f q) (hr : r.nullable = false)
    (hlead : Leads r' g f) (hq' : AcceptsStep k always r' g q') :
    AcceptsStep (k + 1) s (.seq r r') g fun left => (q left).andThen q' :=
  ⟨fun left hleft => (hq.accepts left hleft).andThen hr hlead hq',
    fun _ ls hclean => hq.keeps _ ls (hq'.keeps _ _ hclean)⟩

theorem AcceptsStep.growing (hq : AcceptsStep k test r f q) (hr : r.nullable = false)
    (hstart : ∀ ls rest, Reads r ls rest → test ls ∧ f ls)
    (hstop : ∀ ls, g ls → ¬ test ls ∧ f ls) (hn : n ≤ k) :
    AcceptsStep n always (.star r) g (growing test q n) := by
  induction n with
  | zero =>
    exact ⟨fun _ hleft => Accepts.keep_zero hleft fun _ => .star_nil, fun _ _ hclean => hclean⟩
  | succ n ih =>
    have hlead : Leads (.star r) g f :=
      .star (fun ls rest hread => (hstart ls rest hread).2) fun ls hls => (hstop ls hls).2
    have hround := (hq.mono hn).andThen hr hlead (ih (Nat.le_of_succ_le hn))
    refine (hround.optional_of (fun ls rest hread => ?_) fun ls hls => (hstop ls hls).1).congr ?_
    · obtain ⟨mid, hfirst, -⟩ := reads_seq.1 hread
      exact (hstart ls mid hfirst).1
    · intro ls rest _
      rw [reads_star]
      simp [or_comm]

end Production

end Xref
