import Xref.Proofs.Syntax.Parsing

/-!
# Bounds that are no restriction

The grammar bounds how often a production is repeated and how deep productions nest. Every round and
every level takes a lexeme, so a bound as large as the number of lexemes ahead is never reached: two
productions that differ in their bounds only do the same up to that length (`SameUpTo`), and a module
is parsed as it would be without bounds (`Grammar.items_eq`).
-/

namespace Xref

namespace Production

/-- Whether two productions do the same where at most `k` lexemes are ahead. Neither leaves more
than was there. -/
structure SameUpTo (k : Nat) (p q : Production) : Prop where
  eq : ∀ ls, ls.length ≤ k → p ls = q ls
  shrinks : ∀ ls, (p ls).2.length ≤ ls.length

/-- Whether a production takes a lexeme where the test holds and at most `k` lexemes are ahead. -/
def Eats (k : Nat) (test : Lookahead) (p : Production) : Prop :=
  ∀ ls, ls.length ≤ k → test ls → (p ls).2.length < ls.length

variable {j k m n : Nat} {p q p' q' : Production} {ps qs : List Production} {test : Lookahead}
  {kind : NodeKind} {s t : List Part → Production}

theorem Eats.mono (h : Eats k test p) (hle : j ≤ k) : Eats j test p :=
  fun ls hls => h ls (Nat.le_trans hls hle)

namespace SameUpTo

theorem refl {ok : NodeKind → Bool} (hp : Lawful ok p) : SameUpTo k p p :=
  ⟨fun _ _ => rfl, hp.length_le⟩

theorem mono (h : SameUpTo k p q) (hle : j ≤ k) : SameUpTo j p q :=
  ⟨fun ls hls => h.eq ls (Nat.le_trans hls hle), h.shrinks⟩

theorem nothing : SameUpTo k nothing nothing := ⟨fun _ _ => rfl, fun _ => Nat.le_refl _⟩

theorem absent : SameUpTo k absent absent := ⟨fun _ _ => rfl, fun _ => Nat.le_refl _⟩

theorem take : SameUpTo k take take :=
  ⟨fun _ _ => rfl, fun ls => by cases ls <;> simp [Production.take]⟩

theorem nil : SameUpTo k (sequence []) (sequence []) := nothing

theorem cons (h : SameUpTo k p q) (hs : SameUpTo k (sequence ps) (sequence qs)) :
    SameUpTo k (sequence (p :: ps)) (sequence (q :: qs)) where
  eq ls hls := by
    have hrest := hs.eq (p ls).2 (Nat.le_trans (h.shrinks ls) hls)
    rw [h.eq ls hls] at hrest
    simp only [sequence]
    rw [h.eq ls hls, hrest]
  shrinks ls := Nat.le_trans (hs.shrinks _) (h.shrinks ls)

/-- Behind the first lexeme there is one less. -/
theorem take_cons (hs : SameUpTo k (sequence ps) (sequence qs)) :
    SameUpTo (k + 1) (sequence (.take :: ps)) (sequence (.take :: qs)) where
  eq ls hls := by
    have hrest := hs.eq (Production.take ls).2 (by
      cases ls with
      | nil => exact Nat.zero_le _
      | cons l ls => exact Nat.le_of_succ_le_succ hls)
    simp only [sequence]
    rw [hrest]
  shrinks ls := Nat.le_trans (hs.shrinks _) (take.shrinks (k := k) ls)

theorem extend (left : List Part) (hs : SameUpTo k (sequence ps) (sequence qs)) :
    SameUpTo k (extend left kind ps) (extend left kind qs) where
  eq ls hls := by
    simp only [Production.extend]
    rw [hs.eq ls hls]
  shrinks := hs.shrinks

theorem node (hs : SameUpTo k (sequence ps) (sequence qs)) :
    SameUpTo k (node kind ps) (node kind qs) := hs.extend []

theorem choose (h : SameUpTo k p q) (h' : SameUpTo k p' q') :
    SameUpTo k (choose test p p') (choose test q q') where
  eq ls hls := by rw [Production.choose, Production.choose, h.eq ls hls, h'.eq ls hls]
  shrinks ls := by
    unfold Production.choose
    split
    · exact h.shrinks ls
    · exact h'.shrinks ls

theorem optional (h : SameUpTo k p q) : SameUpTo k (optional test p) (optional test q) :=
  h.choose nothing

theorem expect (h : SameUpTo k p q) : SameUpTo k (expect test p) (expect test q) :=
  h.choose absent

theorem punctuation (text : String) : SameUpTo k (punctuation text) (punctuation text) :=
  take.expect

theorem identifier : SameUpTo k identifier identifier := take.expect

theorem andThen (h : SameUpTo k p q) (hs : ∀ left, SameUpTo k (s left) (t left)) :
    SameUpTo k (p.andThen s) (q.andThen t) where
  eq ls hls := by
    have hrest := (hs (p ls).1).eq (p ls).2 (Nat.le_trans (h.shrinks ls) hls)
    rw [h.eq ls hls] at hrest
    simp only [Production.andThen]
    rw [h.eq ls hls, hrest]
  shrinks ls := Nat.le_trans ((hs _).shrinks _) (h.shrinks ls)

end SameUpTo

/-! ## Loops -/

namespace SameUpTo

/-- What comes behind a production that takes a lexeme has one less ahead. -/
theorem choose_andThen (h : SameUpTo (k + 1) p q) (heats : Eats (k + 1) test p)
    (hs : ∀ left, SameUpTo k (s left) (t left)) (h' : SameUpTo (k + 1) p' q') :
    SameUpTo (k + 1) (.choose test (p.andThen s) p') (.choose test (q.andThen t) q') where
  eq ls hls := by
    rw [Production.choose, Production.choose]
    split
    · rename_i htest
      have hlt := heats ls hls htest
      have hrest := (hs (p ls).1).eq (p ls).2 (by omega)
      rw [h.eq ls hls] at hrest
      simp only [Production.andThen]
      rw [h.eq ls hls, hrest]
    · exact h'.eq ls hls
  shrinks ls := by
    unfold Production.choose
    split
    · exact Nat.le_trans ((hs _).shrinks _) (h.shrinks ls)
    · exact h'.shrinks ls

theorem choose_cons (h : SameUpTo (k + 1) p q) (heats : Eats (k + 1) test p)
    (hs : SameUpTo k (sequence ps) (sequence qs)) :
    SameUpTo (k + 1) (.optional test (sequence (p :: ps)))
      (.optional test (sequence (q :: qs))) := by
  have hslots : ∀ left, SameUpTo k (fun ls => (left ++ (sequence ps ls).1, (sequence ps ls).2))
      fun ls => (left ++ (sequence qs ls).1, (sequence qs ls).2) := fun left =>
    ⟨fun ls hls => by simp only [hs.eq ls hls], hs.shrinks⟩
  exact h.choose_andThen heats hslots nothing

variable {α : Type} {d : Nat} {F G : Nat → α → Production}

/-- **Rounds that all take a lexeme end before the bound.** With the bound `m`, `F m` and `G m` do the
rounds, and `done` is what they do without one; each round needs more than `d` lexemes ahead. -/
theorem loop (test : Lookahead) (done : α → Production) (hshort : ∀ ls, test ls → d < ls.length)
    (hstop : ∀ m a ls, test ls = false → F m a ls = done a ls ∧ G m a ls = done a ls)
    (hshrinks : ∀ m a ls, (F m a ls).2.length ≤ ls.length)
    (hround : ∀ j m n, j < k → j ≤ m + d → j ≤ n + d → (∀ a, SameUpTo j (F m a) (G n a)) →
      ∀ a, SameUpTo (j + 1) (F (m + 1) a) (G (n + 1) a))
    (hm : k ≤ m + d) (hn : k ≤ n + d) (a : α) : SameUpTo k (F m a) (G n a) := by
  have hfew : ∀ {j m n a ls}, j ≤ d → ls.length ≤ j → F m a ls = G n a ls := by
    intro j m n a ls hj hls
    have htest : test ls = false := by
      by_contra h
      have := hshort ls (eq_true_of_ne_false h)
      omega
    exact (hstop m a ls htest).1.trans (hstop n a ls htest).2.symm
  induction k generalizing m n a with
  | zero => exact ⟨fun ls hls => hfew (Nat.zero_le _) hls, hshrinks m a⟩
  | succ k ih =>
    have hround' := fun j m n hj => hround j m n (Nat.lt_succ_of_lt hj)
    match m, n with
    | 0, n => exact ⟨fun ls hls => hfew (by omega) hls, hshrinks 0 a⟩
    | m + 1, 0 => exact ⟨fun ls hls => hfew (by omega) hls, hshrinks (m + 1) a⟩
    | m + 1, n + 1 =>
      exact hround k m n (Nat.lt_succ_self k) (by omega) (by omega)
        (fun a => ih hround' (by omega) (by omega) a) a

end SameUpTo

theorem repeated_shrinks (hp : ∀ ls, (p ls).2.length ≤ ls.length) (n : Nat) (ls : List Lexeme) :
    (repeated test p n ls).2.length ≤ ls.length := by
  induction n generalizing ls with
  | zero => exact Nat.le_refl _
  | succ n ih =>
    rw [repeated, optional, choose]
    split
    · exact Nat.le_trans (ih _) (hp ls)
    · exact Nat.le_refl _

theorem SameUpTo.repeated (h : SameUpTo k p q) (hshort : ∀ ls, test ls → 0 < ls.length)
    (heats : Eats k test p) (hm : k ≤ m) (hn : k ≤ n) :
    SameUpTo k (repeated test p m) (repeated test q n) := by
  refine loop (F := fun m _ => .repeated test p m) (G := fun n _ => .repeated test q n) test
    (fun _ => .nothing) hshort ?_ (fun m _ => repeated_shrinks h.shrinks m) ?_ hm hn ()
  · intro m _ ls hls
    cases m <;> simp [Production.repeated, Production.optional, Production.choose, hls,
      Production.nothing]
  · intro j m n hj _ _ ih _
    exact (h.mono hj).choose_cons (heats.mono hj) ((ih ()).cons nil)

theorem separated_shrinks (hp : ∀ ls, (p ls).2.length ≤ ls.length) (n : Nat)
    (ls : List Lexeme) : (separated test p n ls).2.length ≤ ls.length := by
  induction n generalizing ls with
  | zero => exact Nat.le_refl _
  | succ n ih =>
    have hmore : SameUpTo 0 (sequence [take, separated test p n])
        (sequence [take, separated test p n]) :=
      SameUpTo.take.cons (SameUpTo.cons ⟨fun _ _ => rfl, ih⟩ .nil)
    have hround : SameUpTo 0 p p := ⟨fun _ _ => rfl, hp⟩
    exact (hround.cons (hmore.optional.cons .nil)).optional.shrinks ls

theorem SameUpTo.separated (h : SameUpTo k p q) (hshort : ∀ ls, test ls → 0 < ls.length)
    (heats : Eats k test p) (hm : k ≤ m) (hn : k ≤ n) :
    SameUpTo k (separated test p m) (separated test q n) := by
  refine loop (F := fun m _ => .separated test p m) (G := fun n _ => .separated test q n) test
    (fun _ => .nothing) hshort ?_ (fun m _ => separated_shrinks h.shrinks m) ?_ hm hn ()
  · intro m _ ls hls
    cases m <;> simp [Production.separated, Production.optional, Production.choose, hls,
      Production.nothing]
  · intro j m n hj _ _ ih _
    have hmore : SameUpTo j
        (.optional (atPunctuation ",") (sequence [.take, .separated test p m]))
        (.optional (atPunctuation ",") (sequence [.take, .separated test q n])) :=
      (take.cons ((ih ()).cons nil)).optional
    exact (h.mono hj).choose_cons (heats.mono hj) (hmore.cons nil)

theorem growing_shrinks (hs : ∀ left ls, (s left ls).2.length ≤ ls.length) (n : Nat)
    (left : List Part) (ls : List Lexeme) :
    (growing test s n left ls).2.length ≤ ls.length := by
  induction n generalizing left ls with
  | zero => exact Nat.le_refl _
  | succ n ih =>
    unfold growing
    dsimp only
    split
    · exact Nat.le_trans (ih _ _) (hs left ls)
    · exact Nat.le_refl _

theorem SameUpTo.growing {d : Nat} (h : ∀ left, SameUpTo k (s left) (t left))
    (hshort : ∀ ls, test ls → d < ls.length) (heats : ∀ left, Eats k test (s left))
    (hm : k ≤ m + d) (hn : k ≤ n + d) (left : List Part) :
    SameUpTo k (growing test s m left) (growing test t n left) := by
  refine loop (F := .growing test s) (G := .growing test t) test (fun left ls => (left, ls)) hshort ?_
    (growing_shrinks fun left => (h left).shrinks) ?_ hm hn left
  · intro m left ls hls
    cases m <;> simp [Production.growing, hls]
  · intro j m n hj _ _ ih left
    have hkeep : SameUpTo (j + 1) (fun ls => (left, ls)) fun ls => (left, ls) :=
      ⟨fun _ _ => rfl, fun _ => Nat.le_refl _⟩
    exact ((h left).mono hj).choose_andThen ((heats left).mono hj) ih hkeep

/-- A node whose first slot takes a lexeme takes one. -/
theorem extend_lt {left : List Part} (hps : SameUpTo k (sequence ps) (sequence qs))
    {ls : List Lexeme} (hls : 0 < ls.length) :
    (extend left kind (take :: ps) ls).2.length < ls.length := by
  cases ls with
  | nil => cases hls
  | cons l ls => exact Nat.lt_succ_of_le (hps.shrinks ls)

/-- A test that fails at the end needs a lexeme. -/
theorem length_pos_of_test (htest : test [] = false) (ls : List Lexeme) (h : test ls) :
    0 < ls.length := by
  cases ls with
  | nil => rw [htest] at h; cases h
  | cons l ls => exact Nat.succ_pos _

end Production

/-! ## The grammar -/

namespace Grammar

open Production

variable {k m n : Nat} {inner inner' : Production}

section
variable (h : SameUpTo k inner inner') (heats : Eats k atExpression inner) (hm : k ≤ m) (hn : k ≤ n)

include h heats hm hn

theorem sameUpTo_argumentList :
    SameUpTo (k + 1) (argumentList inner m) (argumentList inner' n) := by
  have hargument : Eats k atExpression (node .positionalArgument [inner]) := heats
  have harguments := SameUpTo.separated (.node (h.cons .nil)) (length_pos_of_test rfl) hargument hm hn
  exact .node (.take_cons (harguments.cons ((SameUpTo.punctuation ")").cons .nil)))

theorem sameUpTo_operand : SameUpTo (k + 1) (operand inner m) (operand inner' n) := by
  refine .choose ?_ (.choose ?_ (.expect ?_))
  · refine (SameUpTo.refl lawful_nameReference).andThen fun name => .choose ?_ ?_
    · exact .extend name ((sameUpTo_argumentList h heats hm hn).cons .nil)
    · exact ⟨fun _ _ => rfl, fun _ => Nat.le_refl _⟩
  · exact .node (SameUpTo.take.cons .nil)
  · exact .node (.take_cons (h.cons ((SameUpTo.punctuation ")").cons .nil)))

theorem sameUpTo_member (left : List Part) :
    SameUpTo (k + 1) (member inner m left) (member inner' n left) := by
  have harguments := (sameUpTo_argumentList h heats hm hn).mono (Nat.le_succ k)
  refine .choose (.extend left ?_) (.extend left ?_)
  · exact .take_cons (SameUpTo.take.cons (harguments.cons .nil))
  · exact .take_cons (SameUpTo.take.cons .nil)

theorem eats_member (left : List Part) : Eats (k + 1) atMember (member inner m left) := by
  intro ls _ hls
  have hpos := length_pos_of_test rfl ls hls
  have harguments := sameUpTo_argumentList h heats hm hn
  unfold member choose
  split
  · exact extend_lt (SameUpTo.take.cons (harguments.cons .nil)) hpos
  · exact extend_lt (SameUpTo.take.cons (k := 0) .nil) hpos

theorem sameUpTo_memberChain :
    SameUpTo (k + 1) (memberChain inner m) (memberChain inner' n) := by
  have hshort : ∀ ls, atMember ls → 1 < ls.length := by
    intro ls hls
    match ls with
    | [] => cases hls
    | [l] => simp [atMember, both, after, atIdentifier, next] at hls
    | _ :: _ :: _ => exact Nat.succ_lt_succ (Nat.succ_pos _)
  exact (sameUpTo_operand h heats hm hn).andThen <|
    SameUpTo.growing (sameUpTo_member h heats hm hn) hshort (eats_member h heats hm hn)
      (Nat.succ_le_succ hm) (Nat.succ_le_succ hn)

end

/-! ### Signs and operators -/

theorem operand_lt (hinner : Plain inner) {ls : List Lexeme} (hls : atExpression ls)
    (hsign : ¬ atSign ls) : (operand inner m ls).2.length < ls.length := by
  have hpos := length_pos_of_test rfl ls hls
  unfold operand
  rw [choose]
  split
  · have hname : (nameReference ls).2.length < ls.length := by
      unfold nameReference choose
      split
      · exact extend_lt (SameUpTo.take.cons (SameUpTo.take.cons (k := 0) .nil)) hpos
      · exact extend_lt (SameUpTo.nil (k := 0)) hpos
    have hcall : ∀ name ls, (choose (atPunctuation "(")
        (extend name .functionCall [argumentList inner m]) (fun ls => (name, ls)) ls).2.length ≤
          ls.length := by
      intro name ls
      unfold choose
      split
      · exact ((lawful_argumentList hinner).cons .nil).length_le ls
      · exact Nat.le_refl _
    exact Nat.lt_of_le_of_lt (hcall _ _) hname
  rename_i hidentifier
  rw [choose]
  split
  · exact extend_lt (SameUpTo.nil (k := 0)) hpos
  rename_i hliteral
  have hbracket : atPunctuation "(" ls := by
    simpa [atExpression, either, hidentifier, hliteral, hsign] using hls
  rw [expect, choose, if_pos hbracket]
  exact extend_lt (SameUpTo.refl (k := 0) (hinner.cons ((Lawful.punctuation ")").cons .nil))) hpos

theorem member_shrinks (hinner : Plain inner) (left : List Part) (ls : List Lexeme) :
    (member inner m left ls).2.length ≤ ls.length := by
  have hfield : Plain (sequence [take, take]) := Lawful.take.cons (Lawful.take.cons .nil)
  have hmethod : Plain (sequence [take, take, argumentList inner m]) :=
    Lawful.take.cons (Lawful.take.cons ((lawful_argumentList hinner).cons .nil))
  unfold member choose
  split
  · exact hmethod.length_le ls
  · exact hfield.length_le ls

theorem signed_lt (hinner : Plain inner) {ls : List Lexeme} (hls : atExpression ls) :
    (signed inner m (n + 1) ls).2.length < ls.length := by
  have hpos := length_pos_of_test rfl ls hls
  rw [signed, choose]
  split
  · have hnext := (lawful_signed hinner n (n := m)).expect blind_atExpression
    exact extend_lt (SameUpTo.refl (k := 0) (hnext.cons .nil)) hpos
  · rename_i hsign
    exact Nat.lt_of_le_of_lt (growing_shrinks (member_shrinks hinner) m _ _)
      (operand_lt hinner hls hsign)

theorem sameUpTo_signed (hinner : Plain inner)
    (hchain : SameUpTo k (memberChain inner m) (memberChain inner' n)) {i j : Nat} (hi : k ≤ i)
    (hj : k ≤ j) : SameUpTo k (signed inner m i) (signed inner' n j) := by
  refine .loop (F := fun i _ => signed inner m i) (G := fun j _ => signed inner' n j) (d := 0)
    (fun ls => !ls.isEmpty) (fun _ => memberChain inner m)
    (length_pos_of_test rfl) ?_ (fun i _ => (lawful_signed hinner i).length_le) ?_ hi hj ()
  · intro i _ ls hls
    obtain rfl : ls = [] := by simpa using hls
    have hend : ∀ inner m i, signed inner m i [] = memberChain inner m [] := fun inner m i => by
      cases i <;> rfl
    exact ⟨hend _ _ _, (hend _ _ _).trans (hchain.eq [] (Nat.zero_le _)).symm⟩
  · intro a i j ha _ _ ih _
    exact .choose (.node (.take_cons ((ih ()).expect.cons .nil))) (hchain.mono ha)

theorem expressionAbove_lt {least : Nat} {ls : List Lexeme} (hls : atExpression ls) :
    (expressionAbove (n + 1) least ls).2.length < ls.length := by
  rw [expressionAbove, expect, choose, if_pos hls]
  refine Nat.lt_of_le_of_lt (growing_shrinks (fun left ls => ?_) n _ _)
    (signed_lt (lawful_expressionAbove n 0) hls)
  exact (Lawful.take.cons ((lawful_expressionAbove n _).cons .nil)).length_le ls

theorem eats_expressionAbove {least : Nat} (h : k ≤ n) :
    Eats k atExpression (expressionAbove n least) := by
  intro ls hk hls
  have hpos := length_pos_of_test rfl ls hls
  obtain ⟨n, rfl⟩ := Nat.exists_eq_add_of_le' (Nat.lt_of_lt_of_le hpos (Nat.le_trans hk h))
  exact expressionAbove_lt hls

theorem sameUpTo_expressionAbove (hm : k ≤ m) (hn : k ≤ n) (least : Nat) :
    SameUpTo k (expressionAbove m least) (expressionAbove n least) := by
  refine .loop (F := expressionAbove) (G := expressionAbove) (d := 0) (fun ls => !ls.isEmpty)
    (fun _ => absent) (length_pos_of_test rfl) ?_
    (fun m least => (lawful_expressionAbove m least).length_le) ?_ hm hn least
  · intro m least ls hls
    obtain rfl : ls = [] := by simpa using hls
    cases m <;> exact ⟨rfl, rfl⟩
  · intro j m n _ hm hn ih least
    have hinner := lawful_expressionAbove m 0
    have hchain := sameUpTo_memberChain (ih 0) (eats_expressionAbove hm) hm hn
    have hsigned := sameUpTo_signed hinner hchain (Nat.succ_le_succ hm) (Nat.succ_le_succ hn)
    have hstep : ∀ left, SameUpTo j
        (fun ls => extend left .binaryExpression
          [take, expressionAbove m (nextStrength ls + 1)] ls)
        fun ls => extend left .binaryExpression
          [take, expressionAbove n (nextStrength ls + 1)] ls := fun left =>
      ⟨fun ls hls => (SameUpTo.extend left (SameUpTo.take.cons ((ih _).cons .nil))).eq ls hls,
        fun ls => (SameUpTo.take.cons ((ih _).cons .nil)).shrinks ls⟩
    refine hsigned.choose_andThen (fun ls _ hls => signed_lt hinner hls) ?_ .absent
    refine SameUpTo.growing hstep (length_pos_of_test rfl) (fun left ls _ hls => ?_) hm hn
    exact extend_lt ((ih _).cons .nil) (length_pos_of_test rfl ls hls)

theorem sameUpTo_expression (hm : k ≤ m) (hn : k ≤ n) :
    SameUpTo k (expression m) (expression n) := sameUpTo_expressionAbove hm hn 0

/-! ### Types -/

theorem sameUpTo_typeDescriptor (hm : k ≤ m) (hn : k ≤ n) :
    SameUpTo k (typeDescriptor m) (typeDescriptor n) := by
  refine .loop (F := fun m _ => typeDescriptor m) (G := fun n _ => typeDescriptor n) (d := 0)
    (fun ls => !ls.isEmpty) (fun _ => absent) (length_pos_of_test rfl) ?_
    (fun m _ => (lawful_typeDescriptor m).length_le) ?_ hm hn ()
  · intro m _ ls hls
    obtain rfl : ls = [] := by simpa using hls
    cases m <;> exact ⟨rfl, rfl⟩
  · intro j m n _ hm hn ih _
    have hrest := (SameUpTo.punctuation ":").cons ((ih ()).cons ((SameUpTo.punctuation ";").cons .nil))
    have heats : Eats j atIdentifier
        (node .recordField [take, punctuation ":", typeDescriptor m, punctuation ";"]) :=
      fun ls _ hls => extend_lt hrest (length_pos_of_test rfl ls hls)
    have hfields := SameUpTo.repeated (.node (SameUpTo.take.cons hrest)) (length_pos_of_test rfl)
      heats hm hn
    refine .choose (.node (.take_cons ?_)) (.refl lawful_typeReference)
    exact (SameUpTo.punctuation openBrace).cons <|
      hfields.cons ((SameUpTo.punctuation closeBrace).cons .nil)

/-! ### Statements -/

theorem sameUpTo_variableDeclaration {kind : NodeKind} (hm : k ≤ m) (hn : k ≤ n) :
    SameUpTo (k + 1) (variableDeclaration kind m) (variableDeclaration kind n) := by
  have htype := SameUpTo.take.cons ((sameUpTo_typeDescriptor hm hn).cons .nil)
  have hvalue := SameUpTo.take.cons ((sameUpTo_expression hm hn).cons .nil)
  exact .node (.take_cons <| SameUpTo.identifier.cons <| htype.optional.cons <|
    hvalue.optional.cons ((SameUpTo.punctuation ";").cons .nil))

theorem sameUpTo_block (kind : NodeKind) {p q : Production} (h : SameUpTo k p q)
    (heats : Eats k insideBlock p) (hm : k ≤ m) (hn : k ≤ n) :
    SameUpTo (k + 1) (block kind p m) (block kind q n) := by
  have hstatements := h.repeated (length_pos_of_test rfl) heats hm hn
  exact .node (.take_cons (hstatements.cons ((SameUpTo.punctuation closeBrace).cons .nil)))

theorem sameUpTo_expressionStatement (hm : k ≤ m) (hn : k ≤ n) :
    SameUpTo k (expressionStatement m) (expressionStatement n) := by
  have hvalue := (sameUpTo_expression hm hn).cons ((SameUpTo.punctuation ";").cons .nil)
  refine (sameUpTo_expression hm hn).andThen fun left => .choose (.extend left ?_) (.extend left ?_)
  · exact SameUpTo.take.cons hvalue
  · exact (SameUpTo.punctuation ";").cons .nil

theorem expressionStatement_lt {ls : List Lexeme} (hls : atExpression ls) :
    (expressionStatement (n + 1) ls).2.length < ls.length := by
  have hlt : (expression (n + 1) ls).2.length < ls.length := expressionAbove_lt hls
  refine Nat.lt_of_le_of_lt ?_ hlt
  have hrest : ∀ (left : List Part), SameUpTo 0
      (choose (atPunctuation "=")
        (extend left .assignmentStatement [take, expression (n + 1), punctuation ";"])
        (extend left .expressionStatement [punctuation ";"]))
      (choose (atPunctuation "=")
        (extend left .assignmentStatement [take, expression (n + 1), punctuation ";"])
        (extend left .expressionStatement [punctuation ";"])) := fun left =>
    .choose (.extend left (.refl (Lawful.take.cons
      ((lawful_expression (n + 1)).cons ((Lawful.punctuation ";").cons .nil)))))
      (.extend left ((SameUpTo.punctuation ";").cons .nil))
  exact (hrest _).shrinks _

/-- A statement makes a node with the next lexeme in it, or it starts with an expression. -/
theorem statement_cons (n : Nat) (l : Lexeme) (ls : List Lexeme) :
    (∃ kind more, (statement n (l :: ls)).1 = [.node ⟨kind, .token l :: more⟩]) ∨
      ∃ m, n = m + 1 ∧ atExpression (l :: ls) ∧
        statement n (l :: ls) = expressionStatement n (l :: ls) := by
  cases n with
  | zero => exact .inl ⟨_, _, rfl⟩
  | succ n =>
    unfold statement choose
    dsimp only
    split
    · exact .inl ⟨_, _, rfl⟩
    split
    · exact .inl ⟨_, _, rfl⟩
    split
    · exact .inl ⟨_, _, rfl⟩
    split
    · exact .inl ⟨_, _, rfl⟩
    split
    · exact .inl ⟨_, _, rfl⟩
    split
    · exact .inr ⟨n, rfl, ‹_›, rfl⟩
    · exact .inl ⟨_, _, rfl⟩

theorem statement_lt (n : Nat) {ls : List Lexeme} (hls : 0 < ls.length) :
    (statement n ls).2.length < ls.length := by
  cases ls with
  | nil => cases hls
  | cons l ls =>
    obtain ⟨kind, more, h⟩ | ⟨m, rfl, hexpression, h⟩ := statement_cons n l ls
    · exact (lawful_statement n).length_lt h
    · rw [h]
      exact expressionStatement_lt hexpression

theorem sameUpTo_statement (hm : k ≤ m) (hn : k ≤ n) :
    SameUpTo k (statement m) (statement n) := by
  refine .loop (F := fun m _ => statement m) (G := fun n _ => statement n) (d := 0)
    (fun ls => !ls.isEmpty) (fun _ => invalid) (length_pos_of_test rfl) ?_
    (fun m _ => (lawful_statement m).length_le) ?_ hm hn ()
  · intro m _ ls hls
    obtain rfl : ls = [] := by simpa using hls
    cases m <;> exact ⟨rfl, rfl⟩
  · intro j m n _ hm hn ih _
    have heats : Eats j insideBlock (statement m) := fun ls _ hls =>
      statement_lt m (length_pos_of_test rfl ls hls)
    have hnested := sameUpTo_block .blockStatement (ih ()) heats hm hn
    have hbody : SameUpTo j
        (expect (atPunctuation openBrace) (block .blockStatement (statement m) m))
        (expect (atPunctuation openBrace) (block .blockStatement (statement n) n)) :=
      (hnested.mono (Nat.le_succ j)).expect
    have hexpression := sameUpTo_expression hm hn
    have hend := (SameUpTo.punctuation (k := j) ";").cons .nil
    refine .choose (sameUpTo_variableDeclaration hm hn) (.choose (.node (.take_cons ?_)) ?_)
    · exact hexpression.optional.cons hend
    refine .choose (.node (.take_cons ?_)) ?_
    · exact hexpression.cons <| hbody.cons <| SameUpTo.cons (.optional (.node
        (SameUpTo.take.cons (((ih ()).choose hbody).cons .nil)))) .nil
    refine .choose (.node (.take_cons (hexpression.cons (hbody.cons .nil)))) (.choose hnested ?_)
    refine .choose ?_ (.refl (Lawful.invalid (by decide) : Statement invalid))
    exact sameUpTo_expressionStatement (Nat.succ_le_succ hm) (Nat.succ_le_succ hn)

/-! ### Items -/

theorem sameUpTo_parameterList (hm : k ≤ m) (hn : k ≤ n) :
    SameUpTo k (parameterList m) (parameterList n) := by
  have hrest := (SameUpTo.punctuation ":").cons ((sameUpTo_typeDescriptor hm hn).cons .nil)
  have heats : Eats k atIdentifier
      (node .requiredParameter [take, punctuation ":", typeDescriptor m]) :=
    fun ls _ hls => extend_lt hrest (length_pos_of_test rfl ls hls)
  have hparameters := SameUpTo.separated (.node (SameUpTo.take.cons hrest))
    (length_pos_of_test rfl) heats hm hn
  exact .expect (.node (SameUpTo.take.cons
    (hparameters.cons ((SameUpTo.punctuation ")").cons .nil))))

theorem sameUpTo_functionDefinition (hm : k ≤ m) (hn : k ≤ n) :
    SameUpTo k (functionDefinition m) (functionDefinition n) := by
  have hresult := SameUpTo.take.cons ((sameUpTo_typeDescriptor hm hn).cons .nil)
  have heats : Eats k insideBlock (statement m) := fun ls _ hls =>
    statement_lt m (length_pos_of_test rfl ls hls)
  have hbody := (sameUpTo_block .functionBody (sameUpTo_statement hm hn) heats hm hn).mono
    (Nat.le_succ k)
  exact .node <| SameUpTo.take.cons <| SameUpTo.identifier.cons <|
    (sameUpTo_parameterList hm hn).cons <|
      SameUpTo.cons (.optional (.node hresult)) <| hbody.expect.cons .nil

theorem sameUpTo_item (hm : k ≤ m) (hn : k ≤ n) : SameUpTo k (item m) (item n) := by
  have himport : Outer (node .importDeclaration [take, identifier, punctuation ";"]) :=
    .node (by decide) rfl <|
      Lawful.take.cons (Lawful.identifier.cons ((Lawful.punctuation ";").cons .nil))
  have htype := (SameUpTo.punctuation "=").cons <|
    (sameUpTo_typeDescriptor hm hn).cons ((SameUpTo.punctuation ";").cons .nil)
  refine .choose (.refl himport) (.choose (sameUpTo_functionDefinition hm hn) ?_)
  refine .choose (.node (SameUpTo.take.cons (SameUpTo.identifier.cons htype))) ?_
  refine .choose ((sameUpTo_variableDeclaration hm hn).mono (Nat.le_succ k)) ?_
  exact .refl (Lawful.invalid (by decide) : Outer invalid)

/-- **The bound on the items of a module is no restriction.** -/
theorem items_eq {ls : List Lexeme} (h : ls.length ≤ n) : items n ls = items ls.length ls := by
  have heats : Eats ls.length (fun ls => !ls.isEmpty) (item n) := by
    intro ls _ hls
    cases ls with
    | nil => cases hls
    | cons l ls => exact item_length_lt n l ls
  have hitems := (sameUpTo_item h (Nat.le_refl _)).repeated (length_pos_of_test rfl) heats h
    (Nat.le_refl _)
  exact hitems.eq ls (Nat.le_refl _)

end Grammar

end Xref
