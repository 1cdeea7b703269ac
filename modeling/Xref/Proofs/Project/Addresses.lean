import Mathlib.Data.List.TakeWhile
import Xref.Proofs.Text.Bytes
import Xref.Project.Layout
import Xref.Workspace

/-!
# Addresses of units

The URI of an absolute path leads back to the steps of the path (`Uri.toFile?_ofFile?`). A
well-named unit is found again from its path (`unitAt?_of_components`) and its URI
(`UnitId.toFile?_uri`), so different units have different addresses.
-/

namespace Xref

open PathComponent

/-! ## Names -/

/-- Whether a name is one step of a path. -/
def IsComponent (name : String) : Prop :=
  name ≠ "" ∧ name ≠ "." ∧ name ≠ ".." ∧ '/' ∉ name.toList

instance (name : String) : Decidable (IsComponent name) := by unfold IsComponent; infer_instance

/-- Whether a name is one step of a path and holds no colon. -/
def IsStep (name : String) : Prop :=
  name ≠ "" ∧ name ≠ "." ∧ name ≠ ".." ∧ '/' ∉ name.toList ∧ ':' ∉ name.toList

instance (name : String) : Decidable (IsStep name) := by unfold IsStep; infer_instance

theorem IsStep.isComponent {name : String} (h : IsStep name) : IsComponent name :=
  ⟨h.1, h.2.1, h.2.2.1, h.2.2.2.1⟩

/-- Whether the names of a unit and of its module are steps of a path. The module without a name
counts as well; the words `module` and `lang` are no modules. -/
def UnitId.WellNamed (u : UnitId) : Prop :=
  (u.module = .current ∨ IsStep u.module.name) ∧ IsStep u.unit ∧
    u.module.name ≠ "module" ∧ u.module ≠ .language

instance (u : UnitId) : Decidable u.WellNamed := by unfold UnitId.WellNamed; infer_instance

/-! ## Paths and their steps -/

namespace FilePath

theorem splitSlashes_ne_nil (bs : List UInt8) : splitSlashes bs ≠ [] := by
  induction bs with
  | nil => simp [splitSlashes]
  | cons b bs _ =>
    simp only [splitSlashes, List.foldr_cons]
    split
    · simp
    · split <;> simp

theorem splitSlashes_cons {b : UInt8} {bs part : List UInt8} {rest : List (List UInt8)}
    (hb : b ≠ slash) (h : splitSlashes bs = part :: rest) :
    splitSlashes (b :: bs) = (b :: part) :: rest := by
  rw [splitSlashes] at h ⊢
  rw [List.foldr_cons, if_neg hb, h]

/-- A slash divides the parts of a path. -/
theorem splitSlashes_append_slash (as bs : List UInt8) :
    splitSlashes (as ++ slash :: bs) = splitSlashes as ++ splitSlashes bs := by
  induction as with
  | nil => rfl
  | cons a as ih =>
    by_cases ha : a = slash
    · subst ha
      show [] :: splitSlashes (as ++ slash :: bs) = [] :: splitSlashes as ++ splitSlashes bs
      rw [ih, List.cons_append]
    · obtain ⟨part, rest, h⟩ := List.exists_cons_of_ne_nil (splitSlashes_ne_nil as)
      rw [h, List.cons_append] at ih
      rw [List.cons_append, splitSlashes_cons ha ih, splitSlashes_cons ha h, List.cons_append]

theorem splitSlashes_part {as : List UInt8} (h : slash ∉ as) : splitSlashes as = [as] := by
  induction as with
  | nil => rfl
  | cons a as ih =>
    rw [List.mem_cons, not_or] at h
    exact splitSlashes_cons (Ne.symm h.1) (ih h.2)

/-- The steps of a path that starts at the root. -/
theorem components_absolute {bs : List UInt8} :
    (FilePath.mk (slash :: bs)).components = root :: (splitSlashes bs).filterMap ofPart? := rfl

/-- A path that is continued after a slash. -/
theorem components_append_slash {as : List UInt8} (has : as ≠ []) (bs : List UInt8) :
    (FilePath.mk (as ++ slash :: bs)).components =
      (FilePath.mk as).components ++ (splitSlashes bs).filterMap ofPart? := by
  have habsolute : (FilePath.mk (as ++ slash :: bs)).isAbsolute = (FilePath.mk as).isAbsolute := by
    rw [isAbsolute, isAbsolute, List.head?_append_of_ne_nil _ has]
  unfold components
  dsimp only
  rw [habsolute, splitSlashes_append_slash, List.filterMap_append,
    List.head?_append_of_ne_nil _ (splitSlashes_ne_nil as), List.append_assoc]

end FilePath

/-- Whether a step is what its bytes read as between slashes. -/
structure PathComponent.Proper (step : PathComponent) : Prop where
  part : ofPart? step.bytes = some step
  plain : slash ∉ step.bytes

namespace FilePath

theorem slash_not_mem_part {bs part : List UInt8} (h : part ∈ splitSlashes bs) : slash ∉ part := by
  induction bs generalizing part with
  | nil =>
    cases List.mem_singleton.1 h
    exact List.not_mem_nil
  | cons b bs ih =>
    by_cases hb : b = slash
    · subst hb
      rcases List.mem_cons.1 (show part ∈ [] :: splitSlashes bs from h) with rfl | h
      · exact List.not_mem_nil
      · exact ih h
    · obtain ⟨first, rest, hparts⟩ := List.exists_cons_of_ne_nil (splitSlashes_ne_nil bs)
      rw [splitSlashes_cons hb hparts] at h
      rw [hparts] at ih
      rcases List.mem_cons.1 h with rfl | h
      · rw [List.mem_cons, not_or]
        exact ⟨Ne.symm hb, ih List.mem_cons_self⟩
      · exact ih (List.mem_cons_of_mem _ h)

theorem bytes_of_ofPart? {part : List UInt8} {step : PathComponent} (h : ofPart? part = some step) :
    step.bytes = part := by
  unfold ofPart? at h
  split at h
  · cases h
  · split at h
    · cases h
    · split at h
      · rename_i heq
        cases h
        exact heq.symm
      · cases h
        rfl

/-- The steps between slashes are what their bytes read as. -/
theorem proper_of_mem_filterMap {bs : List UInt8} {step : PathComponent}
    (h : step ∈ (splitSlashes bs).filterMap ofPart?) : step.Proper := by
  obtain ⟨part, hpart, hstep⟩ := List.mem_filterMap.1 h
  have hbytes := bytes_of_ofPart? hstep
  exact ⟨hbytes ▸ hstep, hbytes ▸ slash_not_mem_part hpart⟩

/-- The names among the steps of a path are what their bytes read as. -/
theorem proper_of_mem_components {p : FilePath} {bs : List UInt8} (h : name bs ∈ p.components) :
    (name bs).Proper := by
  rw [components, List.mem_append] at h
  refine h.elim (fun h => ?_) proper_of_mem_filterMap
  split_ifs at h
  · cases List.mem_singleton.1 h
  · cases List.mem_singleton.1 h
  · cases h

theorem filterMap_ofPart?_proper {step : PathComponent} (h : step.Proper) :
    (splitSlashes step.bytes).filterMap ofPart? = [step] := by
  rw [splitSlashes_part h.plain, List.filterMap_cons, h.part]
  rfl

/-- Steps are read back from their bytes with a slash before each. -/
theorem filterMap_splitSlashes {step : PathComponent} {steps : List PathComponent}
    (hstep : step.Proper) (h : ∀ s ∈ steps, s.Proper) :
    (splitSlashes (step.bytes ++ steps.flatMap fun s => slash :: s.bytes)).filterMap ofPart? =
      step :: steps := by
  induction steps generalizing step with
  | nil => rw [List.flatMap_nil, List.append_nil, filterMap_ofPart?_proper hstep]
  | cons s steps ih =>
    rw [List.forall_mem_cons] at h
    rw [List.flatMap_cons, List.cons_append, splitSlashes_append_slash, List.filterMap_append,
      filterMap_ofPart?_proper hstep, ih h.1 h.2]
    rfl

theorem isAbsolute_iff {p : FilePath} : p.isAbsolute ↔ ∃ bs, p.bytes = slash :: bs := by
  rw [isAbsolute, beq_iff_eq, List.head?_eq_some_iff]

theorem isAbsolute_join {p : FilePath} (h : p.isAbsolute) (q : FilePath) :
    (p.join q).isAbsolute := by
  obtain ⟨bs, hbs⟩ := isAbsolute_iff.1 h
  unfold join
  split
  · assumption
  · split
    · exact isAbsolute_iff.2 ⟨bs ++ q.bytes, by rw [hbs]; rfl⟩
    · exact isAbsolute_iff.2 ⟨bs ++ slash :: q.bytes, by rw [hbs]; rfl⟩

end FilePath

/-- Below an absolute root every unit has an absolute path. -/
theorem Layout.isAbsolute_pathOf {l : Layout} (h : l.root.isAbsolute) (u : UnitId) :
    (l.pathOf u).isAbsolute := by
  unfold pathOf
  split
  · exact FilePath.isAbsolute_join h _
  · exact FilePath.isAbsolute_join (FilePath.isAbsolute_join (FilePath.isAbsolute_join h _) _) _

theorem ofNat_ne_slash {n : Nat} (h : 0x80 ≤ n) (hn : n < 0x100) : slash ≠ UInt8.ofNat n := by
  intro heq
  have hnat := congrArg UInt8.toNat heq
  rw [UInt8.toNat_ofNat_of_lt' (by unfold UInt8.size; omega)] at hnat
  have : slash.toNat = 0x2F := rfl
  omega

/-- The byte of a slash is no part of another character. -/
theorem eq_slash_of_mem_utf8EncodeChar {c : Char} (h : slash ∈ String.utf8EncodeChar c) :
    c = '/' := by
  have hc : Char.ofNat c.val.toNat = c := Char.ofNat_toNat c
  unfold String.utf8EncodeChar at h
  dsimp only at h
  generalize c.val.toNat = n at h hc
  split_ifs at h with h₁ h₂ h₃
  · have hnat := congrArg UInt8.toNat (List.mem_singleton.1 h)
    rw [UInt8.toNat_ofNat_of_lt' (by unfold UInt8.size; omega)] at hnat
    rw [← hc, ← hnat]
    rfl
  all_goals
    simp only [List.mem_cons, List.not_mem_nil, or_false] at h
    exfalso
  · rcases h with h | h <;> exact ofNat_ne_slash (by omega) (by omega) h
  · rcases h with h | h | h <;> exact ofNat_ne_slash (by omega) (by omega) h
  · rcases h with h | h | h | h <;> exact ofNat_ne_slash (by omega) (by omega) h

theorem slash_not_mem_encode {cs : List Char} (h : '/' ∉ cs) : slash ∉ Text.encode cs := by
  intro hmem
  obtain ⟨c, hc, hslash⟩ := List.mem_flatMap.1 hmem
  exact h (eq_slash_of_mem_utf8EncodeChar hslash ▸ hc)

/-- The step that a name is. -/
def stepOf (name : String) : PathComponent := .name (Text.encode name.toList)

theorem text?_stepOf (name : String) : (stepOf name).text? = some name := by
  rw [stepOf, text?, Text.decode?_encode, String.ofList_toList]

theorem eq_stepOf_of_text? {step : PathComponent} {name : String} (h : step.text? = some name) :
    step = stepOf name := by
  cases step with
  | name bs => rw [stepOf, Text.encode_of_decode? h]
  | root | current | parent => cases h

/-- A step by its name is what its bytes read as. -/
theorem IsComponent.proper {name : String} (h : IsComponent name) : (stepOf name).Proper := by
  obtain ⟨hne, hdot, hdots, hslash⟩ := h
  have hencode : ∀ {other : String}, name ≠ other →
      Text.encode name.toList ≠ Text.encode other.toList := fun hne heq =>
    hne (String.toList_injective (Text.encode_injective heq))
  refine ⟨?_, slash_not_mem_encode hslash⟩
  unfold ofPart? stepOf PathComponent.bytes
  split
  · rename_i heq
    exact absurd heq (hencode hne)
  · have hone : Text.encode ".".toList = [dot] := by decide
    have htwo : Text.encode "..".toList = [dot, dot] := by decide
    rw [← htwo, ← hone, if_neg (hencode hdot), if_neg (hencode hdots)]

/-- The path that is a step. -/
theorem PathComponent.Proper.components {bs : List UInt8} (h : (name bs).Proper) :
    (FilePath.mk bs).isAbsolute = false ∧ (FilePath.mk bs).components = [name bs] := by
  have hplain : slash ∉ bs := h.plain
  have habsolute : (FilePath.mk bs).isAbsolute = false := by
    rw [Bool.eq_false_iff]
    intro habsolute
    exact hplain (List.mem_of_head? (beq_iff_eq.1 habsolute))
  have hdot : bs ≠ [dot] := by
    rintro rfl
    exact absurd h.part (by decide)
  refine ⟨habsolute, ?_⟩
  rw [FilePath.components, habsolute, FilePath.splitSlashes_part hplain]
  simp only [Bool.false_eq_true, if_false, List.head?_cons, Option.some.injEq, hdot, List.nil_append]
  exact List.filterMap_cons_some h.part

/-- **A path is joined with a step by adding it at the end.** -/
theorem FilePath.components_join (p : FilePath) {name : String} (h : (stepOf name).Proper) :
    (p.join (.ofText name)).components = p.components ++ [stepOf name] := by
  obtain ⟨habsolute, hone⟩ := h.components
  have hstep : (splitSlashes (Text.encode name.toList)).filterMap ofPart? = [stepOf name] :=
    filterMap_ofPart?_proper h
  obtain ⟨bs⟩ := p
  have hnot : (FilePath.ofText name).isAbsolute = false := habsolute
  rw [join, if_neg (ne_true_of_eq_false hnot)]
  dsimp only [ofText]
  rcases List.eq_nil_or_concat bs with rfl | ⟨as, b, rfl⟩
  · rw [if_pos (.inl rfl)]
    exact hone
  · have hne : as.concat b ≠ [] := by simp
    by_cases hb : b = slash
    · subst hb
      have hlast : (as.concat slash).getLast? = some slash := by simp
      have hslash : (FilePath.mk [slash]).components = [root] := by decide
      rw [if_pos (.inr hlast), List.concat_append, List.concat_eq_append]
      -- The path ends in a slash. It is either the root or continues what is before the slash.
      rcases List.eq_nil_or_concat as with rfl | ⟨cs, c, rfl⟩
      · rw [List.nil_append, List.nil_append, components_absolute, hstep, hslash]
        rfl
      · have hcs : cs.concat c ≠ [] := by simp
        rw [components_append_slash hcs, components_append_slash hcs, hstep]
        simp [splitSlashes, ofPart?]
    · have hlast : (as.concat b).getLast? ≠ some slash := by simpa using hb
      rw [if_neg (not_or.2 ⟨hne, hlast⟩), components_append_slash hne, hstep]

/-! ## Paths of units -/

namespace Layout

/-- The steps to a unit from the root of a layout. -/
def steps (l : Layout) (u : UnitId) : List PathComponent :=
  (if u.module.isCurrent then [] else [stepOf l.modulesDir, stepOf u.module.name]) ++ [stepOf u.unit]

variable {l : Layout} {u : UnitId} {p : FilePath}

theorem components_pathOf_of_proper (hunit : (stepOf u.unit).Proper)
    (hmodule : u.module.isCurrent = false →
      (stepOf l.modulesDir).Proper ∧ (stepOf u.module.name).Proper) :
    (l.pathOf u).components = l.root.components ++ l.steps u := by
  rw [Layout.pathOf, Layout.steps]
  split_ifs with hcurrent
  · rw [FilePath.components_join _ hunit]
    rfl
  · obtain ⟨hdir, hname⟩ := hmodule (Bool.eq_false_iff.2 hcurrent)
    rw [FilePath.components_join _ hunit, FilePath.components_join _ hname,
      FilePath.components_join _ hdir, List.append_assoc, List.append_assoc]
    rfl

theorem text?_steps (l : Layout) (u : UnitId) : (l.steps u).mapM text? =
    some ((if u.module.isCurrent then [] else [l.modulesDir, u.module.name]) ++ [u.unit]) := by
  rw [steps]
  split_ifs <;> simp [List.mapM_cons, text?_stepOf]

/-- A path with the steps of a unit leads back to the unit. -/
theorem unitAt?_of_components (hp : p.components = l.root.components ++ l.steps u) :
    l.unitAt? p = some u := by
  have hsteps : p.stepsFrom? l.root = some (l.steps u) := by
    rw [FilePath.stepsFrom?, hp, if_pos (by simp), List.drop_left]
  rw [Layout.unitAt?, hsteps, Option.bind_some, text?_steps]
  split_ifs with hcurrent
  · have hcurrent : u.module = .current := by simpa [ModuleId.isCurrent] using hcurrent
    rw [List.nil_append, ← hcurrent]
  · exact if_pos rfl

end Layout

/-- The steps to a unit. -/
def UnitId.steps (u : UnitId) : List PathComponent :=
  root :: stepOf "workspace" ::
    ((if u.module.isCurrent then [] else [stepOf "src", stepOf u.module.name]) ++ [stepOf u.unit])

open Workspace (usualLayout)

theorem components_root : (usualLayout.root).components = [root, stepOf "workspace"] := by decide

theorem steps_eq (u : UnitId) : u.steps = usualLayout.root.components ++ usualLayout.steps u := by
  rw [components_root]
  rfl

theorem isAbsolute_pathOf (u : UnitId) : (usualLayout.pathOf u).isAbsolute :=
  Layout.isAbsolute_pathOf (by decide) u

/-- **The path of a unit has the steps of the unit.** -/
theorem components_pathOf {u : UnitId} (h : u.WellNamed) :
    (usualLayout.pathOf u).components = u.steps := by
  obtain ⟨hmodule, hunit, -⟩ := h
  have hdir : IsComponent usualLayout.modulesDir := by decide
  rw [steps_eq]
  refine Layout.components_pathOf_of_proper hunit.isComponent.proper fun hcurrent =>
    ⟨hdir.proper, (hmodule.resolve_left fun heq => ?_).isComponent.proper⟩
  rw [heq] at hcurrent
  cases hcurrent

/-- A path with the steps of a unit leads back to the unit. -/
theorem unitAt?_of_components {u : UnitId} {p : FilePath} (hp : p.components = u.steps) :
    usualLayout.unitAt? p = some u :=
  Layout.unitAt?_of_components (hp.trans (steps_eq u))

theorem steps_injective {u v : UnitId} (hu : u.WellNamed)
    (h : u.steps = v.steps) : u = v := by
  have hpath := components_pathOf hu
  have hback := unitAt?_of_components (hpath.trans h)
  rw [unitAt?_of_components hpath] at hback
  exact Option.some.inj hback

/-! ## URIs -/

namespace Uri

/-- Every byte is read back from the characters that stand for it, none of which ends a path. -/
theorem escapeByte_spec (b : UInt8) :
    (∀ c ∈ escapeByte b, !endsPath c) ∧
      (Text.encode (escapeByte b) = [b] ∧ b ≠ 0x25 ∨
        ∃ x y, Text.encode (escapeByte b) = [0x25, x, y] ∧ digits? [x, y] = some b) := by
  have hall : ∀ n : Fin 256, (escapeByte (UInt8.ofNat n)).all (!endsPath ·) ∧
      (Text.encode (escapeByte (UInt8.ofNat n)) = [UInt8.ofNat n] ∧ UInt8.ofNat n ≠ 0x25 ∨
        ∃ x ∈ Text.encode (escapeByte (UInt8.ofNat n)),
          ∃ y ∈ Text.encode (escapeByte (UInt8.ofNat n)),
            Text.encode (escapeByte (UInt8.ofNat n)) = [0x25, x, y] ∧
              digits? [x, y] = some (UInt8.ofNat n)) := by
    decide +kernel
  obtain ⟨hchars, hbytes⟩ := hall ⟨b.toNat, b.toNat_lt⟩
  rw [UInt8.ofNat_toNat] at hchars hbytes
  refine ⟨List.all_eq_true.1 hchars, ?_⟩
  rcases hbytes with hplain | ⟨x, -, y, -, hescaped⟩
  · exact .inl hplain
  · exact .inr ⟨x, y, hescaped⟩

theorem unescape_escapeByte (b : UInt8) (rest : List UInt8) :
    unescape (Text.encode (escapeByte b) ++ rest) = b :: unescape rest := by
  rcases (escapeByte_spec b).2 with ⟨h, hb⟩ | ⟨x, y, h, hdigits⟩
  · rw [h, List.singleton_append, unescape, if_neg hb]
  · have hdigits' : digits? (x :: y :: rest) = some b := hdigits
    rw [h, List.cons_append, unescape, if_pos rfl, List.cons_append, List.singleton_append,
      hdigits']
    rfl

theorem unescape_escape (bs rest : List UInt8) :
    unescape (Text.encode (escape bs) ++ rest) = bs ++ unescape rest := by
  induction bs with
  | nil => rfl
  | cons b bs ih =>
    rw [escape, List.flatMap_cons, Text.encode_append, List.append_assoc, unescape_escapeByte]
    exact congrArg (b :: ·) ih

theorem unescape_slash (rest : List UInt8) :
    unescape (Text.encode ['/'] ++ rest) = slash :: unescape rest := by
  have : Text.encode ['/'] = [slash] := by decide
  rw [this, List.singleton_append, unescape, if_neg (by decide)]

/-- The characters of a path in a URI. -/
def pathChars (steps : List PathComponent) : List Char :=
  steps.flatMap fun step => '/' :: escape step.bytes

theorem unescape_pathChars (steps : List PathComponent) :
    unescape (Text.encode (pathChars steps)) = steps.flatMap fun step => slash :: step.bytes := by
  induction steps with
  | nil => simp [pathChars, unescape]
  | cons step steps ih =>
    rw [pathChars, List.flatMap_cons, List.flatMap_cons, ← List.singleton_append,
      List.append_assoc, Text.encode_append, unescape_slash, Text.encode_append, unescape_escape]
    rw [List.cons_append]
    congr 2

theorem not_endsPath_pathChars (steps : List PathComponent) :
    ∀ c ∈ pathChars steps, !endsPath c := by
  intro c hc
  obtain ⟨step, -, hc⟩ := List.mem_flatMap.1 hc
  rcases List.mem_cons.1 hc with rfl | hc
  · decide
  · obtain ⟨b, -, hc⟩ := List.mem_flatMap.1 hc
    exact (escapeByte_spec b).1 c hc

theorem hostAndPath_file {cs : List Char} (h : ∀ c ∈ cs, !endsPath c) :
    (Uri.mk ("file://" ++ String.ofList ('/' :: cs))).hostAndPath = ([], '/' :: cs) := by
  have htext : (("file://" ++ String.ofList ('/' :: cs)).toList.dropWhile (· != ':')).drop 1 =
      '/' :: '/' :: '/' :: cs := by
    simp [String.toList_append]
  have hpath : ('/' :: cs).takeWhile (!endsPath ·) = '/' :: cs := by
    rw [List.takeWhile_eq_self_iff]
    intro c hc
    rcases List.mem_cons.1 hc with rfl | hc
    · decide
    · exact h c hc
  have hauthority : (!endsAuthority '/') = false := rfl
  rw [hostAndPath, htext]
  show (hostOf (('/' :: cs).takeWhile (!endsAuthority ·)),
    (('/' :: cs).dropWhile (!endsAuthority ·)).takeWhile (!endsPath ·)) = _
  rw [List.takeWhile_cons, List.dropWhile_cons, hauthority, if_neg Bool.false_ne_true,
    if_neg Bool.false_ne_true, hpath]
  rfl

end Uri

/-- The steps of a path are not changed by a slash at its end. -/
theorem FilePath.components_slash_end (as : List UInt8) :
    (FilePath.mk (slash :: as ++ [slash])).components = (FilePath.mk (slash :: as)).components := by
  rw [components_append_slash (List.cons_ne_nil _ _)]
  simp [splitSlashes, ofPart?]

/-- **The URI of a path leads back to its steps.** -/
theorem Uri.toFile?_ofFile? {p : FilePath} (habsolute : p.isAbsolute) :
    ∃ uri q, Uri.ofFile? p = some uri ∧ uri.toFile? = some q ∧ q.components = p.components := by
  obtain ⟨bs, hbs⟩ := FilePath.isAbsolute_iff.1 habsolute
  obtain rfl : p = ⟨slash :: bs⟩ := congrArg FilePath.mk hbs
  have hproper : ∀ step ∈ (FilePath.mk (slash :: bs)).components.drop 1, step.Proper :=
    fun _ => FilePath.proper_of_mem_filterMap
  have hroot : (FilePath.mk (slash :: bs)).components =
      root :: (FilePath.mk (slash :: bs)).components.drop 1 := rfl
  generalize (FilePath.mk (slash :: bs)).components.drop 1 = steps at hproper hroot
  obtain ⟨cs, hcs, hends, hcomponents⟩ : ∃ cs,
      (if steps = [] then ['/'] else pathChars steps) = '/' :: cs ∧
      (∀ c ∈ cs, !endsPath c) ∧
      ∃ as, unescape (Text.encode ('/' :: cs)) = slash :: as ∧
        (FilePath.mk (slash :: as)).components = root :: steps := by
    cases steps with
    | nil => exact ⟨[], rfl, (fun _ h => nomatch h), [], by decide +kernel, by decide⟩
    | cons step steps =>
      refine ⟨escape step.bytes ++ pathChars steps, rfl, ?_, ?_⟩
      · exact fun c hc => not_endsPath_pathChars (step :: steps) c
          (List.mem_cons_of_mem _ hc)
      · refine ⟨_, unescape_pathChars (step :: steps), ?_⟩
        rw [FilePath.components_absolute]
        exact congrArg (root :: ·) (FilePath.filterMap_splitSlashes
          (hproper step List.mem_cons_self) fun s hs => hproper s (List.mem_cons_of_mem _ hs))
  obtain ⟨as, hbytes, hcomponents⟩ := hcomponents
  have hfile : Uri.toFile? ⟨"file://" ++ String.ofList ('/' :: cs)⟩ =
      some ⟨if endsInDrive (slash :: as) then slash :: as ++ [slash] else slash :: as⟩ := by
    rw [toFile?, hostAndPath_file hends, ← hbytes]
    exact if_pos ⟨rfl, .inl rfl⟩
  refine ⟨⟨"file://" ++ String.ofList ('/' :: cs)⟩, _, ?_, hfile, ?_⟩
  · rw [ofFile?, if_pos habsolute, ← hcs, hroot]
    rfl
  · rw [hroot, ← hcomponents]
    split
    · exact FilePath.components_slash_end _
    · rfl

namespace UnitId

/-- **A unit has a URI,** which leads back to the path of the unit. -/
theorem exists_uri (u : UnitId) : ∃ uri q, usualLayout.uriOf? u = some uri ∧
    uri.toFile? = some q ∧ q.components = (usualLayout.pathOf u).components :=
  Uri.toFile?_ofFile? (isAbsolute_pathOf u)

/-- The URI of a unit. -/
def uri (u : UnitId) : Uri := (usualLayout.uriOf? u).getD default

theorem uriOf?_eq (u : UnitId) : usualLayout.uriOf? u = some u.uri := by
  obtain ⟨uri, -, huri, -⟩ := exists_uri u
  rw [UnitId.uri, huri]
  rfl

/-- The path that the URI of a unit leads to. -/
def file (u : UnitId) : FilePath := u.uri.toFile?.getD (usualLayout.pathOf u)

/-- The URI of a unit leads to the file of the unit. -/
theorem toFile?_eq (u : UnitId) : u.uri.toFile? = some u.file ∧
    u.file.components = (usualLayout.pathOf u).components := by
  obtain ⟨uri, q, huri, hq, hcomponents⟩ := exists_uri u
  obtain rfl : u.uri = uri := Option.some.inj ((uriOf?_eq u).symm.trans huri)
  rw [file, hq]
  exact ⟨rfl, hcomponents⟩

theorem toFile?_uri {u : UnitId} (h : u.WellNamed) :
    u.uri.toFile? = some u.file ∧ u.file.components = u.steps :=
  ⟨(toFile?_eq u).1, (toFile?_eq u).2.trans (components_pathOf h)⟩

/-- Units with one URI lie at one path. -/
theorem uri_eq_iff {u v : UnitId} :
    u.uri = v.uri ↔ (usualLayout.pathOf u).components = (usualLayout.pathOf v).components := by
  constructor
  · intro h
    have hfile := (toFile?_eq u).1
    rw [h, (toFile?_eq v).1, Option.some.injEq] at hfile
    rw [← (toFile?_eq u).2, ← (toFile?_eq v).2, hfile]
  · intro h
    refine Option.some.inj ((uriOf?_eq u).symm.trans (Eq.trans ?_ (uriOf?_eq v)))
    rw [Layout.uriOf?, Layout.uriOf?, Uri.ofFile?, Uri.ofFile?, h, isAbsolute_pathOf,
      isAbsolute_pathOf]

/-- Different units lie at different files. -/
theorem sameAs_file {u v : UnitId} (hu : u.WellNamed) (hv : v.WellNamed) :
    u.file.sameAs v.file ↔ u = v := by
  rw [FilePath.sameAs_iff, (toFile?_uri hu).2, (toFile?_uri hv).2]
  exact ⟨steps_injective hu, congrArg steps⟩

/-- Units at one URI are the same unit. -/
theorem eq_of_uri_eq {u v : UnitId} (hu : u.WellNamed) (hv : v.WellNamed) (h : u.uri = v.uri) :
    u = v := by
  rw [uri_eq_iff, components_pathOf hu, components_pathOf hv] at h
  exact steps_injective hu h

end UnitId

end Xref
