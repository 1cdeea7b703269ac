import Xref.Proofs.Binding.Introduced
import Xref.Proofs.Syntax.Spans

/-!
# Paths that arise in a unit

What names the paths of a unit are made of is read off its tree (`arises_of_mem_unitPaths`), whatever
the unit and its module are called. The path of a record written in place, or of a field in it, is
written as no other path that arises (`eq_of_text_eq`).
-/

namespace Xref

namespace SymbolPath

/-- Whether a path can be that of a symbol in the unit `u` of a module `m` that sees declarations of
the modules that satisfy `M`. Its names are words, and what is no declaration of a module and is not
provided by the language belongs to the unit. -/
inductive Arises (M : ModuleId → Prop) (m : ModuleId) (u : String) : SymbolPath → Prop
  | item {k x} (hk : M k) (hx : isWord x) : Arises M m u (item k x)
  | itemField {k t x} (hk : M k) (ht : isWord t) (hx : isWord x) : Arises M m u (field (item k t) x)
  | record (n : Nat) : Arises M m u (record m u n)
  | recordField (n : Nat) {x} (hx : isWord x) : Arises M m u (field (record m u n) x)
  | parameter {f x} (hf : IsFunction f) (hx : isWord x) : Arises M m u (parameter m u f x)
  | localVar {f x} (n : Nat) (hf : IsFunction f) (hx : isWord x) : Arises M m u (localVar m u f x n)
  | module {x} (hx : isWord x) : Arises M m u (module x)
  | builtin {x} (hx : isWord x) : Arises M m u (builtin x)

variable {M : ModuleId → Prop} {m : ModuleId} {u x y : String} {n : Nat} {p q : SymbolPath}

/-- What is declared at a path belongs to the module of the unit, if no other module is seen. -/
theorem Arises.owner_eq (h : Arises (· = m) m u p) (hdeclared : p.isDeclared) : p.owner = m := by
  cases h with
  | item hk hx => exact hk
  | itemField hk ht hx => exact hk
  | record | module | builtin => cases hdeclared
  | recordField | parameter | localVar => rfl

/-! ## Paths of records -/

/-- Whether a record written in place is at a path, or a field of one. -/
def isOnRecord : SymbolPath → Bool
  | record .. => true
  | field p _ => p.isOnRecord
  | _ => false

theorem text_record (m : ModuleId) (u : String) (n : Nat) :
    (record m u n).text = m.name ++ "::" ++ u ++ "::" ++ recordMark n := by
  apply String.toList_injective
  simp [text, recordMark]

theorem text_localVar (m : ModuleId) (u f x : String) (n : Nat) :
    (localVar m u f x n).text = m.name ++ "::" ++ u ++ "::" ++ f ++ "::" ++ numbered x n := by
  apply String.toList_injective
  simp [text, numbered]

theorem text_module (x : String) : (module x).text = "module" ++ "::" ++ x := by
  apply String.toList_injective
  simp [text]

/-- A text is divided in one way at the last two colons. -/
theorem append_colons_inj {a b : String} (hx : ':' ∉ x.toList) (hy : ':' ∉ y.toList)
    (h : a ++ "::" ++ x = b ++ "::" ++ y) : a = b ∧ x = y := by
  have hlist : (a.toList ++ [':']) ++ ':' :: x.toList = (b.toList ++ [':']) ++ ':' :: y.toList := by
    simpa using congrArg String.toList h
  obtain ⟨hfront, hback⟩ := append_cons_inj_right hx hy hlist
  exact ⟨String.toList_injective (List.append_cancel_right hfront), String.toList_injective hback⟩

theorem colon_not_mem_of_isWord (h : isWord x) : ':' ∉ x.toList := not_mem_of_isWord (by decide) h

theorem numbered_ne_recordMark (hx : isWord x) (k n : Nat) : numbered x k ≠ recordMark n := by
  intro h
  have hmem : '<' ∈ (numbered x k).toList := by
    rw [h]
    simp [recordMark]
  have hx : '<' ∉ x.toList := not_mem_of_isWord (by decide) hx
  have hk : '<' ∉ (toString k).toList := not_mem_toString (by decide) k
  simp only [numbered, String.toList_append, List.mem_append, hx, hk, or_false, false_or] at hmem
  exact absurd hmem (by decide)

/-- **The path of a record** is written as no other path that arises. -/
theorem eq_of_text_record (hq : Arises M m u q) (h : (record m u n).text = q.text) :
    record m u n = q := by
  have hmark := colon_not_mem_recordMark n
  -- All other paths end with a word or with a number.
  have hword : ∀ {a x : String}, isWord x → (record m u n).text ≠ a ++ "::" ++ x := by
    intro a x hx heq
    rw [text_record] at heq
    obtain ⟨-, heq⟩ := append_colons_inj hmark (colon_not_mem_of_isWord hx) heq
    exact not_isWord_recordMark n (heq ▸ hx)
  cases hq with
  | item hk hx => exact absurd h (hword hx)
  | itemField hk ht hx => exact absurd h (hword hx)
  | record k =>
    rw [text_record, text_record] at h
    obtain ⟨-, h⟩ := append_colons_inj hmark (colon_not_mem_recordMark k) h
    rw [recordMark_injective h]
  | recordField k hx => exact absurd h (hword hx)
  | parameter hf hx => exact absurd h (hword hx)
  | localVar k hf hx =>
    rw [text_record, text_localVar] at h
    obtain ⟨-, h⟩ := append_colons_inj hmark (colon_not_mem_numbered hx k) h
    exact absurd h.symm (numbered_ne_recordMark hx k n)
  | module hx => exact absurd (h.trans (text_module _)) (hword hx)
  | builtin hx => exact absurd h (hword hx)

/-- **The path of a field in a record** is written as no other path that arises. -/
theorem eq_of_text_recordField (hM : ∀ k, M k → k = m ∨ k.IsWord) (hx : isWord x)
    (hq : Arises M m u q) (h : (field (record m u n) x).text = q.text) :
    field (record m u n) x = q := by
  -- What comes before the last name is the path of the record.
  have hcut : ∀ {b y : String}, isWord y → q.text = b ++ "::" ++ y →
      (record m u n).text = b ∧ x = y := fun hy heq =>
    append_colons_inj (colon_not_mem_of_isWord hx) (colon_not_mem_of_isWord hy) (h.trans heq)
  have hcolon : ':' ∈ (record m u n).text.toList := by
    rw [text_record]
    simp
  cases hq with
  | @item k y hk hy =>
    obtain ⟨hfront, -⟩ := hcut hy rfl
    rcases hM k hk with rfl | hword
    · have hlength := congrArg String.length hfront
      have hcolons : "::".length = 2 := rfl
      simp only [text_record, String.length_append] at hlength
      omega
    · rw [hfront] at hcolon
      exact absurd hcolon (colon_not_mem_of_isWord_name hword)
  | itemField hk ht hy =>
    obtain ⟨hfront, -⟩ := hcut hy rfl
    cases eq_of_text_record (M := M) (.item hk ht) hfront
  | record k => exact (eq_of_text_record (M := M) (.recordField n hx) h.symm).symm
  | recordField k hy =>
    obtain ⟨hfront, rfl⟩ := hcut hy rfl
    rw [eq_of_text_record (M := M) (.record k) hfront]
  | parameter hf hy =>
    obtain ⟨hfront, -⟩ := hcut hy rfl
    rw [text_record] at hfront
    obtain ⟨-, hmark⟩ := append_colons_inj (colon_not_mem_recordMark n)
      (colon_not_mem_of_isFunction hf) hfront
    exact absurd (hmark ▸ hf) (not_isFunction_recordMark n)
  | localVar k hf hy =>
    rw [text_localVar] at h
    obtain ⟨-, hnumbered⟩ := append_colons_inj (colon_not_mem_of_isWord hx)
      (colon_not_mem_numbered hy k) h
    exact absurd (hnumbered ▸ hx) (not_isWord_numbered _ _)
  | module hy =>
    obtain ⟨hfront, -⟩ := hcut hy (text_module _)
    rw [hfront] at hcolon
    exact absurd hcolon (by decide)
  | builtin hy =>
    obtain ⟨hfront, -⟩ := hcut hy rfl
    rw [hfront] at hcolon
    exact absurd hcolon (by decide)

/-- **Paths on records are told apart by their written forms,** from each other and from all other
paths that arise. -/
theorem eq_of_text_eq (hM : ∀ k, M k → k = m ∨ k.IsWord) (hp : Arises M m u p)
    (hq : Arises M m u q) (hrecord : p.isOnRecord) (h : p.text = q.text) : p = q := by
  cases hp with
  | record n => exact eq_of_text_record hq h
  | recordField n hx => exact eq_of_text_recordField hM hx hq h
  | _ => cases hrecord

/-! ## Paths up to offsets -/

/-- Whether two paths are the same up to the offset of a record, and `S` relates the offsets. -/
inductive Moves (S : Nat → Nat → Prop) : SymbolPath → SymbolPath → Prop
  | record {m : ModuleId} {u : String} {n n' : Nat} (h : S n n') :
    Moves S (record m u n) (record m u n')
  | field {p p' : SymbolPath} {x : String} (h : Moves S p p') : Moves S (field p x) (field p' x)
  | other {p : SymbolPath} (h : p.isOnRecord = false) : Moves S p p

namespace Moves

variable {S : Nat → Nat → Prop} {p' q' : SymbolPath}

theorem lastName_eq (h : Moves S p p') : p'.lastName = p.lastName := by
  cases h <;> rfl

theorem owner_eq (h : Moves S p p') : p'.owner = p.owner := by
  induction h with
  | field h ih => exact ih
  | _ => rfl

theorem isDeclared_eq (h : Moves S p p') : p'.isDeclared = p.isDeclared := by
  cases h <;> rfl

theorem eq_self (h : Moves S p p') (hrecord : p.isOnRecord = false) : p' = p := by
  induction h with
  | record => cases hrecord
  | field h ih => rw [ih hrecord]
  | other => rfl

theorem flip (h : Moves S p p') : Moves (fun n n' => S n' n) p' p := by
  induction h with
  | record h => exact .record h
  | field _ ih => exact .field ih
  | other h => exact .other h

/-- A path moves in one way, if an offset does. -/
theorem unique (hS : ∀ a b c, S a b → S a c → b = c) (h : Moves S p p') (h' : Moves S p q') :
    p' = q' := by
  induction h generalizing q' with
  | record h =>
    cases h' with
    | record h' => rw [hS _ _ _ h h']
    | other h' => cases h'
  | field h ih =>
    cases h' with
    | field h' => rw [ih h']
    | other hother => rw [h.eq_self hother]
  | other h => exact (h'.eq_self h).symm

/-- **Paths with one written form** have one written form when they have moved. -/
theorem text_eq (hS : ∀ a b c, S a b → S a c → b = c) (hM : ∀ k, M k → k = m ∨ k.IsWord)
    (hp : Arises M m u p) (hq : Arises M m u q) (h : Moves S p p') (h' : Moves S q q')
    (htext : p.text = q.text) : p'.text = q'.text := by
  cases hrecord : p.isOnRecord with
  | true =>
    obtain rfl := eq_of_text_eq hM hp hq hrecord htext
    rw [h.unique hS h']
  | false =>
    cases hrecord' : q.isOnRecord with
    | true =>
      obtain rfl := eq_of_text_eq hM hq hp hrecord' htext.symm
      rw [h.unique hS h']
    | false => rw [h.eq_self hrecord, h'.eq_self hrecord', htext]

end Moves

end SymbolPath

/-! ## Paths of a tree -/

namespace Binding

open SymbolPath (Arises IsFunction)

variable {M : ModuleId → Prop} {m k : ModuleId} {u f source : String} {n : Node} {p owner : SymbolPath}

theorem isWord_identifierAt? {i : Nat} {name : Token}
    (hn : n ∈ (Tree.ofSource source).root.preorder) (h : n.identifierAt? i = some name) :
    isWord name.text := by
  obtain ⟨hchild, hkind⟩ := identifierAt?_eq_some h
  have hmem := Node.childTokens_subset hn hchild
  rw [Tree.tokens_root] at hmem
  exact (isWord_of_mem hmem hkind).1

theorem isWord_nameIn? {kind : NodeKind} {i : Nat} {x : String}
    (hn : n ∈ (Tree.ofSource source).root.preorder) (h : nameIn? kind i n = some x) : isWord x := by
  unfold nameIn? at h
  split at h
  · obtain ⟨name, hname, rfl⟩ := Option.map_eq_some_iff.1 h
    exact isWord_identifierAt? hn hname
  · cases h

theorem isFunction_functionNameOf (hn : n ∈ (Tree.ofSource source).root.preorder) :
    IsFunction (functionNameOf n) := by
  unfold functionNameOf
  cases hname : n.identifierAt? 1 with
  | none => exact .inr rfl
  | some name => exact .inl (isWord_identifierAt? hn hname)

theorem arises_of_mem_fieldPaths (hn : n ∈ (Tree.ofSource source).root.preorder)
    (hfield : ∀ x, isWord x → Arises M m u (.field owner x)) (hp : p ∈ fieldPaths owner n) :
    Arises M m u p := by
  obtain ⟨c, hc, hp⟩ := List.mem_filterMap.1 hp
  obtain ⟨name, hname, rfl⟩ := Option.map_eq_some_iff.1 hp
  have hmem := Node.preorder_trans hn (Node.mem_preorder_child hc)
  exact hfield _ (isWord_identifierAt? hmem hname)

/-- Declarations of any module arise where it is seen. -/
theorem arises_of_mem_itemPaths (hk : M k) (hn : n ∈ (Tree.ofSource source).root.preorder)
    (hp : p ∈ itemPaths k n) : Arises M m u p := by
  unfold itemPaths at hp
  split at hp
  · rename_i name _ hname
    have hword := isWord_identifierAt? hn hname
    rcases List.mem_cons.1 hp with rfl | hp
    · exact .item hk hword
    · split at hp
      · rename_i body _ hbody
        split at hp
        · have hmem := Node.mem_preorder_child (List.mem_of_mem_head? hbody)
          exact arises_of_mem_fieldPaths (Node.preorder_trans hn hmem)
            (fun x hx => .itemField hk hword hx) hp
        · cases hp
      · cases hp
  · cases hp

theorem isOnRecord_of_mem_itemPaths (hp : p ∈ itemPaths k n) : p.isOnRecord = false := by
  unfold itemPaths at hp
  split at hp
  · rcases List.mem_cons.1 hp with rfl | hp
    · rfl
    · split at hp
      · split at hp
        · obtain ⟨field, -, hfield⟩ := List.mem_filterMap.1 hp
          obtain ⟨name, -, rfl⟩ := Option.map_eq_some_iff.1 hfield
          rfl
        · cases hp
      · cases hp
  · cases hp

theorem arises_of_mem_recordPaths (hn : n ∈ (Tree.ofSource source).root.preorder)
    (hp : p ∈ recordPaths m u n) : Arises M m u p := by
  unfold recordPaths at hp
  split at hp
  · rcases List.mem_cons.1 hp with rfl | hp
    · exact .record _
    · exact arises_of_mem_fieldPaths hn (fun x hx => .recordField _ hx) hp
  · cases hp

theorem arises_of_mem_nodePaths (hm : M m) (hf : IsFunction f)
    (hn : n ∈ (Tree.ofSource source).root.preorder) (hp : p ∈ nodePaths m u f n) :
    Arises M m u p := by
  simp only [nodePaths, List.mem_append] at hp
  rcases hp with (((hp | hp) | hp) | hp) | hp
  · exact arises_of_mem_itemPaths hm hn hp
  · split at hp
    · cases hp
    · obtain ⟨c, hc, hp⟩ := List.mem_flatMap.1 hp
      exact arises_of_mem_recordPaths (Node.preorder_trans hn (Node.mem_preorder_child hc)) hp
  · rw [Option.mem_toList, Option.map_eq_some_iff] at hp
    obtain ⟨x, hx, rfl⟩ := hp
    exact .parameter hf (isWord_nameIn? hn hx)
  · rw [Option.mem_toList, Option.map_eq_some_iff] at hp
    obtain ⟨x, hx, rfl⟩ := hp
    exact .module (isWord_nameIn? hn hx)
  · obtain ⟨name, hname, hp⟩ := List.mem_filterMap.1 hp
    obtain ⟨_, -, rfl⟩ := Option.map_eq_some_iff.1 hp
    obtain ⟨hchild, hkind⟩ := List.mem_filter.1 hname
    have hmem := Node.childTokens_subset hn hchild
    rw [Tree.tokens_root] at hmem
    refine .builtin (isWord_of_mem hmem ?_).1
    simpa [TokenKind.isIdentifier] using hkind

/-- **The paths of a unit are of the forms that can arise.** -/
theorem arises_of_mem_unitPaths (hm : M m) (hp : p ∈ unitPaths m u (.ofSource source)) :
    Arises M m u p := by
  obtain ⟨item, hitem, hp⟩ := List.mem_flatMap.1 hp
  have hroot := Node.mem_preorder_child hitem
  have hf := isFunction_functionNameOf hroot
  rcases List.mem_append.1 hp with hp | hp
  · obtain ⟨n, hn, hp⟩ := List.mem_flatMap.1 hp
    exact arises_of_mem_nodePaths hm hf (Node.preorder_trans hroot hn) hp
  · obtain ⟨x, hx, hp⟩ := List.mem_flatMap.1 hp
    obtain ⟨k, -, rfl⟩ := List.mem_map.1 hp
    obtain ⟨n, hn, hx⟩ := List.mem_filterMap.1 hx
    have hmem := Node.preorder_trans hroot (Node.mem_postorder.1 hn)
    exact .localVar _ hf (isWord_nameIn? hmem hx)

end Binding

end Xref
