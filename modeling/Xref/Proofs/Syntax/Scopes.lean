import Xref.Proofs.Syntax.Locating

/-!
# Scopes of local variables

A function is the scope of its parameters, and a block that of the variables declared in it. The
variables that are visible at a node are those declared before it whose scope is above it. Of several
with one name that of the innermost scope counts, and in it the last (`Node.IsLocalAt`).

On the way from the root down to a node one meets the scopes above it, and in each the declarations
before the node (`Way.frames`). What is found there by a name is what counts (`Way.isLocalAt_of_lookup`).
-/

namespace Xref

/-! ## Kinds -/

namespace NodeKind

/-- Whether nodes of this kind are scopes of variables. -/
def opensScope : NodeKind → Bool
  | functionDefinition | functionBody | blockStatement => true
  | _ => false

/-- Whether nodes of this kind are scopes of what nodes of kind `declaration` declare. -/
def holdsLocal (k declaration : NodeKind) : Bool :=
  match declaration, k with
  | requiredParameter, functionDefinition => true
  | variableDeclaration, functionBody | variableDeclaration, blockStatement => true
  | _, _ => false

/-- Whether a node of this kind is a declaration of the given kind or can have one in it that lies in
no scope inside the node. -/
def exposes (k declaration : NodeKind) : Bool :=
  match declaration, k with
  | requiredParameter, requiredParameter | requiredParameter, parameterList => true
  | variableDeclaration, variableDeclaration | variableDeclaration, ifElseStatement
  | variableDeclaration, elseBlock | variableDeclaration, whileStatement => true
  | _, _ => false

variable {k c d : NodeKind}

theorem opensScope_of_holdsLocal (h : k.holdsLocal d) : k.opensScope := by
  unfold holdsLocal at h
  split at h <;> first | rfl | cases h

theorem opensScope_of_exposes (h : k.exposes d) : k.opensScope = false := by
  unfold exposes at h
  split at h <;> first | rfl | cases h

/-- What a node exposes is held by the node above, or exposed by it, which is no declaration. -/
theorem holdsLocal_or_exposes (hallows : k.allows c) (h : c.exposes d) :
    k.holdsLocal d ∨ k.exposes d ∧ k ≠ d := by
  unfold exposes at h
  split at h
  case h_7 => cases h
  all_goals
    revert hallows
    cases k <;> decide

end NodeKind

namespace Node

/-! ## Nodes above nodes -/

/-- Whether a node is above another. -/
def Above (n m : Node) : Prop := ∃ c ∈ n.children, m ∈ c.preorder

variable {n m k d r scope : Node} {name : String}

theorem mem_preorder_iff_above : m ∈ n.preorder ↔ m = n ∨ n.Above m := mem_preorder

theorem Above.mem (h : n.Above m) : m ∈ n.preorder := mem_preorder.2 (.inr h)

theorem Above.of_mem (h : n.Above m) (hk : k ∈ m.preorder) : n.Above k := by
  obtain ⟨c, hc, hm⟩ := h
  exact ⟨c, hc, preorder_trans hm hk⟩

theorem above_of_mem (hm : m ∈ n.preorder) (h : m.Above k) : n.Above k := by
  rcases mem_preorder_iff_above.1 hm with rfl | hm
  · exact h
  · exact hm.of_mem h.mem

/-! ## Declarations and their scopes -/

/-- The name of the variable that a node declares in a function. -/
def localName? (n : Node) : Option Token :=
  match n.kind with
  | .requiredParameter => n.identifierAt? 0
  | .variableDeclaration => n.identifierAt? 1
  | _ => none

/-- Whether a node declares a variable of the given name in a function. -/
def declaresLocal (n : Node) (name : String) : Bool := n.localName?.any fun t => t.text == name

/-- Whether a node is the scope of a declaration: it can be, and it is the nearest above that can. -/
structure IsScopeOf (scope d : Node) : Prop where
  holds : scope.kind.holdsLocal d.kind
  above : scope.Above d
  nearest : ∀ m, scope.Above m → m.Above d → m.kind.holdsLocal d.kind = false

/-- Whether below `root` a node declares a variable of the given name that is visible at `r`: it ends
before `r` starts, and its scope is above `r`. Nodes are taken with their trivia, which makes no
difference for nodes of which neither lies in the other. -/
structure IsVisibleAt (root r : Node) (name : String) (scope d : Node) : Prop where
  mem : scope ∈ root.preorder
  declares : d.declaresLocal name
  isScopeOf : scope.IsScopeOf d
  before : d.fullSpan.stop ≤ r.fullSpan.start
  above : scope.Above r

/-- Whether a node declares the variable that a name means at `r`: of those visible the last in the
innermost scope. -/
def IsLocalAt (root r : Node) (name : String) (d : Node) : Prop :=
  ∃ scope, root.IsVisibleAt r name scope d ∧
    ∀ scope' d', root.IsVisibleAt r name scope' d' →
      scope'.Above scope ∨ scope' = scope ∧ (d' = d ∨ d'.fullSpan.stop ≤ d.fullSpan.start)

theorem exists_localName_of_declaresLocal (h : d.declaresLocal name) :
    ∃ t, d.localName? = some t ∧ t.text = name := by
  rw [declaresLocal, Option.any_eq_true] at h
  obtain ⟨t, ht, htext⟩ := h
  exact ⟨t, ht, of_decide_eq_true htext⟩

theorem kind_of_localName (h : d.localName?.isSome) :
    d.kind = .requiredParameter ∨ d.kind = .variableDeclaration := by
  unfold localName? at h
  split at h
  · exact .inl ‹_›
  · exact .inr ‹_›
  · cases h

theorem exists_identifier_of_localName {t : Token} (h : d.localName? = some t) :
    ∃ i, d.identifierAt? i = some t := by
  unfold localName? at h
  split at h
  · exact ⟨0, h⟩
  · exact ⟨1, h⟩
  · cases h

/-! ## Regular trees -/

/-- Whether a tree is one that can be the tree of a source text, as far as scopes matter. -/
structure Regular (n : Node) : Prop where
  tiled : ∀ m ∈ n.preorder, m.Tiled
  allows : ∀ m ∈ n.preorder, ∀ c ∈ m.children, m.kind.allows c.kind
  ids : (n.preorder.map Node.id).Nodup
  nonempty : ∀ m ∈ n.preorder, ∀ i t, m.identifierAt? i = some t →
    m.fullSpan.start < m.fullSpan.stop

namespace Regular

theorem child (h : n.Regular) (hc : c ∈ n.children) : c.Regular where
  tiled _ hm := h.tiled _ (preorder_trans (mem_preorder_child hc) hm)
  allows _ hm := h.allows _ (preorder_trans (mem_preorder_child hc) hm)
  ids := nodup_child h.ids hc
  nonempty _ hm := h.nonempty _ (preorder_trans (mem_preorder_child hc) hm)

theorem below (h : n.Regular) (hm : m ∈ n.preorder) : m.Regular := by
  induction n using induct with
  | h n ih =>
    rcases mem_preorder.1 hm with rfl | ⟨c, hc, hm⟩
    · exact h
    · exact ih c hc (h.child hc) hm

/-- No node is above itself. -/
theorem not_above_self (h : n.Regular) : ¬ n.Above n := fun ⟨_, hc, hn⟩ =>
  self_not_below h.ids hc hn

theorem tiles (h : n.Regular) : Tiles n.fullSpan.start n.slots n.fullSpan.stop :=
  h.tiled n n.self_mem_preorder

/-- Where no variables can be declared, none can be declared below. -/
theorem isStill_below (h : n.Regular) (hkind : n.kind.isStill) (hm : m ∈ n.preorder) :
    m.kind.isStill := by
  induction n using induct with
  | h n ih =>
    rcases mem_preorder.1 hm with rfl | ⟨c, hc, hm⟩
    · exact hkind
    · have hallows := h.allows n n.self_mem_preorder c hc
      exact ih c hc (h.child hc) (NodeKind.isStill_of_allows hkind hallows) hm

/-- A declaration takes bytes. -/
theorem width (h : n.Regular) (hd : d ∈ n.preorder) (hname : d.localName?.isSome) :
    d.fullSpan.start < d.fullSpan.stop := by
  obtain ⟨t, ht⟩ := Option.isSome_iff_exists.1 hname
  obtain ⟨i, hi⟩ := exists_identifier_of_localName ht
  exact h.nonempty d hd i t hi

end Regular

/-! ## Declarations that a node exposes -/

mutual

/-- The declarations below a node that lie in no scope inside the node, in order. -/
def exposed : Node → List Node
  | ⟨id, kind, full, ends, slots⟩ =>
    if kind.opensScope then [] else
      let n : Node := ⟨id, kind, full, ends, slots⟩
      exposedIn slots ++ if n.localName?.isSome then [n] else []

/-- The declarations in several slots that lie in no scope inside them, in order. -/
def exposedIn : List Child → List Node
  | [] => []
  | .node n :: rest => n.exposed ++ exposedIn rest
  | .token _ :: rest => exposedIn rest
  | .missing :: rest => exposedIn rest

end

theorem exposed_eq (n : Node) : n.exposed =
    if n.kind.opensScope then [] else
      exposedIn n.slots ++ if n.localName?.isSome then [n] else [] := by
  cases n
  rfl

theorem exposedIn_append (ss ts : List Child) :
    exposedIn (ss ++ ts) = exposedIn ss ++ exposedIn ts := by
  induction ss with
  | nil => rfl
  | cons s rest ih => cases s <;> simp [exposedIn, ih]

theorem mem_exposedIn {slots : List Child} :
    d ∈ exposedIn slots ↔ ∃ c ∈ slots.filterMap Slot.node?, d ∈ c.exposed := by
  induction slots with
  | nil => simp [exposedIn]
  | cons s rest ih => cases s <;> simp [exposedIn, Slot.node?, ih]

/-- What a node exposes is the node itself or exposed by a node right below, and the node is no
scope. -/
theorem mem_exposed : d ∈ n.exposed ↔ n.kind.opensScope = false ∧
    (d ∈ exposedIn n.slots ∨ d = n ∧ n.localName?.isSome) := by
  rw [exposed_eq]
  cases n.kind.opensScope <;> cases n.localName? <;> simp

theorem mem_exposedIn_slots : d ∈ exposedIn n.slots ↔ ∃ c ∈ n.children, d ∈ c.exposed := mem_exposedIn

theorem declares_of_mem_exposed (h : d ∈ n.exposed) : d ∈ n.preorder ∧ d.localName?.isSome := by
  induction n using induct with
  | h n ih =>
    rcases (mem_exposed.1 h).2 with hd | ⟨rfl, hname⟩
    · obtain ⟨c, hc, hd⟩ := mem_exposedIn_slots.1 hd
      obtain ⟨hmem, hname⟩ := ih c hc hd
      exact ⟨mem_preorder.2 (.inr ⟨c, hc, hmem⟩), hname⟩
    · exact ⟨d.self_mem_preorder, hname⟩

theorem above_of_mem_exposedIn (h : d ∈ exposedIn n.slots) : n.Above d ∧ d.localName?.isSome := by
  obtain ⟨c, hc, hd⟩ := mem_exposedIn_slots.1 h
  obtain ⟨hmem, hname⟩ := declares_of_mem_exposed hd
  exact ⟨⟨c, hc, hmem⟩, hname⟩

/-- A declaration lies in what a node exposes or right in a scope below it. -/
theorem exposed_or_held (hd : d ∈ n.preorder) (hname : d.localName?.isSome) : d ∈ n.exposed ∨
    ∃ m ∈ n.preorder, m.kind.opensScope ∧ d ∈ exposedIn m.slots := by
  induction n using induct with
  | h n ih =>
    -- What is exposed right below `n` is held by it if it is a scope.
    have hstep : d ∈ exposedIn n.slots → d ∈ n.exposed ∨
        ∃ m ∈ n.preorder, m.kind.opensScope ∧ d ∈ exposedIn m.slots := by
      intro hin
      cases hscope : n.kind.opensScope with
      | false => exact .inl (mem_exposed.2 ⟨hscope, .inl hin⟩)
      | true => exact .inr ⟨n, n.self_mem_preorder, hscope, hin⟩
    rcases mem_preorder.1 hd with rfl | ⟨c, hc, hd⟩
    · refine .inl (mem_exposed.2 ⟨?_, .inr ⟨rfl, hname⟩⟩)
      rcases kind_of_localName hname with hkind | hkind <;> rw [hkind] <;> rfl
    · rcases ih c hc hd with hin | ⟨m, hm, hscope, hin⟩
      · exact hstep (mem_exposedIn_slots.2 ⟨c, hc, hin⟩)
      · exact .inr ⟨m, mem_preorder.2 (.inr ⟨c, hc, hm⟩), hscope, hin⟩

namespace Regular

variable (hn : n.Regular)

include hn

theorem exposes (h : d ∈ n.exposed) : n.kind.exposes d.kind := by
  induction n using induct with
  | h n ih =>
    obtain ⟨hscope, hd | ⟨rfl, hname⟩⟩ := mem_exposed.1 h
    · obtain ⟨c, hc, hd⟩ := mem_exposedIn_slots.1 hd
      rcases NodeKind.holdsLocal_or_exposes (hn.allows n n.self_mem_preorder c hc)
        (ih c hc (hn.child hc) hd) with hholds | hexposes
      · rw [NodeKind.opensScope_of_holdsLocal hholds] at hscope
        cases hscope
      · exact hexposes.1
    · rcases kind_of_localName hname with hkind | hkind <;> rw [hkind] <;> rfl

theorem holds_or_exposes (h : d ∈ exposedIn n.slots) :
    n.kind.holdsLocal d.kind ∨ n.kind.exposes d.kind ∧ n.kind ≠ d.kind := by
  obtain ⟨c, hc, hd⟩ := mem_exposedIn_slots.1 h
  exact NodeKind.holdsLocal_or_exposes (hn.allows n n.self_mem_preorder c hc)
    ((hn.child hc).exposes hd)

/-- Nothing is declared in a declaration. -/
theorem exposedIn_declaration (hname : n.localName?.isSome) : exposedIn n.slots = [] := by
  rw [List.eq_nil_iff_forall_not_mem]
  intro d hd
  have hdecl := kind_of_localName (above_of_mem_exposedIn hd).2
  have hheld := hn.holds_or_exposes hd
  rcases kind_of_localName hname with hkind | hkind <;> rcases hdecl with hkind' | hkind' <;>
    rw [hkind, hkind'] at hheld <;> revert hheld <;> decide

/-- Between a node and what it exposes there is no scope. -/
theorem opensScope_between (h : d ∈ n.exposed) (hm : m ∈ n.preorder) (hd : d ∈ m.preorder) :
    m.kind.opensScope = false := by
  induction n using induct with
  | h n ih =>
    obtain ⟨hscope, hin⟩ := mem_exposed.1 h
    rcases mem_preorder.1 hm with rfl | ⟨c, hc, hmc⟩
    · exact hscope
    rcases hin with hin | ⟨rfl, -⟩
    · obtain ⟨c', hc', hin⟩ := mem_exposedIn_slots.1 hin
      obtain rfl := child_unique hn.ids hc hc' (preorder_trans hmc hd) (declares_of_mem_exposed hin).1
      exact ih c hc (hn.child hc) hin hmc
    · exact absurd ⟨c, hc, preorder_trans hmc hd⟩ hn.not_above_self

/-- **The scope of a declaration** is the one that exposes it right below. -/
theorem isScopeOf_iff (hscope : n.kind.opensScope) (hname : d.localName?.isSome) :
    n.IsScopeOf d ↔ d ∈ exposedIn n.slots := by
  have hholds : ∀ {m : Node}, m ∈ n.preorder → m.kind.opensScope → d ∈ exposedIn m.slots →
      m.kind.holdsLocal d.kind := by
    intro m hm hscope hd
    rcases (hn.below hm).holds_or_exposes hd with h | ⟨h, -⟩
    · exact h
    · rw [NodeKind.opensScope_of_exposes h] at hscope
      cases hscope
  constructor
  · rintro ⟨-, ⟨c, hc, hd⟩, hnearest⟩
    rcases exposed_or_held hd hname with hin | ⟨m, hm, hmscope, hin⟩
    · exact mem_exposedIn_slots.2 ⟨c, hc, hin⟩
    · have hmem : m ∈ n.preorder := mem_preorder.2 (.inr ⟨c, hc, hm⟩)
      have hfar := hnearest m ⟨c, hc, hm⟩ (above_of_mem_exposedIn hin).1
      rw [hholds hmem hmscope hin] at hfar
      cases hfar
  · intro hin
    refine ⟨hholds n.self_mem_preorder hscope hin, (above_of_mem_exposedIn hin).1, ?_⟩
    rintro m ⟨c, hc, hm⟩ hd
    obtain ⟨c', hc', hin⟩ := mem_exposedIn_slots.1 hin
    obtain rfl := child_unique hn.ids hc hc' (preorder_trans hm hd.mem)
      (declares_of_mem_exposed hin).1
    have hno := (hn.child hc).opensScope_between hin hm hd.mem
    rw [Bool.eq_false_iff]
    intro hholds
    rw [NodeKind.opensScope_of_holdsLocal hholds] at hno
    cases hno

end Regular

/-! ## Places of nodes -/

/-- What lies below several slots lies in their bytes, if that is so for each. -/
theorem span_mem_slots {slots : List Child} {start stop : Nat} (h : Tiles start slots stop)
    (hslots : ∀ c ∈ slots.filterMap Slot.node?, ∀ m ∈ c.preorder, c.fullSpan.start ≤ m.fullSpan.start ∧
      m.fullSpan.start ≤ m.fullSpan.stop ∧ m.fullSpan.stop ≤ c.fullSpan.stop) :
    start ≤ stop ∧ ∀ m ∈ preorderOf slots, start ≤ m.fullSpan.start ∧
      m.fullSpan.start ≤ m.fullSpan.stop ∧ m.fullSpan.stop ≤ stop := by
  induction slots generalizing start with
  | nil => exact ⟨Nat.le_of_eq h, fun _ hm => nomatch hm⟩
  | cons s rest ih =>
    obtain ⟨mid, hs, hrest⟩ := h
    cases s with
    | node c =>
      have hspan : c.fullSpan = ⟨start, mid⟩ := hs
      obtain ⟨hle, hbelow⟩ := ih hrest fun c' hc' => hslots c' (List.mem_cons_of_mem _ hc')
      have hfirst := hslots c List.mem_cons_self
      rw [hspan] at hfirst
      have hself := hfirst c c.self_mem_preorder
      rw [hspan] at hself
      dsimp only at hself
      refine ⟨by omega, List.forall_mem_append.2 ⟨fun m hm => ?_, fun m hm => ?_⟩⟩
      · have := hfirst m hm
        dsimp only at this
        omega
      · have := hbelow m hm
        omega
    | token t =>
      have hspan : t.fullSpan = ⟨start, mid⟩ := hs
      have hwidth : t.fullSpan.start ≤ t.fullSpan.stop := Nat.le_add_right _ _
      rw [hspan] at hwidth
      dsimp only at hwidth
      obtain ⟨hle, hbelow⟩ := ih hrest hslots
      refine ⟨by omega, fun m hm => ?_⟩
      have := hbelow m hm
      omega
    | missing =>
      have hmid : start = mid := hs
      subst hmid
      exact ih hrest hslots

/-- What lies below a node lies in its bytes. -/
theorem Regular.span_mem (hn : n.Regular) (hm : m ∈ n.preorder) :
    n.fullSpan.start ≤ m.fullSpan.start ∧ m.fullSpan.start ≤ m.fullSpan.stop ∧
      m.fullSpan.stop ≤ n.fullSpan.stop := by
  induction n using induct generalizing m with
  | h n ih =>
    obtain ⟨hle, hslots⟩ := span_mem_slots hn.tiles fun c hc _ => ih c hc (hn.child hc)
    rcases mem_preorder.1 hm with rfl | ⟨c, hc, hm⟩
    · exact ⟨Nat.le_refl _, hle, Nat.le_refl _⟩
    · refine hslots m ?_
      rw [preorderOf_eq]
      exact List.mem_flatMap.2 ⟨c, hc, hm⟩

/-- Slots before and behind a node end before it starts and start behind its end. -/
theorem Regular.span_slots (hn : n.Regular) {before after : List Child}
    (hslots : n.slots = before ++ .node k :: after) :
    (∀ m ∈ preorderOf before, m.fullSpan.stop ≤ k.fullSpan.start) ∧
      ∀ m ∈ preorderOf after, k.fullSpan.stop ≤ m.fullSpan.start := by
  have htiles := hn.tiles
  rw [hslots, tiles_append] at htiles
  obtain ⟨mid, hbefore, stop, hk, hafter⟩ := htiles
  have hspan : k.fullSpan = ⟨mid, stop⟩ := hk
  have hbelow : ∀ {slots : List Child}, (∀ s ∈ slots, s ∈ n.slots) →
      ∀ c ∈ slots.filterMap Slot.node?, ∀ m ∈ c.preorder, c.fullSpan.start ≤ m.fullSpan.start ∧
        m.fullSpan.start ≤ m.fullSpan.stop ∧ m.fullSpan.stop ≤ c.fullSpan.stop := by
    intro slots hsub c hc m hm
    obtain ⟨s, hs, hc⟩ := List.mem_filterMap.1 hc
    exact (hn.child (List.mem_filterMap.2 ⟨s, hsub s hs, hc⟩)).span_mem hm
  rw [hspan]
  constructor
  · intro m hm
    exact ((span_mem_slots hbefore (hbelow fun s hs => by simp [hslots, hs])).2 m hm).2.2
  · intro m hm
    exact ((span_mem_slots hafter (hbelow fun s hs => by simp [hslots, hs])).2 m hm).1

/-- Two nodes lie one below the other or one behind the other. -/
theorem Regular.apart (hn : n.Regular) (hm : m ∈ n.preorder) (hk : k ∈ n.preorder) :
    k ∈ m.preorder ∨ m ∈ k.preorder ∨ m.fullSpan.stop ≤ k.fullSpan.start ∨
      k.fullSpan.stop ≤ m.fullSpan.start := by
  induction n using induct with
  | h n ih =>
    rcases mem_preorder.1 hm with rfl | ⟨c, hc, hmc⟩
    · exact .inl hk
    rcases mem_preorder.1 hk with rfl | ⟨c', hc', hkc⟩
    · exact .inr (.inl hm)
    obtain ⟨before, after, hslots⟩ := List.append_of_mem (mem_children.1 hc)
    obtain ⟨hbefore, hafter⟩ := hn.span_slots hslots
    have hmspan := (hn.child hc).span_mem hmc
    have hin : ∀ {slots : List Child}, .node c' ∈ slots → k ∈ preorderOf slots := by
      intro slots hmem
      rw [preorderOf_eq]
      exact List.mem_flatMap.2 ⟨c', List.mem_filterMap.2 ⟨_, hmem, rfl⟩, hkc⟩
    have hc' := mem_children.1 hc'
    rw [hslots, List.mem_append, List.mem_cons] at hc'
    rcases hc' with hc' | hc' | hc'
    · have := hbefore k (hin hc')
      exact .inr (.inr (.inr (by omega)))
    · cases hc'
      exact ih c hc (hn.child hc) hmc hkc
    · have := hafter k (hin hc')
      exact .inr (.inr (.inl (by omega)))

/-! ## Places of declarations -/

/-- Whether nodes lie one behind the other between two offsets, each with some bytes. -/
structure Ordered (ds : List Node) (start stop : Nat) : Prop where
  le : start ≤ stop
  inside : ∀ d ∈ ds, start ≤ d.fullSpan.start ∧ d.fullSpan.start < d.fullSpan.stop ∧
    d.fullSpan.stop ≤ stop
  sorted : ds.Pairwise fun d d' => d.fullSpan.stop ≤ d'.fullSpan.start

namespace Ordered

variable {ds es : List Node} {start mid stop : Nat}

theorem nil (h : start ≤ stop) : Ordered [] start stop := ⟨h, fun _ h => (nomatch h), .nil⟩

theorem append (h : Ordered ds start mid) (h' : Ordered es mid stop) :
    Ordered (ds ++ es) start stop := by
  have hle := h.le
  have hle' := h'.le
  refine ⟨hle.trans hle', List.forall_mem_append.2 ⟨fun d hd => ?_, fun d hd => ?_⟩,
    List.pairwise_append.2 ⟨h.sorted, h'.sorted, fun d hd e he => ?_⟩⟩
  · have := h.inside d hd
    omega
  · have := h'.inside d hd
    omega
  · have := h.inside d hd
    have := h'.inside e he
    omega

theorem singleton (h : d.fullSpan.start < d.fullSpan.stop) :
    Ordered [d] d.fullSpan.start d.fullSpan.stop :=
  ⟨h.le, List.forall_mem_singleton.2 ⟨Nat.le_refl _, h, Nat.le_refl _⟩, List.pairwise_singleton _ _⟩

end Ordered

/-- What several slots expose lies in them in order, if that is so for each. -/
theorem ordered_exposedIn {slots : List Child} {start stop : Nat} (h : Tiles start slots stop)
    (hslots : ∀ c ∈ slots.filterMap Slot.node?,
      Ordered c.exposed c.fullSpan.start c.fullSpan.stop) :
    Ordered (exposedIn slots) start stop := by
  induction slots generalizing start with
  | nil => exact .nil (Nat.le_of_eq h)
  | cons s rest ih =>
    obtain ⟨mid, hs, hrest⟩ := h
    cases s with
    | node c =>
      have hspan : c.fullSpan = ⟨start, mid⟩ := hs
      have hfirst := hslots c List.mem_cons_self
      rw [hspan] at hfirst
      exact hfirst.append (ih hrest fun c' hc' => hslots c' (List.mem_cons_of_mem _ hc'))
    | token t =>
      have hle : start ≤ mid := by
        have hspan : t.fullSpan = ⟨start, mid⟩ := hs
        have : t.fullSpan.start ≤ t.fullSpan.stop := Nat.le_add_right _ _
        rwa [hspan] at this
      exact (Ordered.nil hle).append (ih hrest hslots)
    | missing => exact (Ordered.nil (Nat.le_of_eq hs)).append (ih hrest hslots)

/-- **What a node exposes lies in order.** -/
theorem Regular.ordered (hn : n.Regular) : Ordered n.exposed n.fullSpan.start n.fullSpan.stop := by
  induction n using induct with
  | h n ih =>
    have hslots := ordered_exposedIn hn.tiles fun c hc => ih c hc (hn.child hc)
    rw [exposed_eq]
    split
    · exact .nil hslots.le
    · split
      · rename_i hname
        rw [hn.exposedIn_declaration hname]
        exact .singleton (hn.width n.self_mem_preorder hname)
      · rwa [List.append_nil]

theorem Regular.orderedIn (hn : n.Regular) {slots : List Child} {start stop : Nat}
    (h : Tiles start slots stop) (hslots : ∀ s ∈ slots, s ∈ n.slots) :
    Ordered (exposedIn slots) start stop := by
  refine ordered_exposedIn h fun c hc => ?_
  obtain ⟨s, hs, hc⟩ := List.mem_filterMap.1 hc
  exact (hn.child (List.mem_filterMap.2 ⟨s, hslots s hs, hc⟩)).ordered

/-! ## Ways down a tree -/

/-- A step down a tree: the node where it starts, and the slots that it passes by. -/
structure Step where
  node : Node
  before : List Child

/-- Whether the steps lead from one node down to another. -/
inductive Way : Node → List Step → Node → Prop
  | here (n : Node) : Way n [] n
  | down {n c r : Node} {before after : List Child} {way : List Step}
    (hslots : n.slots = before ++ .node c :: after) (h : Way c way r) : Way n (⟨n, before⟩ :: way) r

/-- A scope above a node, with the declarations in it before the node, the latest first. -/
structure Frame where
  scope : Node
  locals : List Node

/-- The declarations that are passed by on a way and lie in no scope on it, the latest first. -/
def passed : List Step → List Node
  | [] => []
  | step :: way =>
    if step.node.kind.opensScope then [] else passed way ++ (exposedIn step.before).reverse

/-- The scopes on a way, the innermost first. -/
def frames : List Step → List Frame
  | [] => []
  | step :: way =>
    frames way ++ if step.node.kind.opensScope then
      [⟨step.node, passed way ++ (exposedIn step.before).reverse⟩] else []

/-- The declaration that a name means among those of several scopes: the first that is found. -/
def lookup (fs : List Frame) (name : String) : Option Node :=
  fs.findSome? fun frame => frame.locals.find? fun d => d.declaresLocal name

/-- Whether `ds` are the declarations among `all` that end before a node starts, the latest
first. -/
structure LatestFirst (all : List Node) (r : Node) (ds : List Node) : Prop where
  mem_iff : ∀ d, d ∈ ds ↔ d ∈ all ∧ d.fullSpan.stop ≤ r.fullSpan.start
  sorted : ds.Pairwise fun d d' => d'.fullSpan.stop ≤ d.fullSpan.start

namespace Way

variable {way : List Step} {before after : List Child} {ds : List Node}

theorem mem (h : Way n way r) : r ∈ n.preorder := by
  induction h with
  | here n => exact n.self_mem_preorder
  | down hslots _ ih =>
    refine mem_preorder.2 (.inr ⟨_, mem_children.2 ?_, ih⟩)
    rw [hslots]
    exact List.mem_append_right _ List.mem_cons_self

theorem exists_way (hr : r ∈ n.preorder) : ∃ way, Way n way r := by
  induction n using induct with
  | h n ih =>
    rcases mem_preorder.1 hr with rfl | ⟨c, hc, hr⟩
    · exact ⟨[], .here r⟩
    · obtain ⟨way, hway⟩ := ih c hc hr
      obtain ⟨before, after, hslots⟩ := List.append_of_mem (mem_children.1 hc)
      exact ⟨_, .down hslots hway⟩

/-- One step further up the declarations in the slots passed by come before the others. -/
theorem latestFirst_step (hn : n.Regular) (hslots : n.slots = before ++ .node c :: after)
    (hr : r ∈ c.preorder) (h : LatestFirst c.exposed r ds) :
    LatestFirst (exposedIn n.slots) r (ds ++ (exposedIn before).reverse) := by
  have hc : c ∈ n.children := mem_children.2 (by rw [hslots]; simp)
  have htiles := hn.tiles
  rw [hslots, tiles_append] at htiles
  obtain ⟨mid, hbefore, stop, hspan, hafter⟩ := htiles
  have hspan : c.fullSpan = ⟨mid, stop⟩ := hspan
  have hfirst := hn.orderedIn hbefore fun s hs => by simp [hslots, hs]
  have hmiddle := (hn.child hc).ordered
  have hlast := hn.orderedIn hafter fun s hs => by simp [hslots, hs]
  have hplace := (hn.child hc).span_mem hr
  rw [hspan] at hmiddle hplace
  constructor
  · intro d
    rw [hslots, exposedIn_append, exposedIn, List.mem_append, List.mem_append, List.mem_append,
      List.mem_reverse, h.mem_iff]
    constructor
    · rintro (⟨hd, hbefore⟩ | hd)
      · exact ⟨.inr (.inl hd), hbefore⟩
      · exact ⟨.inl hd, (hfirst.inside d hd).2.2.trans hplace.1⟩
    · rintro ⟨hd | hd | hd, hbefore⟩
      · exact .inr hd
      · exact .inl ⟨hd, hbefore⟩
      · -- What lies behind `c` does not end before `r` starts.
        have := hlast.inside d hd
        dsimp only at hplace
        omega
  · refine List.pairwise_append.2 ⟨h.sorted, List.pairwise_reverse.2 hfirst.sorted, ?_⟩
    intro d hd d' hd'
    have hd := hmiddle.inside d ((h.mem_iff d).1 hd).1
    have hd' := hfirst.inside d' (List.mem_reverse.1 hd')
    dsimp only at hd
    omega

/-- The scopes on a way are above its end. -/
theorem frame_mem (h : Way n way r) : ∀ frame ∈ frames way,
    frame.scope ∈ n.preorder ∧ frame.scope.kind.opensScope ∧ frame.scope.Above r := by
  induction h with
  | here n => exact fun _ hframe => nomatch hframe
  | @down n c r before after way hslots h ih =>
    have hc : c ∈ n.children := mem_children.2 (by rw [hslots]; simp)
    rw [frames]
    refine List.forall_mem_append.2 ⟨fun frame hframe => ?_, ?_⟩
    · obtain ⟨hmem, hrest⟩ := ih frame hframe
      exact ⟨mem_preorder.2 (.inr ⟨c, hc, hmem⟩), hrest⟩
    · dsimp only
      split
      · rename_i hscope
        exact List.forall_mem_singleton.2 ⟨n.self_mem_preorder, hscope, ⟨c, hc, h.mem⟩⟩
      · exact fun _ hframe => nomatch hframe

/-- Each scope on a way is below those behind it. -/
theorem pairwise_frames (h : Way n way r) :
    (frames way).Pairwise fun inner outer => outer.scope.Above inner.scope := by
  induction h with
  | here n => exact .nil
  | @down n c r before after way hslots h ih =>
    have hc : c ∈ n.children := mem_children.2 (by rw [hslots]; simp)
    rw [frames]
    dsimp only
    refine List.pairwise_append.2 ⟨ih, ?_, fun frame hframe outer houter => ?_⟩
    · split <;> simp
    · split at houter
      · rw [List.mem_singleton.1 houter]
        exact ⟨c, hc, (h.frame_mem frame hframe).1⟩
      · cases houter

variable (h : Way n way r) (hn : n.Regular)

include h hn

/-- Every scope above the end of a way is on it. -/
theorem exists_frame (hm : m ∈ n.preorder) (hscope : m.kind.opensScope) (habove : m.Above r) :
    ∃ frame ∈ frames way, frame.scope = m := by
  induction h with
  | here n => exact absurd (above_of_mem hm habove) hn.not_above_self
  | @down n c r before after way hslots h ih =>
    have hc : c ∈ n.children := mem_children.2 (by rw [hslots]; simp)
    rcases mem_preorder.1 hm with rfl | ⟨c', hc', hm⟩
    · refine ⟨⟨m, passed way ++ (exposedIn before).reverse⟩, List.mem_append_right _ ?_, rfl⟩
      dsimp only
      rw [if_pos hscope]
      exact List.mem_singleton_self _
    · obtain rfl := child_unique hn.ids hc' hc (above_of_mem hm habove).mem h.mem
      obtain ⟨frame, hframe, hm⟩ := ih (hn.child hc') hm habove
      exact ⟨frame, List.mem_append_left _ hframe, hm⟩

variable (hr : r.fullSpan.start < r.fullSpan.stop)

include hr

theorem latestFirst_passed : LatestFirst n.exposed r (passed way) := by
  induction h with
  | here n =>
    refine ⟨fun d => ⟨fun hd => (nomatch hd), fun ⟨hd, hbefore⟩ => ?_⟩, .nil⟩
    have := hn.ordered.inside d hd
    omega
  | @down n c r before after way hslots h ih =>
    have hc : c ∈ n.children := mem_children.2 (by rw [hslots]; simp)
    have hstep := latestFirst_step hn hslots h.mem (ih (hn.child hc) hr)
    rw [passed, exposed_eq]
    dsimp only
    split
    · exact ⟨fun d => ⟨fun hd => (nomatch hd), fun ⟨hd, _⟩ => (nomatch hd)⟩, .nil⟩
    · refine ⟨fun d => ?_, hstep.sorted⟩
      rw [hstep.mem_iff, List.mem_append]
      refine ⟨fun ⟨hd, hbefore⟩ => ⟨.inl hd, hbefore⟩, fun ⟨hd, hbefore⟩ => ⟨?_, hbefore⟩⟩
      refine hd.resolve_right fun hself => ?_
      -- The node itself ends behind `r`.
      split at hself
      · rw [List.mem_singleton.1 hself] at hbefore
        have := hn.span_mem (Way.down hslots h).mem
        omega
      · cases hself

/-- In each scope on a way are the declarations before its end. -/
theorem latestFirst_locals : ∀ frame ∈ frames way,
    LatestFirst (exposedIn frame.scope.slots) r frame.locals := by
  induction h with
  | here n => exact fun _ hframe => nomatch hframe
  | @down n c r before after way hslots h ih =>
    have hc : c ∈ n.children := mem_children.2 (by rw [hslots]; simp)
    rw [frames]
    refine List.forall_mem_append.2 ⟨ih (hn.child hc) hr, ?_⟩
    dsimp only
    split
    · refine List.forall_mem_singleton.2 ?_
      exact latestFirst_step hn hslots h.mem (h.latestFirst_passed (hn.child hc) hr)
    · exact fun _ hframe => nomatch hframe

theorem isVisibleAt_of_mem {frame : Frame} (hframe : frame ∈ frames way) (hd : d ∈ frame.locals)
    (hname : d.declaresLocal name) : n.IsVisibleAt r name frame.scope d := by
  obtain ⟨hmem, hscope, habove⟩ := h.frame_mem frame hframe
  obtain ⟨hin, hbefore⟩ := ((h.latestFirst_locals hn hr frame hframe).mem_iff d).1 hd
  have hisScope := ((hn.below hmem).isScopeOf_iff hscope (above_of_mem_exposedIn hin).2).2 hin
  exact ⟨hmem, hname, hisScope, hbefore, habove⟩

theorem exists_frame_of_isVisibleAt (hd : n.IsVisibleAt r name scope d) :
    ∃ frame ∈ frames way, frame.scope = scope ∧ d ∈ frame.locals := by
  have hscope := NodeKind.opensScope_of_holdsLocal hd.isScopeOf.holds
  obtain ⟨frame, hframe, rfl⟩ := h.exists_frame hn hd.mem hscope hd.above
  obtain ⟨t, ht, -⟩ := exists_localName_of_declaresLocal hd.declares
  have hin := ((hn.below hd.mem).isScopeOf_iff hscope (by rw [ht]; rfl)).1 hd.isScopeOf
  exact ⟨frame, hframe, rfl,
    ((h.latestFirst_locals hn hr frame hframe).mem_iff d).2 ⟨hin, hd.before⟩⟩

/-- **What is found on the way** by a name is what the name means at its end. -/
theorem isLocalAt_of_lookup (hd : lookup (frames way) name = some d) : n.IsLocalAt r name d := by
  obtain ⟨inner, frame, outer, hframes, hfind, hinner⟩ := List.findSome?_eq_some_iff.1 hd
  obtain ⟨hname, later, earlier, hlocals, hlater⟩ := List.find?_eq_some_iff_append.1 hfind
  have hpairwise := h.pairwise_frames
  have hframe : frame ∈ frames way := by rw [hframes]; simp
  have hsorted := (h.latestFirst_locals hn hr frame hframe).sorted
  rw [hframes, List.pairwise_append] at hpairwise
  rw [hlocals, List.pairwise_append] at hsorted
  refine ⟨frame.scope, h.isVisibleAt_of_mem hn hr hframe (by rw [hlocals]; simp) hname, ?_⟩
  intro scope' d' hd'
  obtain ⟨frame', hframe', rfl, hmem⟩ := h.exists_frame_of_isVisibleAt hn hr hd'
  rw [hframes, List.mem_append, List.mem_cons] at hframe'
  rcases hframe' with hframe' | rfl | hframe'
  · -- In the scopes further in the name is not declared.
    have hnone := List.find?_eq_none.1 (hinner frame' hframe') d' hmem
    exact absurd hd'.declares hnone
  · refine .inr ⟨rfl, ?_⟩
    rw [hlocals, List.mem_append, List.mem_cons] at hmem
    rcases hmem with hmem | rfl | hmem
    · have := hlater d' hmem
      rw [hd'.declares] at this
      cases this
    · exact .inl rfl
    · exact .inr ((List.pairwise_cons.1 hsorted.2.1).1 d' hmem)
  · exact .inl ((List.pairwise_cons.1 hpairwise.2.1).1 frame' hframe')

theorem not_isVisibleAt_of_lookup (hd : lookup (frames way) name = none) (scope d : Node) :
    ¬ n.IsVisibleAt r name scope d := by
  intro hvisible
  obtain ⟨frame, hframe, -, hmem⟩ := h.exists_frame_of_isVisibleAt hn hr hvisible
  have hnone := List.findSome?_eq_none_iff.1 hd frame hframe
  exact absurd hvisible.declares (List.find?_eq_none.1 hnone d hmem)

end Way

/-- Where a variable of a name is visible the name means one. -/
theorem IsVisibleAt.exists_isLocalAt (hn : n.Regular) (hr : r.fullSpan.start < r.fullSpan.stop)
    (h : n.IsVisibleAt r name scope d) : ∃ k, n.IsLocalAt r name k := by
  obtain ⟨way, hway⟩ := Way.exists_way (above_of_mem h.mem h.above).mem
  cases hlookup : lookup (frames way) name with
  | none => exact absurd h (hway.not_isVisibleAt_of_lookup hn hr hlookup scope d)
  | some k => exact ⟨k, hway.isLocalAt_of_lookup hn hr hlookup⟩

theorem IsLocalAt.mem (h : n.IsLocalAt r name d) : d ∈ n.preorder := by
  obtain ⟨scope, hvisible, -⟩ := h
  exact (above_of_mem hvisible.mem hvisible.isScopeOf.above).mem

theorem IsLocalAt.declares (h : n.IsLocalAt r name d) : d.declaresLocal name := by
  obtain ⟨scope, hvisible, -⟩ := h
  exact hvisible.declares

/-- A name means one declaration at a node. -/
theorem IsLocalAt.unique (hn : n.Regular) (h : n.IsLocalAt r name d) (h' : n.IsLocalAt r name k) :
    d = k := by
  obtain ⟨scope, hd, hbest⟩ := h
  obtain ⟨scope', hk, hbest'⟩ := h'
  have hnot : ¬ scope.Above scope := (hn.below hd.mem).not_above_self
  have hwidth : ∀ {scope d : Node}, n.IsVisibleAt r name scope d →
      d.fullSpan.start < d.fullSpan.stop := by
    intro scope d hd
    obtain ⟨t, ht, -⟩ := exists_localName_of_declaresLocal hd.declares
    exact hn.width (above_of_mem hd.mem hd.isScopeOf.above).mem (by rw [ht]; rfl)
  rcases hbest scope' k hk with habove | ⟨rfl, hlast⟩
  · rcases hbest' scope d hd with habove' | ⟨rfl, -⟩
    · exact absurd (habove'.of_mem habove.mem) hnot
    · exact absurd habove hnot
  · rcases hlast with rfl | hlast
    · rfl
    · rcases hbest' scope' d hd with habove' | ⟨-, rfl | hlast'⟩
      · exact absurd habove' hnot
      · rfl
      · have := hwidth hd
        have := hwidth hk
        omega

end Node

end Xref
