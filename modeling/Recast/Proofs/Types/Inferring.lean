-- SUMMARY: Typing an expression ends: it goes from uses to the initializers of earlier declarations and from calls to their receivers, never in a circle.
import Recast.Proofs.Tree.Spans
import Recast.Types.SourceModel

/-! # Inferred types

The type of a variable that is declared with `var` is that of its initializer, so that typing jumps
from a use to another place in the file. `SourceModel.Asks` says what typing goes on to from a
site, and a derivation of `SourceModel.Types` is a run of it, without a bound. What is asked about
comes before the site that asks in one order of the tree (`Node.Before`): what is below a node
comes before it, an earlier statement before a later one, and an initializer before the rest of
its declaration. So as many steps are enough as the tree has nodes. -/

namespace Recast

namespace SourceModel

variable {m : SourceModel} {f g : Site → Option TypeSymbol}

/-! ## What typing goes on to -/

/-- Typing the first site may go on to the second. -/
inductive Asks (m : SourceModel) (s : Site) : (asked : Site) → Prop where
  /-- An expression in parentheses asks about what they hold. -/
  | inner {u : Site} (hkind : s.kind = .parenthesizedExpression) (hfirst : s.firstChild? = some u) :
      Asks m s u
  /-- A variable declared with `var` asks about its initializer. -/
  | initializer {u : Site} {name : String} (hkind : s.kind = .identifierName)
      (hname : s.identifier? = some name) (hvisible : Binding.visible? s name = some (.inferred u)) :
      Asks m s u
  /-- A member access asks about its receiver, unless that names a type. -/
  | receiver {u : Site} (hkind : s.kind = .memberAccessExpression) (hfirst : s.firstChild? = some u)
      (hno : m.receiverType? u = none) : Asks m s u
  /-- A member access asks about the initializer of a member that the file declares with `var`. -/
  | member {owner : TypeSymbol} {name : String} {declaration u : Site}
      (hkind : s.kind = .memberAccessExpression)
      (hdeclaration : m.declaration? owner = some declaration)
      (hmember : Binding.inType? declaration name = some (.inferred u)) : Asks m s u
  /-- A call of a member asks about the receiver, unless that names a type. -/
  | callee {callee u : Site} (hkind : s.kind = .invocationExpression)
      (hcallee : s.firstChild? = some callee) (haccess : callee.kind = .memberAccessExpression)
      (hfirst : callee.firstChild? = some u) (hno : m.receiverType? u = none) : Asks m s u

theorem bindingType?_congr {b : Binding} (h : ∀ u, b = .inferred u → f u = g u) :
    m.bindingType? f b = m.bindingType? g b := by
  cases b with
  | typed | untyped => rfl
  | inferred u => exact h u rfl

theorem memberType?_congr {owner : TypeSymbol} {name : String}
    (h : ∀ declaration u, m.declaration? owner = some declaration →
      Binding.inType? declaration name = some (.inferred u) → f u = g u) :
    m.memberType? f owner name = m.memberType? g owner name := by
  unfold memberType?
  split
  · rename_i declaration hdeclaration
    refine Option.bind_congr fun b hb => bindingType?_congr ?_
    rintro u rfl
    exact h declaration u hdeclaration hb
  · rfl

theorem callWith?_congr {s : Site} (hkind : s.kind = .invocationExpression)
    (h : ∀ u, m.Asks s u → f u = g u) : m.callWith? f s = m.callWith? g s := by
  unfold callWith?
  refine Option.bind_congr fun callee hcallee => ?_
  split
  · rename_i haccess
    split
    · rename_i receiver name hfirst _
      split
      · rfl
      · rename_i hno
        rw [h receiver (.callee hkind hcallee haccess hfirst hno)]
    · rfl
  · rfl
  · rfl
  · rfl

/-- What typing finds depends only on the types of what it asks about. -/
theorem typeWith?_congr {s : Site} (h : ∀ u, m.Asks s u → f u = g u) :
    m.typeWith? f s = m.typeWith? g s := by
  unfold typeWith?
  split
  · rfl
  · rfl
  · rfl
  · rename_i hkind
    exact Option.bind_congr fun u hfirst => h u (.inner hkind hfirst)
  · rfl
  · rename_i hkind
    refine Option.bind_congr fun name hname => Option.bind_congr fun b hvisible => ?_
    refine bindingType?_congr ?_
    rintro u rfl
    exact h u (.initializer hkind hname hvisible)
  · rename_i hkind
    split
    · rename_i receiver name hfirst _
      -- The receiver is typed only where it names no type itself.
      have howner : (m.receiverType? receiver <|> f receiver) =
          (m.receiverType? receiver <|> g receiver) := by
        rcases hno : m.receiverType? receiver with _ | owner
        · rw [h receiver (.receiver hkind hfirst hno)]
        · rfl
      rw [howner]
      exact Option.bind_congr fun owner _ => memberType?_congr fun declaration u hdeclaration hmember =>
        h u (.member hkind hdeclaration hmember)
    · rfl
  · rename_i hkind
    rw [callWith?_congr hkind h]
  · rfl

/-! ## Runs -/

/-- A run of typing: what is found at a site, with a run for all that is asked about. -/
inductive Types (m : SourceModel) : Site → (found : Option TypeSymbol) → Prop where
  | step {s : Site} (typeOf : Site → Option TypeSymbol)
      (asked : ∀ u, m.Asks s u → Types m u (typeOf u)) : Types m s (m.typeWith? typeOf s)

/-- A run of binding a call. -/
inductive Calls (m : SourceModel) (call : Site) : (found : Option MethodSymbol) → Prop where
  | step (typeOf : Site → Option TypeSymbol) (asked : ∀ u, m.Asks call u → m.Types u (typeOf u)) :
      Calls m call (m.callWith? typeOf call)

/-- All runs from a site find the same. -/
theorem Types.unique {s : Site} {found other : Option TypeSymbol} (h : m.Types s found)
    (hother : m.Types s other) : other = found := by
  induction h generalizing other with
  | step f _ ih =>
    cases hother with
    | step g asked => exact typeWith?_congr fun u hu => ih u hu (asked u hu)

theorem Calls.unique {call : Site} (hkind : call.kind = .invocationExpression)
    {found other : Option MethodSymbol} (h : m.Calls call found) (hother : m.Calls call other) :
    other = found := by
  obtain ⟨f, asked⟩ := h
  obtain ⟨g, asked'⟩ := hother
  exact callWith?_congr hkind fun u hu => (asked u hu).unique (asked' u hu)

end SourceModel

/-! ## The order of a tree -/

namespace Node

variable {n m : Node}

/-- The part of a declaration that comes before the others: the one that leads to the initializer. -/
def leadingIndex? (n : Node) : Option Nat :=
  match n.kind with
  | .localDeclarationStatement => n.indexOf? .variableDeclaration
  | .variableDeclaration => n.indexOf? .variableDeclarator
  | .variableDeclarator => n.indexOf? .equalsValueClause
  | .equalsValueClause => n.children.findIdx? fun e => e.node?.isSome
  | _ => none

/-- When the part at an index has its turn. -/
def turn (n : Node) (i : Nat) : Nat :=
  if n.leadingIndex? = some i then 0 else i + 1

/-- True when the node at the first path comes before the one at the second: it is below that one,
    or the part that it is in has its turn before. -/
def before : Node → Path → Path → Bool
  | _, [], _ => false
  | _, _ :: _, [] => true
  | n, i :: p, j :: q =>
    decide (n.turn i < n.turn j) || (i == j &&
      match n.children[i]? with
      | some (.node c) => before c p q
      | _ => false)

theorem before_cons {i j : Nat} {p q : Path} : n.before (i :: p) (j :: q) = true ↔
    n.turn i < n.turn j ∨ i = j ∧ ∃ c, n.children[i]? = some (.node c) ∧ c.before p q = true := by
  simp only [before, Bool.or_eq_true, decide_eq_true_eq, Bool.and_eq_true, beq_iff_eq]
  refine or_congr_right (and_congr_right fun _ => ?_)
  split
  · rename_i c hc
    simp [hc]
  · rename_i hnone
    simp only [Bool.false_eq_true, false_iff]
    rintro ⟨c, hc, -⟩
    exact hnone c hc

theorem before_irrefl (n : Node) (p : Path) : n.before p p = false := by
  induction p generalizing n with
  | nil => rfl
  | cons i p ih =>
    refine Bool.eq_false_iff.2 fun h => ?_
    rcases before_cons.1 h with h | ⟨-, c, -, h⟩
    · exact Nat.lt_irrefl _ h
    · exact Bool.false_ne_true ((ih c).symm.trans h)

theorem before_trans {p q r : Path} (hp : n.before p q = true) (hq : n.before q r = true) :
    n.before p r = true := by
  induction p generalizing n q r with
  | nil => cases hp
  | cons i p ih =>
    cases r with
    | nil => rfl
    | cons k r =>
      cases q with
      | nil => cases hq
      | cons j q =>
        rw [before_cons] at hp hq ⊢
        rcases hp with hp | ⟨rfl, c, hc, hp⟩
        · rcases hq with hq | ⟨rfl, -⟩
          · exact .inl (Nat.lt_trans hp hq)
          · exact .inl hp
        · rcases hq with hq | ⟨rfl, c', hc', hq⟩
          · exact .inl hq
          · obtain rfl := Element.node.inj (Option.some.inj (hc.symm.trans hc'))
            exact .inr ⟨rfl, c, hc, ih hp hq⟩

/-- Below a node the order is that of the node. -/
theorem before_append {a p q : Path} (h : n.at? a = some m) :
    n.before (a ++ p) (a ++ q) = m.before p q := by
  induction a generalizing n with
  | nil =>
    obtain rfl := Option.some.inj h
    rfl
  | cons i a ih =>
    obtain ⟨c, hc, h⟩ := at?_cons_eq_some.1 h
    rw [← ih h, Bool.eq_iff_iff, List.cons_append, List.cons_append, before_cons]
    constructor
    · rintro (hturn | ⟨-, c', hc', hbefore⟩)
      · exact absurd hturn (Nat.lt_irrefl _)
      · obtain rfl := Element.node.inj (Option.some.inj (hc.symm.trans hc'))
        exact hbefore
    · exact fun hbefore => .inr ⟨rfl, c, hc, hbefore⟩

/-- What is below a node comes before it. -/
theorem before_of_below {a p : Path} (h : n.at? a = some m) (hp : p ≠ []) :
    n.before (a ++ p) a = true := by
  obtain ⟨i, p, rfl⟩ := List.exists_cons_of_ne_nil hp
  rw [← List.append_nil a, List.append_assoc, before_append h]
  rfl

/-- The leading part comes before all that is not in it. -/
theorem before_of_leading {i : Nat} {c : Node} {p q : Path} (hi : n.leadingIndex? = some i)
    (hc : n.children[i]? = some (.node c)) (h : ∀ q', q = i :: q' → c.before p q' = true) :
    n.before (i :: p) q = true := by
  cases q with
  | nil => rfl
  | cons j q =>
    rw [before_cons]
    by_cases hj : i = j
    · subst hj
      exact .inr ⟨rfl, c, hc, h q rfl⟩
    · refine .inl ?_
      have hother : n.leadingIndex? ≠ some j := fun hleading =>
        hj (Option.some.inj (hi.symm.trans hleading))
      rw [turn, if_pos hi, turn, if_neg hother]
      exact Nat.succ_pos j

end Node

/-! ## Children by their place -/

/-- The identifier of a node is one of its tokens. -/
theorem Node.exists_token_of_identifier? {n : Node} {name : String} (h : n.identifier? = some name) :
    ∃ token ∈ n.tokens, token.kind = .identifier ∧ token.text = name := by
  obtain ⟨token, htoken, rfl⟩ := Option.map_eq_some_iff.1 h
  obtain ⟨e, he, hchild⟩ := List.mem_filterMap.1 (List.mem_of_find?_eq_some htoken)
  obtain rfl : e = .token token := by
    cases e with
    | token t => rw [Option.some.inj hchild]
    | node c => cases hchild
  refine ⟨token, ?_, eq_of_beq (List.find?_some (p := fun t : Token => t.kind == .identifier) htoken),
    rfl⟩
  rw [Node.tokens_eq]
  exact Element.mem_tokensIn he (List.mem_singleton_self token)

namespace Site

variable {t : Tree} {s u : Site}

/-- The first child that is wanted stands at the index of the first part that is. -/
theorem exists_of_find?_childrenFrom {wanted : Node → Bool} {es : List Element} {k : Nat}
    (h : ((s.childrenFrom k es).find? fun c => wanted c.node) = some u) :
    ∃ i, (es.findIdx? fun e => e.node?.any wanted) = some i ∧ u.path = s.path ++ [k + i] ∧
      es[i]? = some (.node u.node) := by
  induction es generalizing k with
  | nil => cases h
  | cons e es ih =>
    cases e with
    | token t =>
      obtain ⟨i, hi, hpath, hchild⟩ := ih h
      refine ⟨i + 1, ?_, by rw [hpath, Nat.add_assoc, Nat.add_comm 1 i], hchild⟩
      rw [List.findIdx?_cons, if_neg (by simp [Element.node?]), hi]
      rfl
    | node c =>
      rw [childrenFrom_node, List.find?_cons] at h
      rcases hc : wanted c with _ | _
      · rw [hc] at h
        obtain ⟨i, hi, hpath, hchild⟩ := ih h
        refine ⟨i + 1, ?_, by rw [hpath, Nat.add_assoc, Nat.add_comm 1 i], hchild⟩
        rw [List.findIdx?_cons, if_neg (by simp [Element.node?, hc]), hi]
        rfl
      · rw [hc] at h
        obtain rfl := Option.some.inj h
        refine ⟨0, ?_, rfl, rfl⟩
        rw [List.findIdx?_cons, if_pos (by simp [Element.node?, hc])]

theorem exists_of_find?_children {wanted : Node → Bool}
    (h : (s.children.find? fun c => wanted c.node) = some u) :
    ∃ i, (s.node.children.findIdx? fun e => e.node?.any wanted) = some i ∧
      u.path = s.path ++ [i] ∧ s.node.children[i]? = some (.node u.node) := by
  rw [children_eq] at h
  simpa only [Nat.zero_add] using exists_of_find?_childrenFrom h

theorem exists_of_child? {kind : Kind} (h : s.child? kind = some u) :
    ∃ i, s.node.indexOf? kind = some i ∧ u.path = s.path ++ [i] ∧
      s.node.children[i]? = some (.node u.node) := by
  have hwanted : (fun e : Element => e.isNode kind) = fun e => e.node?.any fun n => n.kind == kind := by
    funext e
    cases e <;> rfl
  rw [Node.indexOf?, hwanted]
  exact exists_of_find?_children h

theorem exists_of_firstChild? (h : s.firstChild? = some u) :
    ∃ i, (s.node.children.findIdx? fun e => e.node?.isSome) = some i ∧ u.path = s.path ++ [i] ∧
      s.node.children[i]? = some (.node u.node) := by
  have hwanted : (fun e : Element => e.node?.isSome) = fun e => e.node?.any fun _ => true := by
    funext e
    cases e <;> rfl
  rw [hwanted]
  refine exists_of_find?_children ?_
  obtain ⟨us, hus⟩ := List.head?_eq_some_iff.1 h
  rw [hus]
  rfl

theorem map_node_childrenFrom (s : Site) (k : Nat) (es : List Element) :
    (s.childrenFrom k es).map Site.node = es.filterMap Element.node? := by
  induction es generalizing k with
  | nil => rfl
  | cons e es ih =>
    cases e with
    | token t => exact ih (k + 1)
    | node c => exact congrArg (c :: ·) (ih (k + 1))

/-- The only child of a kind is the first one. -/
theorem child?_of_single {kind : Kind} (hsingle : (s.node.childrenOf kind).length = 1)
    (hu : u ∈ s.children) (hkind : u.kind = kind) : s.child? kind = some u := by
  have hlength : (s.children.filter fun c => c.kind == kind).length = 1 := by
    rw [← hsingle, Node.childrenOf, Node.childNodes, ← s.map_node_childrenFrom 0, ← children_eq,
      List.filter_map, List.length_map]
    rfl
  obtain ⟨v, hv⟩ := List.length_eq_one_iff.1 hlength
  have hmem : u ∈ s.children.filter fun c => c.kind == kind :=
    List.mem_filter.2 ⟨hu, beq_iff_eq.2 hkind⟩
  obtain rfl := List.mem_singleton.1 (hv ▸ hmem)
  rw [child?, ← List.head?_filter, hv]
  rfl

theorem parent?_of_mem_children (hs : s ∈ t.sites) (h : u ∈ s.children) : u.parent? = some s := by
  obtain ⟨i, -, hpath, -⟩ := exists_of_mem_children h
  obtain ⟨hroot, hat⟩ := Tree.mem_sites_iff.1 hs
  rw [parent?, hpath, Path.parent?_child, Option.bind_some,
    goto?_of_mem (children_mem hs h), hat, ← hroot]
  rfl

end Site

/-! ## Inferred variables -/

/-- The declaration leaves the type of its variables to their initializers. -/
def Site.Infers (d : Site) : Prop :=
  d.kind = .variableDeclaration ∧ ∃ type, d.typeChild? = some type ∧
    type.kind = .identifierName ∧ type.identifier? = some "var"

/-- Fields have their types written out, and the type of a local variable is left to an initializer
    only where it is the only variable of its declaration, and where the initializer does not name
    the variable itself. -/
structure Tree.InfersPlainly (t : Tree) : Prop where
  field : ∀ d ∈ t.sites, d.Infers → ∀ p, d.parent? = some p → p.kind ≠ .fieldDeclaration
  single : ∀ d ∈ t.sites, d.Infers → ∀ p, d.parent? = some p → p.kind = .localDeclarationStatement →
    (d.node.childrenOf .variableDeclarator).length = 1
  fresh : ∀ d ∈ t.sites, d.Infers → ∀ p, d.parent? = some p → p.kind = .localDeclarationStatement →
    ∀ v ∈ d.children, v.kind = .variableDeclarator → ∀ name, v.identifier? = some name →
    ∀ initializer, (v.child? .equalsValueClause).bind Site.firstChild? = some initializer →
    ∀ token ∈ initializer.node.tokens, token.kind = .identifier → token.text ≠ name

/-- Tells whether `Site.Infers` holds. -/
def Site.infers (d : Site) : Bool :=
  d.kind == .variableDeclaration &&
    d.typeChild?.any fun type => type.kind == .identifierName && type.identifier? == some "var"

theorem Site.infers_iff {d : Site} : d.infers = true ↔ d.Infers := by
  simp [infers, Infers, Option.any_eq_true]

/-- Tells whether `Tree.InfersPlainly` holds. -/
def Tree.infersPlainly (t : Tree) : Bool :=
  t.sites.all fun d => !d.infers || d.parent?.all fun p =>
    p.kind != .fieldDeclaration && (p.kind != .localDeclarationStatement ||
      (d.node.childrenOf .variableDeclarator).length == 1 &&
      d.children.all fun v => v.kind != .variableDeclarator || v.identifier?.all fun name =>
        ((v.child? .equalsValueClause).bind Site.firstChild?).all fun initializer =>
          initializer.node.tokens.all fun token => token.kind != .identifier || token.text != name)

theorem Tree.infersPlainly_iff {t : Tree} : t.infersPlainly = true ↔ t.InfersPlainly := by
  simp only [infersPlainly, List.all_eq_true, Bool.or_eq_true, Bool.not_eq_true', Option.all_eq_true,
    Bool.and_eq_true, bne_iff_ne, beq_iff_eq, ← Bool.not_eq_true, Site.infers_iff]
  constructor
  · intro h
    have hlocal : ∀ d ∈ t.sites, d.Infers → ∀ p, d.parent? = some p →
        p.kind ≠ .fieldDeclaration ∧ (p.kind ≠ .localDeclarationStatement ∨ _) :=
      fun d hd hinfers p hp => (h d hd).resolve_left (not_not_intro hinfers) p hp
    refine ⟨fun d hd hinfers p hp => (hlocal d hd hinfers p hp).1, ?_, ?_⟩
    · intro d hd hinfers p hp hkind
      exact ((hlocal d hd hinfers p hp).2.resolve_left (not_not_intro hkind)).1
    · intro d hd hinfers p hp hkind v hv hv_kind name hname u hu token htoken hidentifier
      have hv_all := ((hlocal d hd hinfers p hp).2.resolve_left (not_not_intro hkind)).2 v hv
      exact (hv_all.resolve_left (not_not_intro hv_kind) name hname u hu token htoken).resolve_left
        (not_not_intro hidentifier)
  · intro h d hd
    refine or_iff_not_imp_left.2 fun hinfers p hp => ?_
    have hinfers := not_not.1 hinfers
    refine ⟨h.field d hd hinfers p hp, or_iff_not_imp_left.2 fun hkind => ?_⟩
    have hkind := not_not.1 hkind
    refine ⟨h.single d hd hinfers p hp hkind, fun v hv => or_iff_not_imp_left.2 fun hv_kind => ?_⟩
    intro name hname u hu token htoken
    exact or_iff_not_imp_left.2 fun hidentifier => h.fresh d hd hinfers p hp hkind v hv
      (not_not.1 hv_kind) name hname u hu token htoken (not_not.1 hidentifier)

instance (t : Tree) : Decidable t.InfersPlainly :=
  decidable_of_iff _ Tree.infersPlainly_iff

namespace Binding

variable {s u scope declaration : Site} {name : String}

theorem inDeclaration?_inferred (h : inDeclaration? declaration name = some (.inferred u)) :
    (∃ type, declaration.typeChild? = some type ∧ type.kind = .identifierName ∧
        type.identifier? = some "var") ∧
      ∃ v ∈ declaration.children, v.kind = .variableDeclarator ∧ v.identifier? = some name ∧
        (v.child? .equalsValueClause).bind Site.firstChild? = some u := by
  unfold inDeclaration? at h
  obtain ⟨v, hv, h⟩ := Option.bind_eq_some_iff.1 h
  obtain ⟨type, htype, h⟩ := Option.bind_eq_some_iff.1 h
  have hwanted := List.find?_some hv
  simp only [Bool.and_eq_true, beq_iff_eq] at hwanted
  split at h
  · rename_i hvar
    simp only [Bool.and_eq_true, beq_iff_eq] at hvar
    split at h
    · rename_i initializer hinitializer
      obtain rfl : initializer = u := Binding.inferred.inj (Option.some.inj h)
      exact ⟨⟨type, htype, hvar⟩, v, List.mem_of_find?_eq_some hv, hwanted.1, hwanted.2, hinitializer⟩
    · cases Option.some.inj h
  · cases Option.some.inj h

theorem inParameters?_ne_inferred {list : Site} : inParameters? list name ≠ some (.inferred u) := by
  intro h
  obtain ⟨parameter, -, h⟩ := Option.bind_eq_some_iff.1 h
  split at h <;> cases h

theorem inParameterList?_ne_inferred : inParameterList? scope name ≠ some (.inferred u) := by
  intro h
  obtain ⟨list, -, h⟩ := Option.bind_eq_some_iff.1 h
  exact inParameters?_ne_inferred h

/-- Only a field of a type can have its type inferred. -/
theorem inType?_inferred (h : inType? declaration name = some (.inferred u)) :
    ∃ member ∈ declaration.children, member.kind = .fieldDeclaration ∧
      ∃ d, member.child? .variableDeclaration = some d ∧ inDeclaration? d name = some (.inferred u) := by
  unfold inType? at h
  generalize declaration.children = members at h ⊢
  induction members with
  | nil => cases h
  | cons member members ih =>
    have hrest : amongMembers? name members = some (.inferred u) → ∃ other ∈ member :: members,
        other.kind = .fieldDeclaration ∧ ∃ d, other.child? .variableDeclaration = some d ∧
          inDeclaration? d name = some (.inferred u) := by
      intro h
      obtain ⟨other, hother, hfound⟩ := ih h
      exact ⟨other, List.mem_cons_of_mem _ hother, hfound⟩
    unfold amongMembers? at h
    split at h
    · rename_i hkind
      rcases eq_some_of_orElse h with h | h
      · obtain ⟨d, hd, h⟩ := Option.bind_eq_some_iff.1 h
        exact ⟨member, List.mem_cons_self .., hkind, d, hd, h⟩
      · exact hrest h
    · split at h
      · obtain ⟨type, -, h⟩ := Option.map_eq_some_iff.1 h
        cases h
      · exact hrest h
    · exact hrest h

/-- Only a declaration among the statements of a block before the use can have its type inferred. -/
theorem inScope?_inferred (h : inScope? s name scope = some (.inferred u)) :
    (scope.kind = .block ∨ scope.kind = .switchSection) ∧
      ∃ statement ∈ scope.children, statement.kind = .localDeclarationStatement ∧
        statement.path.precedes s.path = true ∧
        ∃ d, statement.child? .variableDeclaration = some d ∧
          inDeclaration? d name = some (.inferred u) := by
  have hstatement : (scope.children.filter fun c => c.kind == .localDeclarationStatement &&
      c.path.precedes s.path).findSome? (fun statement =>
        (statement.child? .variableDeclaration).bind (inDeclaration? · name)) =
          some (.inferred u) →
      ∃ statement ∈ scope.children, statement.kind = .localDeclarationStatement ∧
        statement.path.precedes s.path = true ∧
        ∃ d, statement.child? .variableDeclaration = some d ∧
          inDeclaration? d name = some (.inferred u) := by
    intro h
    obtain ⟨statement, hmem, h⟩ := List.exists_of_findSome?_eq_some h
    obtain ⟨hchild, hwanted⟩ := List.mem_filter.1 hmem
    simp only [Bool.and_eq_true, beq_iff_eq] at hwanted
    exact ⟨statement, hchild, hwanted.1, hwanted.2, Option.bind_eq_some_iff.1 h⟩
  unfold inScope? at h
  split at h
  · rename_i hkind
    exact ⟨.inl hkind, hstatement h⟩
  · rename_i hkind
    exact ⟨.inr hkind, hstatement h⟩
  · exact absurd h inParameterList?_ne_inferred
  · exact absurd h inParameterList?_ne_inferred
  · exact absurd h inParameterList?_ne_inferred
  · exact absurd h inParameterList?_ne_inferred
  · exact absurd h inParameters?_ne_inferred
  · obtain ⟨declaration, -, h⟩ := Option.bind_eq_some_iff.1 h
    split at h
    · obtain ⟨type, -, h⟩ := Option.map_eq_some_iff.1 h
      cases h
    · cases h
  · cases h

theorem visible?_inferred (h : visible? s name = some (.inferred u)) :
    ∃ scope ∈ s.ancestors, inScope? s name scope = some (.inferred u) ∨
      inType? scope name = some (.inferred u) := by
  unfold visible? at h
  generalize s.ancestors = scopes at h ⊢
  induction scopes with
  | nil => cases h
  | cons scope scopes ih =>
    unfold among? at h
    split at h
    · rcases eq_some_of_orElse h with h | h
      · exact ⟨scope, List.mem_cons_self .., .inr h⟩
      · exact absurd h inParameterList?_ne_inferred
    · rcases eq_some_of_orElse h with h | h
      · exact ⟨scope, List.mem_cons_self .., .inl h⟩
      · obtain ⟨other, hother, hfound⟩ := ih h
        exact ⟨other, List.mem_cons_of_mem _ hother, hfound⟩

end Binding

theorem Path.precedes_append (a p q : Path) : Path.precedes (a ++ p) (a ++ q) = p.precedes q := by
  induction a with
  | nil => rfl
  | cons i a ih => rw [List.cons_append, List.cons_append, precedes, if_pos rfl, ih]

namespace Tree.InfersPlainly

variable {t : Tree} {s u : Site} {name : String}

/-- No member of a type has its type inferred. -/
theorem not_inType? (ht : t.InfersPlainly) {declaration : Site} (hdeclaration : declaration ∈ t.sites) :
    Binding.inType? declaration name ≠ some (.inferred u) := by
  intro h
  obtain ⟨member, hmember, hkind, d, hd, h⟩ := Binding.inType?_inferred h
  obtain ⟨hvar, -⟩ := Binding.inDeclaration?_inferred h
  have hmember := Site.children_mem hdeclaration hmember
  have hchild := List.mem_of_find?_eq_some hd
  have hd_kind : d.kind = .variableDeclaration :=
    eq_of_beq (List.find?_some (p := fun c : Site => c.kind == .variableDeclaration) hd)
  exact ht.field d (Site.child?_mem hmember hd) ⟨hd_kind, hvar⟩ member
    (Site.parent?_of_mem_children hmember hchild) hkind

/-- The initializer of a local variable comes before all other places in its statement. -/
theorem before_statement (ht : t.InfersPlainly) {statement d : Site} (hstatement : statement ∈ t.sites)
    (hkind : statement.kind = .localDeclarationStatement)
    (hd : statement.child? .variableDeclaration = some d)
    (h : Binding.inDeclaration? d name = some (.inferred u)) :
    ∃ p, u.path = statement.path ++ p ∧ u ∈ t.sites ∧
      (∀ token ∈ u.node.tokens, token.kind = .identifier → token.text ≠ name) ∧
      ∀ q, (∀ r, q ≠ p ++ r) → statement.node.before p q = true := by
  obtain ⟨hvar, v, hv, hv_kind, hname, hu⟩ := Binding.inDeclaration?_inferred h
  obtain ⟨clause, hclause, hfirst⟩ := Option.bind_eq_some_iff.1 hu
  have hd_mem := Site.child?_mem hstatement hd
  have hd_kind : d.kind = .variableDeclaration :=
    eq_of_beq (List.find?_some (p := fun c : Site => c.kind == .variableDeclaration) hd)
  have hclause_kind : clause.kind = .equalsValueClause :=
    eq_of_beq (List.find?_some (p := fun c : Site => c.kind == .equalsValueClause) hclause)
  have hparent := Site.parent?_of_mem_children hstatement (List.mem_of_find?_eq_some hd)
  have hinfers : d.Infers := ⟨hd_kind, hvar⟩
  have hv_child := Site.child?_of_single (ht.single d hd_mem hinfers _ hparent hkind) hv hv_kind
  -- Every step from the statement to the initializer is to the leading part.
  obtain ⟨i, hi, hd_path, hd_at⟩ := Site.exists_of_child? hd
  obtain ⟨j, hj, hv_path, hv_at⟩ := Site.exists_of_child? hv_child
  obtain ⟨k, hk, hclause_path, hclause_at⟩ := Site.exists_of_child? hclause
  obtain ⟨l, hl, hu_path, hu_at⟩ := Site.exists_of_firstChild? hfirst
  have hi' : statement.node.leadingIndex? = some i := by
    rw [← hi, Node.leadingIndex?, show statement.node.kind = _ from hkind]
  have hj' : d.node.leadingIndex? = some j := by
    rw [← hj, Node.leadingIndex?, show d.node.kind = _ from hd_kind]
  have hk' : v.node.leadingIndex? = some k := by
    rw [← hk, Node.leadingIndex?, show v.node.kind = _ from hv_kind]
  have hl' : clause.node.leadingIndex? = some l := by
    rw [← hl, Node.leadingIndex?, show clause.node.kind = _ from hclause_kind]
  have hu_mem := Site.firstChild?_mem (Site.child?_mem (Site.children_mem hd_mem hv) hclause) hfirst
  refine ⟨[i, j, k, l], ?_, hu_mem, ht.fresh d hd_mem hinfers _ hparent hkind v hv hv_kind name hname u hu,
    fun q hq => ?_⟩
  · simp only [hu_path, hclause_path, hv_path, hd_path, List.append_assoc, List.cons_append,
      List.nil_append]
  · refine Node.before_of_leading hi' hd_at fun q₁ h₁ => ?_
    refine Node.before_of_leading hj' hv_at fun q₂ h₂ => ?_
    refine Node.before_of_leading hk' hclause_at fun q₃ h₃ => ?_
    refine Node.before_of_leading hl' hu_at fun q₄ h₄ => ?_
    exact absurd (by rw [h₁, h₂, h₃, h₄]; rfl) (hq q₄)

/-- The initializer of a variable comes before the uses of the variable. -/
theorem before_use (ht : t.InfersPlainly) (hs : s ∈ t.sites) (hname : s.identifier? = some name)
    (h : Binding.visible? s name = some (.inferred u)) :
    u ∈ t.sites ∧ t.root.before u.path s.path = true := by
  obtain ⟨scope, hscope, h | h⟩ := Binding.visible?_inferred h
  · obtain ⟨hkind, statement, hchild, hstatement_kind, hprecedes, d, hd, h⟩ :=
      Binding.inScope?_inferred h
    obtain ⟨hscope, depth, hdepth, hscope_path⟩ := Site.ancestors_mem hs hscope
    have hstatement := Site.children_mem hscope hchild
    obtain ⟨p, hu_path, hu, hfresh, hfirst⟩ := ht.before_statement hstatement hstatement_kind hd h
    obtain ⟨i, -, hpath, hat⟩ := Site.exists_of_mem_children hchild
    obtain ⟨-, hscope_at⟩ := Tree.mem_sites_iff.1 hscope
    obtain ⟨-, hs_at⟩ := Tree.mem_sites_iff.1 hs
    obtain ⟨j, q, hdrop⟩ : ∃ j q, s.path.drop depth = j :: q :=
      List.exists_cons_of_ne_nil fun hnil => Nat.not_le_of_lt hdepth (List.drop_eq_nil_iff.1 hnil)
    have hs_path : s.path = scope.path ++ j :: q := by
      rw [hscope_path, ← hdrop, List.take_append_drop]
    refine ⟨hu, ?_⟩
    rw [hu_path, hpath, hs_path, List.append_assoc, Node.before_append hscope_at, List.cons_append,
      List.nil_append, Node.before_cons]
    rw [hpath, hs_path, Path.precedes_append, Path.precedes] at hprecedes
    split at hprecedes
    · -- The use stands in the statement itself, but not in the initializer.
      rename_i hij
      subst hij
      refine .inr ⟨rfl, statement.node, hat, hfirst q ?_⟩
      rintro r rfl
      obtain ⟨token, htoken, hidentifier, htext⟩ := Node.exists_token_of_identifier? hname
      obtain ⟨-, hu_at⟩ := Tree.mem_sites_iff.1 hu
      have hbelow : u.node.at? r = some s.node := by
        have hat : t.root.at? (u.path ++ r) = some s.node := by
          rw [← hs_at, hs_path, hu_path, hpath]
          simp only [List.append_assoc, List.cons_append, List.nil_append]
        rwa [Node.at?_append, hu_at, Option.bind_some] at hat
      exact absurd htext (hfresh token ((Node.tokens_sublist hbelow).subset htoken) hidentifier)
    · -- The statement stands before the one with the use.
      have hleading : scope.node.leadingIndex? = none := by
        rcases hkind with hkind | hkind <;>
          rw [Node.leadingIndex?, show scope.node.kind = _ from hkind]
      have hlt : i < j := of_decide_eq_true hprecedes
      refine .inl ?_
      simp only [Node.turn, hleading, reduceCtorEq, if_false]
      omega
  · obtain ⟨hscope, -⟩ := Site.ancestors_mem hs hscope
    exact absurd h (ht.not_inType? hscope)

/-- What is asked about comes before the site that asks. -/
theorem before_of_asks {catalog : Catalog} (ht : t.InfersPlainly) (hs : s ∈ t.sites)
    (h : (SourceModel.build t catalog).Asks s u) :
    u ∈ t.sites ∧ t.root.before u.path s.path = true := by
  obtain ⟨-, hs_at⟩ := Tree.mem_sites_iff.1 hs
  -- A first child stands in its parent, so it is over before the parent is.
  have hbelow : ∀ {v w : Site}, v ∈ t.sites → (∃ p, v.path = s.path ++ p) → v.firstChild? = some w →
      w ∈ t.sites ∧ (∃ p, w.path = s.path ++ p) ∧ t.root.before w.path s.path = true := by
    rintro v w hv ⟨p, hp⟩ hw
    obtain ⟨i, -, hpath, -⟩ := Site.exists_of_firstChild? hw
    have hpath : w.path = s.path ++ (p ++ [i]) := by rw [hpath, hp, List.append_assoc]
    refine ⟨Site.firstChild?_mem hv hw, ⟨_, hpath⟩, ?_⟩
    rw [hpath]
    exact Node.before_of_below hs_at (by simp)
  have hself : ∃ p, s.path = s.path ++ p := ⟨[], (List.append_nil _).symm⟩
  cases h with
  | inner _ hfirst | receiver _ hfirst =>
    obtain ⟨hu, -, hbefore⟩ := hbelow hs hself hfirst
    exact ⟨hu, hbefore⟩
  | initializer _ hname hvisible => exact ht.before_use hs hname hvisible
  | @member owner name declaration _ _ hdeclaration hmember =>
    -- The type of a member is never inferred.
    refine absurd hmember (ht.not_inType? ?_)
    unfold SourceModel.declaration? at hdeclaration
    split at hdeclaration
    · obtain ⟨d, -, hget⟩ := Option.bind_eq_some_iff.1 hdeclaration
      exact Tree.mem_sites_of_get? hget
    · cases hdeclaration
  | callee _ hcallee _ hfirst =>
    obtain ⟨hcallee_mem, hcallee_path, -⟩ := hbelow hs hself hcallee
    obtain ⟨hu, -, hbefore⟩ := hbelow hcallee_mem hcallee_path hfirst
    exact ⟨hu, hbefore⟩

end Tree.InfersPlainly

/-! ## Enough steps -/

theorem Site.length_visit_le (bound : Nat) (stack : List Site) : (visit bound stack).length ≤ bound := by
  induction bound generalizing stack with
  | zero => exact Nat.le_refl 0
  | succ bound ih =>
    cases stack with
    | nil => exact Nat.zero_le _
    | cons s stack => exact Nat.succ_le_succ (ih _)

namespace Tree

variable {t : Tree} {s u : Site}

/-- How many sites come before one. -/
def rank (t : Tree) (s : Site) : Nat :=
  t.sites.countP fun v => t.root.before v.path s.path

theorem rank_lt (hu : u ∈ t.sites) (h : t.root.before u.path s.path = true) :
    t.rank u < t.rank s := by
  have hmono : ∀ sites : List Site, (sites.countP fun v => t.root.before v.path u.path) ≤
      sites.countP fun v => t.root.before v.path s.path :=
    fun sites => List.countP_mono_left fun _ _ hv => Node.before_trans hv h
  -- The site itself comes before the second, and not before itself.
  obtain ⟨front, back, hsites⟩ := List.append_of_mem hu
  have hfront := hmono front
  have hback := hmono back
  simp only [rank, hsites, List.countP_append, List.countP_cons, h, Node.before_irrefl, if_true,
    Bool.false_eq_true, if_false]
  omega

theorem rank_lt_steps (t : Tree) (catalog : Catalog) (s : Site) :
    t.rank s < (SourceModel.build t catalog).steps :=
  Nat.lt_succ_of_le (Nat.le_trans List.countP_le_length (Site.length_visit_le _ _))

end Tree

namespace SourceModel

variable {t : Tree} {catalog : Catalog} {s : Site}

/-- A bound above the number of sites that come before is never met. -/
theorem types_typeWithin? (ht : t.InfersPlainly) {bound : Nat} (hs : s ∈ t.sites)
    (hbound : t.rank s < bound) :
    (build t catalog).Types s ((build t catalog).typeWithin? bound s) := by
  induction bound generalizing s with
  | zero => exact absurd hbound (Nat.not_lt_zero _)
  | succ bound ih =>
    refine .step _ fun u hasks => ?_
    obtain ⟨hu, hbefore⟩ := ht.before_of_asks hs hasks
    exact ih hu (Nat.lt_of_lt_of_le (Tree.rank_lt hu hbefore) (Nat.le_of_lt_succ hbound))

/-- What the model answers about a call of its own tree. -/
theorem resolveCall_eq (hs : s ∈ t.sites) (hkind : s.kind = .invocationExpression) :
    (build t catalog).toSemanticModel.resolveCall s = .ok ((build t catalog).call? s) := by
  have htree : s.tree = (build t catalog).tree := (Tree.mem_sites_iff.1 hs).1
  simp only [toSemanticModel, guarded, htree, hkind, beq_self_eq_true, if_true]

/-- Asking for the type of an expression or for the method of a call ends, whatever is asked about
    and whatever the catalog has, when the types of variables are left to initializers only where
    the language allows it. -/
theorem typeOf_ends (ht : t.InfersPlainly) (catalog : Catalog) (hs : s ∈ t.sites) :
    (∃ found, (build t catalog).toSemanticModel.typeOf s = .ok found ∧
      (build t catalog).Types s found ∧
      ∀ other, (build t catalog).Types s other → other = found) ∧
    (s.kind = .invocationExpression →
      ∃ found, (build t catalog).toSemanticModel.resolveCall s = .ok found ∧
        (build t catalog).Calls s found ∧
        ∀ other, (build t catalog).Calls s other → other = found) ∧
    (s.kind ≠ .invocationExpression → (build t catalog).toSemanticModel.resolveCall s =
      .error (.unsupported s.kind "invocation")) := by
  have htree : (s.tree.revision == (build t catalog).tree.revision) = true := by
    rw [(Tree.mem_sites_iff.1 hs).1]
    exact beq_self_eq_true _
  have htypes : ∀ u, (build t catalog).Asks s u →
      (build t catalog).Types u ((build t catalog).typeOf? u) := by
    intro u hasks
    exact types_typeWithin? ht (ht.before_of_asks hs hasks).1 (Tree.rank_lt_steps ..)
  refine ⟨⟨(build t catalog).typeOf? s, if_pos htree, ?_⟩, fun hkind => ?_, fun hkind => ?_⟩
  · have hself : (build t catalog).Types s ((build t catalog).typeOf? s) :=
      types_typeWithin? ht hs (Tree.rank_lt_steps t catalog s)
    exact ⟨hself, fun other => hself.unique⟩
  · have hcall : (build t catalog).Calls s ((build t catalog).call? s) := .step _ htypes
    exact ⟨_, resolveCall_eq hs hkind, hcall, fun other => hcall.unique hkind⟩
  · exact (if_pos htree).trans (if_neg fun hcall => hkind (eq_of_beq hcall))

/-- The type of the call is found over two initializers. -/
def inferredSource : String :=
  "class C \x7b void M() \x7b var a = new C(); var b = (a); b.M(); \x7d \x7d"

theorem typeOf_ends_inferred :
    ∃ t, Tree.parse inferredSource = .ok t ∧ t.InfersPlainly ∧
      ∃ s ∈ t.sites, s.kind = .invocationExpression ∧
        (build t {}).toSemanticModel.resolveCall s =
          .ok (some ⟨⟨"", "C", 0, .classType, .source⟩, "M", false⟩) ∧
        (build t {}).Calls s (some ⟨⟨"", "C", 0, .classType, .source⟩, "M", false⟩) := by
  have hfacts : (Tree.parse inferredSource).toOption.map (fun t =>
      (decide t.InfersPlainly, do
        let s ← t.sites.find? fun s => s.kind == .invocationExpression
        return (s.kind, (build t {}).call? s))) =
        some (true, some (.invocationExpression,
          some ⟨⟨"", "C", 0, .classType, .source⟩, "M", false⟩)) := by
    decide +kernel
  obtain ⟨t, hparse, hfacts⟩ := exists_ok_of_map hfacts
  obtain ⟨hplain, hfacts⟩ := Prod.mk.inj hfacts
  have ht := of_decide_eq_true hplain
  obtain ⟨s, hs, hfacts⟩ := Option.bind_eq_some_iff.1 hfacts
  obtain ⟨hkind, hcall⟩ := Prod.mk.inj (Option.some.inj hfacts)
  have hs := List.mem_of_find?_eq_some hs
  obtain ⟨-, hends, -⟩ := typeOf_ends ht {} hs
  obtain ⟨found, hresolve, hcalls, -⟩ := hends hkind
  have hfound : (build t {}).toSemanticModel.resolveCall s = .ok ((build t {}).call? s) :=
    resolveCall_eq hs hkind
  obtain rfl : found = _ := (Except.ok.inj (hresolve.symm.trans hfound)).trans hcall
  exact ⟨t, hparse, ht, s, hs, hkind, hresolve, hcalls⟩

end SourceModel

end Recast
