-- SUMMARY: The walk from base lists to interfaces ends, for catalogs with cycles too, and decides exactly whether an interface with the member is reached.
import Mathlib.Data.List.Flatten
import Mathlib.Logic.Relation
import Recast.Proofs.Grammar.Lossless
import Recast.Proofs.Source.Scanning
import Recast.Proofs.Tree.Sites
import Recast.Types.SourceModel

/-! # Interfaces that a type reaches

The interfaces of a type are looked for with a stack: the types that its base list names are put on
it, and a type of the catalog puts there those that its entry lists. `SourceModel.Lists` is this
relation. A run of the search is a derivation of `SourceModel.Walks`, which knows no bound, and
what a run finds is read off the derivation. The bound that the search is given is never met, since
an entry of the catalog is expanded once. -/

namespace Recast

/-! ## Symbols of the catalog -/

namespace Catalog

theorem hasIdentity_of_lookup? {c : Catalog} {space name : String} {arity : Nat} {info : TypeInfo}
    (h : c.lookup? space name arity = some info) :
    info.space = space ∧ info.name = name ∧ info.arity = arity := by
  have hidentity := List.find?_some h
  simpa [TypeInfo.hasIdentity, and_assoc] using hidentity

theorem lookup?_self {c : Catalog} {space name : String} {arity : Nat} {info : TypeInfo}
    (h : c.lookup? space name arity = some info) :
    c.lookup? info.space info.name info.arity = some info := by
  obtain ⟨rfl, rfl, rfl⟩ := hasIdentity_of_lookup? h
  exact h

/-- The entry of least arity is the first with its arity. -/
theorem find?_of_leastArity? {types : List TypeInfo} {info : TypeInfo}
    (h : leastArity? types = some info) :
    types.find? (fun t => t.arity == info.arity) = some info := by
  induction types with
  | nil => cases h
  | cons t ts ih =>
    unfold leastArity? at h
    split at h
    · obtain rfl := Option.some.inj h
      exact List.find?_cons_of_pos (beq_self_eq_true _)
    · rename_i u hu
      split at h
      · obtain rfl := Option.some.inj h
        exact List.find?_cons_of_pos (beq_self_eq_true _)
      · rename_i hlt
        obtain rfl := Option.some.inj h
        rw [List.find?_cons_of_neg (by simp; omega)]
        exact ih hu

theorem lookup?_of_lookupFullName? {c : Catalog} {fullName : String} {info : TypeInfo}
    (h : c.lookupFullName? fullName = some info) :
    c.lookup? info.space info.name info.arity = some info := by
  have hfirst := find?_of_leastArity? h
  have hmem := (List.mem_filter.1 (List.mem_of_find?_eq_some hfirst)).2
  obtain ⟨hspace, hname⟩ := Bool.and_eq_true_iff.1 hmem
  rw [List.find?_filter, ← eq_of_beq hspace, ← eq_of_beq hname] at hfirst
  have hidentity : ∀ t : TypeInfo, t.hasIdentity info.space info.name info.arity =
      decide ((t.space == info.space && t.name == info.name) = true ∧
        (t.arity == info.arity) = true) := by
    intro t
    simp only [TypeInfo.hasIdentity, Bool.decide_and, Bool.decide_eq_true]
  rw [lookup?, funext hidentity]
  exact hfirst

end Catalog

namespace SourceModel

variable {m : SourceModel}

/-- A symbol of the catalog is that of the entry behind it. -/
def Catalogued (m : SourceModel) (symbol : TypeSymbol) : Prop :=
  symbol.origin = .catalog → ∃ info, m.info? symbol = some info ∧ symbol = .ofInfo info

/-- The types that a file declares come from nowhere else. -/
def Sourced (m : SourceModel) : Prop :=
  ∀ d ∈ m.declared, d.symbol.origin = .source

theorem sourced_build (t : Tree) (catalog : Catalog) : (build t catalog).Sourced := by
  intro d hd
  obtain ⟨s, -, hs⟩ := List.mem_filterMap.1 hd
  unfold declaredAt? at hs
  split at hs
  · obtain ⟨name, -, rfl⟩ := Option.map_eq_some_iff.1 hs
    rfl
  · cases hs

theorem catalogued_ofInfo {info : TypeInfo}
    (h : m.catalog.lookup? info.space info.name info.arity = some info) :
    m.Catalogued (.ofInfo info) :=
  fun _ => ⟨info, h, rfl⟩

theorem catalogued_ofKeyword? {keyword : String} {symbol : TypeSymbol}
    (h : Builtin.ofKeyword? keyword = some symbol) : m.Catalogued symbol := by
  obtain ⟨⟨_, name, kind⟩, -, rfl⟩ := Option.map_eq_some_iff.1 h
  exact nofun

theorem catalogued_ofFullName? {fullName : String} {symbol : TypeSymbol}
    (h : Builtin.ofFullName? fullName = some symbol) : m.Catalogued symbol := by
  obtain ⟨rest, -, h⟩ := Option.bind_eq_some_iff.1 h
  obtain ⟨⟨_, name, kind⟩, -, rfl⟩ := Option.map_eq_some_iff.1 h
  exact nofun

section Names

variable (hm : m.Sourced)

include hm

theorem catalogued_lookup? {space name : String} {arity : Nat} {symbol : TypeSymbol}
    (h : m.lookup? space name arity = some symbol) : m.Catalogued symbol := by
  rcases eq_some_of_orElse h with h | h
  · obtain ⟨d, hd, rfl⟩ := Option.map_eq_some_iff.1 h
    intro horigin
    rw [hm d (List.mem_of_find?_eq_some hd)] at horigin
    cases horigin
  · obtain ⟨info, hinfo, rfl⟩ := Option.map_eq_some_iff.1 h
    exact catalogued_ofInfo (Catalog.lookup?_self hinfo)

theorem catalogued_symbolOf? {fullName : String} {symbol : TypeSymbol}
    (h : m.symbolOf? fullName = some symbol) : m.Catalogued symbol := by
  rcases eq_some_of_orElse h with h | h
  · exact catalogued_ofKeyword? h
  rcases eq_some_of_orElse h with h | h
  · exact catalogued_ofFullName? h
  rcases eq_some_of_orElse h with h | h
  · exact catalogued_lookup? hm h
  · obtain ⟨info, hinfo, rfl⟩ := Option.map_eq_some_iff.1 h
    exact catalogued_ofInfo (Catalog.lookup?_of_lookupFullName? hinfo)

theorem catalogued_resolveCandidate? {chain : List String} {scope : ImportScope} {parts : NameParts}
    {candidate : String} {symbol : TypeSymbol}
    (h : m.resolveCandidate? chain scope parts candidate = some symbol) : m.Catalogued symbol := by
  have hspaces : ∀ {spaces : List String}, spaces.findSome? (m.lookup? · candidate parts.arity) =
      some symbol → m.Catalogued symbol := by
    intro spaces h
    obtain ⟨space, -, h⟩ := List.exists_of_findSome?_eq_some h
    exact catalogued_lookup? hm h
  unfold resolveCandidate? at h
  split at h
  · split at h
    · exact catalogued_lookup? hm h
    · exact hspaces h
  · rcases eq_some_of_orElse h with h | h
    · split at h
      · obtain ⟨target, -, h⟩ := Option.bind_eq_some_iff.1 h
        exact catalogued_symbolOf? hm h
      · cases h
    · rcases eq_some_of_orElse h with h | h
      · exact hspaces h
      · exact hspaces h

theorem catalogued_resolveParts? {context : Site} {parts : NameParts} {isAttribute : Bool}
    {symbol : TypeSymbol} (h : m.resolveParts? context parts isAttribute = some symbol) :
    m.Catalogued symbol := by
  obtain ⟨candidate, -, h⟩ := List.exists_of_findSome?_eq_some h
  exact catalogued_resolveCandidate? hm h

theorem catalogued_resolveNameWithin? {bound : Nat} {context : Site} {name : Node}
    {isAttribute : Bool} {symbol : TypeSymbol}
    (h : m.resolveNameWithin? bound context name isAttribute = some symbol) :
    m.Catalogued symbol := by
  induction bound generalizing name with
  | zero => cases h
  | succ bound ih =>
    unfold resolveNameWithin? at h
    split at h
    · obtain ⟨token, -, h⟩ := Option.bind_eq_some_iff.1 h
      exact catalogued_ofKeyword? h
    · obtain ⟨inner, -, h⟩ := Option.bind_eq_some_iff.1 h
      exact ih h
    · obtain ⟨parts, -, h⟩ := Option.bind_eq_some_iff.1 h
      exact catalogued_resolveParts? hm h

theorem catalogued_resolve? {s : Site} {symbol : TypeSymbol}
    (h : m.resolve? s = .ok (some symbol)) : m.Catalogued symbol := by
  have hbelow : ∀ {target : Option Site} {isAttribute : Bool},
      target.bind (m.resolveName? · isAttribute) = some symbol → m.Catalogued symbol := by
    intro target isAttribute h
    obtain ⟨name, -, h⟩ := Option.bind_eq_some_iff.1 h
    exact catalogued_resolveNameWithin? hm h
  unfold resolve? at h
  split at h
  · exact hbelow (Except.ok.inj h)
  · exact hbelow (Except.ok.inj h)
  · exact hbelow (Except.ok.inj h)
  · exact hbelow (Except.ok.inj h)
  · exact hbelow (Except.ok.inj h)
  · exact catalogued_resolveNameWithin? hm (Except.ok.inj h)
  · cases Except.ok.inj h
  · cases Except.ok.inj h
  · split at h
    · exact catalogued_resolveNameWithin? hm (Except.ok.inj h)
    · cases h

end Names

/-! ## Walks -/

/-- The catalog entry of the first type lists the second. -/
def Lists (m : SourceModel) (first second : TypeSymbol) : Prop :=
  second ∈ m.listedInterfaces first

theorem catalogued_of_lists (hm : m.Sourced) {first second : TypeSymbol}
    (h : m.Lists first second) : m.Catalogued second := by
  unfold Lists listedInterfaces at h
  rcases hinfo : m.info? first with _ | info
  · rw [hinfo] at h
    cases h
  · rw [hinfo] at h
    obtain ⟨fullName, -, h⟩ := List.mem_filterMap.1 h
    exact catalogued_symbolOf? hm h

/-- The interfaces that the entries not yet expanded list. -/
def unlisted (m : SourceModel) (seen : List TypeSymbol) : Nat :=
  ((m.catalog.types.filter fun info => !seen.contains (.ofInfo info)).flatMap
    TypeInfo.interfaces).length

theorem unlisted_nil : m.unlisted [] = (m.catalog.types.flatMap TypeInfo.interfaces).length := by
  unfold unlisted
  simp

omit m in
/-- Fewer entries list no more. -/
theorem length_interfaces_le {before after : TypeInfo → Bool}
    (hafter : ∀ t, after t = true → before t = true) (types : List TypeInfo) :
    ((types.filter after).flatMap TypeInfo.interfaces).length ≤
      ((types.filter before).flatMap TypeInfo.interfaces).length :=
  ((List.monotone_filter_right types hafter).flatMap TypeInfo.interfaces).length_le

omit m in
/-- An entry that is left no longer takes what it lists with it. -/
theorem length_interfaces_add {types : List TypeInfo} {info : TypeInfo} (hinfo : info ∈ types)
    {before after : TypeInfo → Bool} (hafter : ∀ t, after t = true → before t = true)
    (hleft : before info = true) (hgone : after info = false) :
    info.interfaces.length + ((types.filter after).flatMap TypeInfo.interfaces).length ≤
      ((types.filter before).flatMap TypeInfo.interfaces).length := by
  obtain ⟨front, back, rfl⟩ := List.append_of_mem hinfo
  have hfront := length_interfaces_le hafter front
  have hback := length_interfaces_le hafter back
  simp only [List.filter_append, List.filter_cons_of_pos hleft,
    List.filter_cons_of_neg (Bool.eq_false_iff.1 hgone), List.flatMap_append, List.flatMap_cons,
    List.length_append]
  omega

/-- A type that is expanded takes what it lists from what is left. -/
theorem unlisted_cons {seen : List TypeSymbol} {symbol : TypeSymbol} (h : m.Catalogued symbol)
    (hnew : symbol ∉ seen) :
    (m.listedInterfaces symbol).length + m.unlisted (symbol :: seen) ≤ m.unlisted seen := by
  have hmono : ∀ info : TypeInfo, (!(symbol :: seen).contains (.ofInfo info)) = true →
      (!seen.contains (.ofInfo info)) = true := by
    intro info hinfo
    rw [List.contains_cons, Bool.not_or] at hinfo
    exact (Bool.and_eq_true_iff.1 hinfo).2
  rcases hinfo : m.info? symbol with _ | info
  · have hnone : m.listedInterfaces symbol = [] := by
      rw [listedInterfaces, hinfo]
      rfl
    rw [hnone, List.length_nil, Nat.zero_add]
    exact length_interfaces_le hmono m.catalog.types
  · have horigin : symbol.origin = .catalog := by
      unfold info? at hinfo
      split at hinfo
      · assumption
      · cases hinfo
    obtain ⟨info', hinfo', rfl⟩ := h horigin
    obtain rfl := Option.some.inj (hinfo.symm.trans hinfo')
    have hmem : info ∈ m.catalog.types := List.mem_of_find?_eq_some hinfo
    refine Nat.le_trans (Nat.add_le_add_right ?_ _)
      (length_interfaces_add hmem hmono (by simpa using hnew) (by simp))
    rw [listedInterfaces, hinfo]
    exact List.length_filterMap_le _ _

/-- A run of the search for a member, from a stack of types to the answer. -/
inductive Walks (m : SourceModel) (name : String) :
    (stack seen : List TypeSymbol) → (answer : Bool) → Prop where
  /-- Nothing is left to look at. -/
  | done {seen : List TypeSymbol} : Walks m name [] seen false
  /-- The type was expanded before. -/
  | known {symbol : TypeSymbol} {stack seen : List TypeSymbol} {answer : Bool}
      (hknown : symbol ∈ seen) (rest : Walks m name stack seen answer) :
      Walks m name (symbol :: stack) seen answer
  /-- The type has the member. -/
  | found {symbol : TypeSymbol} {stack seen : List TypeSymbol} (hnew : symbol ∉ seen)
      (hdeclares : m.declaresMember symbol name = true) : Walks m name (symbol :: stack) seen true
  /-- The type is expanded: what its entry lists comes before the rest of the stack. -/
  | expanded {symbol : TypeSymbol} {stack seen : List TypeSymbol} {answer : Bool}
      (hnew : symbol ∉ seen) (hnot : m.declaresMember symbol name = false)
      (rest : Walks m name ((m.listedInterfaces symbol).reverse ++ stack) (symbol :: seen) answer) :
      Walks m name (symbol :: stack) seen answer

namespace Walks

variable {name : String} {stack seen : List TypeSymbol} {answer : Bool}

/-- A run that finds the member has reached a type with it. -/
theorem reaches (h : m.Walks name stack seen answer) (hanswer : answer = true) :
    ∃ first ∈ stack, ∃ last, Relation.ReflTransGen m.Lists first last ∧
      m.declaresMember last name = true := by
  induction h with
  | done => cases hanswer
  | known _ _ ih =>
    obtain ⟨first, hfirst, hreached⟩ := ih hanswer
    exact ⟨first, List.mem_cons_of_mem _ hfirst, hreached⟩
  | @found symbol stack seen _ hdeclares =>
    exact ⟨symbol, List.mem_cons_self .., symbol, .refl, hdeclares⟩
  | @expanded symbol stack seen answer _ _ _ ih =>
    obtain ⟨first, hfirst, last, hreached, hdeclares⟩ := ih hanswer
    rcases List.mem_append.1 hfirst with hlisted | hfirst
    · have hlists : m.Lists symbol first := List.mem_reverse.1 hlisted
      exact ⟨symbol, List.mem_cons_self .., last, .head hlists hreached, hdeclares⟩
    · exact ⟨first, List.mem_cons_of_mem _ hfirst, last, hreached, hdeclares⟩

/-- A run that finds nothing has seen all that it could reach. What it was not shown before is on
    its stack or was looked at, and what it looked at has neither the member nor anything listed
    that it was not shown. -/
theorem not_declares (h : m.Walks name stack seen answer) (hanswer : answer = false)
    (hseen : ∀ symbol ∈ seen, m.declaresMember symbol name = false ∧
      ∀ other, m.Lists symbol other → other ∈ seen ∨ other ∈ stack) :
    ∃ all : List TypeSymbol, seen ⊆ all ∧ stack ⊆ all ∧ ∀ symbol ∈ all,
      m.declaresMember symbol name = false ∧ ∀ other, m.Lists symbol other → other ∈ all := by
  induction h with
  | @done seen =>
    refine ⟨seen, fun _ => id, List.nil_subset _, fun symbol hsymbol => ?_⟩
    obtain ⟨hnot, hlisted⟩ := hseen symbol hsymbol
    exact ⟨hnot, fun other hother => (hlisted other hother).resolve_right List.not_mem_nil⟩
  | @known symbol stack seen answer hknown _ ih =>
    -- The type is off the stack, but among those that were looked at.
    have hseen' : ∀ other ∈ seen, m.declaresMember other name = false ∧
        ∀ next, m.Lists other next → next ∈ seen ∨ next ∈ stack := by
      intro other hother
      obtain ⟨hnot, hlisted⟩ := hseen other hother
      refine ⟨hnot, fun next hnext => ?_⟩
      rcases hlisted next hnext with hnext | hnext
      · exact .inl hnext
      · rcases List.mem_cons.1 hnext with rfl | hnext
        · exact .inl hknown
        · exact .inr hnext
    obtain ⟨all, hall, hstack, hclosed⟩ := ih hanswer hseen'
    exact ⟨all, hall, List.cons_subset.2 ⟨hall hknown, hstack⟩, hclosed⟩
  | found => cases hanswer
  | @expanded symbol stack seen answer _ hnot _ ih =>
    -- What the type lists goes on the stack in its place.
    have hseen' : ∀ other ∈ symbol :: seen, m.declaresMember other name = false ∧
        ∀ next, m.Lists other next → next ∈ symbol :: seen ∨
          next ∈ (m.listedInterfaces symbol).reverse ++ stack := by
      intro other hother
      rcases List.mem_cons.1 hother with rfl | hother
      · refine ⟨hnot, fun next hnext => .inr ?_⟩
        exact List.mem_append_left _ (List.mem_reverse.2 hnext)
      · obtain ⟨hnot, hlisted⟩ := hseen other hother
        refine ⟨hnot, fun next hnext => ?_⟩
        rcases hlisted next hnext with hnext | hnext
        · exact .inl (List.mem_cons_of_mem _ hnext)
        · rcases List.mem_cons.1 hnext with rfl | hnext
          · exact .inl (List.mem_cons_self ..)
          · exact .inr (List.mem_append_right _ hnext)
    obtain ⟨all, hall, hstack, hclosed⟩ := ih hanswer hseen'
    obtain ⟨hsymbol, hall⟩ := List.cons_subset.1 hall
    exact ⟨all, hall, List.cons_subset.2 ⟨hsymbol, (List.append_subset.1 hstack).2⟩, hclosed⟩

/-- A stack has one run at most. -/
theorem unique {other : Bool} (h : m.Walks name stack seen answer)
    (hother : m.Walks name stack seen other) : other = answer := by
  induction h with
  | done => cases hother; rfl
  | known hknown _ ih =>
    cases hother with
    | known _ rest => exact ih rest
    | found hnew => exact absurd hknown hnew
    | expanded hnew => exact absurd hknown hnew
  | found hnew hdeclares =>
    cases hother with
    | known hknown => exact absurd hknown hnew
    | found => rfl
    | expanded _ hnot => exact Bool.noConfusion (hdeclares.symm.trans hnot)
  | expanded hnew hnot _ ih =>
    cases hother with
    | known hknown => exact absurd hknown hnew
    | found _ hdeclares => exact Bool.noConfusion (hdeclares.symm.trans hnot)
    | expanded _ _ rest => exact ih rest

/-- A run from the types of a base list finds the member just when a type with it is reached. -/
theorem eq_true_iff {bases : List TypeSymbol} (h : m.Walks name bases.reverse [] answer) :
    answer = true ↔ ∃ first ∈ bases, ∃ last, Relation.ReflTransGen m.Lists first last ∧
      m.declaresMember last name = true := by
  constructor
  · intro hanswer
    obtain ⟨first, hfirst, hreached⟩ := h.reaches hanswer
    exact ⟨first, List.mem_reverse.1 hfirst, hreached⟩
  · rintro ⟨first, hfirst, last, hreached, hdeclares⟩
    by_contra hanswer
    -- All that a run without a find has looked at is closed under what is listed.
    obtain ⟨all, -, hall, hclosed⟩ :=
      h.not_declares (Bool.eq_false_iff.2 hanswer) (fun _ h => nomatch h)
    have hlast : ∀ symbol, Relation.ReflTransGen m.Lists first symbol → symbol ∈ all := by
      intro symbol hsymbol
      induction hsymbol with
      | refl => exact hall (List.mem_reverse.2 hfirst)
      | tail _ hlists ih => exact (hclosed _ ih).2 _ hlists
    rw [(hclosed last (hlast last hreached)).1] at hdeclares
    cases hdeclares

end Walks

/-- The search runs to its end within its bound: expanding a type adds what its entry lists to the
    stack and takes it from what is still unlisted. -/
theorem walks_interfaceWalk (hm : m.Sourced) {name : String} {bound : Nat}
    {stack seen : List TypeSymbol} (hbound : stack.length + m.unlisted seen < bound)
    (hstack : ∀ symbol ∈ stack, m.Catalogued symbol) :
    m.Walks name stack seen (m.interfaceWalk name bound stack seen) := by
  induction bound generalizing stack seen with
  | zero => exact absurd hbound (Nat.not_lt_zero _)
  | succ bound ih =>
    cases stack with
    | nil => exact .done
    | cons symbol stack =>
      rw [List.length_cons] at hbound
      have hleft : ∀ other ∈ stack, m.Catalogued other :=
        fun other hother => hstack other (List.mem_cons_of_mem _ hother)
      unfold interfaceWalk
      split
      · rename_i hknown
        exact .known (List.contains_iff_mem.1 hknown) (ih (by omega) hleft)
      · rename_i hnew
        have hnew : symbol ∉ seen := fun h => hnew (List.contains_iff_mem.2 h)
        split
        · rename_i hdeclares
          exact .found hnew hdeclares
        · rename_i hnot
          -- The stack grows by what the type lists, but the type itself is unlisted no more.
          have hunlisted := unlisted_cons (hstack symbol (List.mem_cons_self ..)) hnew
          have hlisted : ∀ other ∈ (m.listedInterfaces symbol).reverse ++ stack,
              m.Catalogued other := by
            intro other hother
            rcases List.mem_append.1 hother with hother | hother
            · exact catalogued_of_lists hm (List.mem_reverse.1 hother)
            · exact hleft other hother
          have hbound' : ((m.listedInterfaces symbol).reverse ++ stack).length +
              m.unlisted (symbol :: seen) < bound := by
            rw [List.length_append, List.length_reverse]
            omega
          exact .expanded hnew (Bool.eq_false_iff.2 hnot) (ih hbound' hlisted)

/-- The search from the types of a base list. -/
theorem walks_interfaceBound (hm : m.Sourced) {name : String} {bases : List TypeSymbol}
    (hbases : ∀ symbol ∈ bases, m.Catalogued symbol) :
    m.Walks name bases.reverse [] (m.interfaceWalk name (m.interfaceBound bases) bases.reverse []) := by
  refine walks_interfaceWalk hm ?_ fun symbol hsymbol => hbases symbol (List.mem_reverse.1 hsymbol)
  rw [List.length_reverse, unlisted_nil]
  exact Nat.lt_succ_self _

/-! ## Implementations -/

/-- A declaration of the model's tree names a type in its base list. -/
def Extends (m : SourceModel) (declaration : Site) (symbol : TypeSymbol) : Prop :=
  ∃ list, declaration.child? .baseList = some list ∧
    ∃ base ∈ list.children, m.resolve? base = .ok (some symbol)

/-- A method implements a member of an interface, as far as the base list of its own type and the
    catalog lead: it names the interface, or a type that is reached has a member of its name. -/
def Implements (m : SourceModel) (s : Site) (method : View.Method) : Prop :=
  method.isExplicit = true ∨ ∃ name, method.name? = some name ∧
    ∃ owner, s.parent? = some owner ∧ owner.kind.isTypeDeclaration = true ∧
    ∃ first, m.Extends owner first ∧
    ∃ last, Relation.ReflTransGen m.Lists first last ∧ m.declaresMember last name = true

/-- The types that the entries of a base list stand for. -/
def baseSymbols (m : SourceModel) (list : Site) : List TypeSymbol :=
  list.children.filterMap fun base => ((m.resolve? base).toOption).join

theorem mem_baseSymbols {list : Site} {symbol : TypeSymbol} :
    symbol ∈ m.baseSymbols list ↔ ∃ base ∈ list.children, m.resolve? base = .ok (some symbol) := by
  have hbase : ∀ base : Site, ((m.resolve? base).toOption).join = some symbol ↔
      m.resolve? base = .ok (some symbol) := by
    intro base
    rcases m.resolve? base with e | found
    · exact ⟨nofun, nofun⟩
    · simp [Except.toOption]
  simp only [baseSymbols, List.mem_filterMap, hbase]

/-- How it is decided whether a method implements a member of an interface. -/
inductive Decides (m : SourceModel) (s : Site) (method : View.Method) : (answer : Bool) → Prop where
  /-- The method names its interface. -/
  | explicit (hexplicit : method.isExplicit = true) : Decides m s method true
  /-- There is no name to look for, or no base list to start from. -/
  | nowhere (hexplicit : method.isExplicit = false)
      (hnone : method.name? = none ∨ ∀ owner, s.parent? = some owner →
        owner.kind.isTypeDeclaration = true → owner.child? .baseList = none) :
      Decides m s method false
  /-- The search from the base list of the type ends. -/
  | searched {name : String} {owner list : Site} {answer : Bool}
      (hexplicit : method.isExplicit = false) (hname : method.name? = some name)
      (hparent : s.parent? = some owner) (hkind : owner.kind.isTypeDeclaration = true)
      (hlist : owner.child? .baseList = some list)
      (walk : m.Walks name (m.baseSymbols list).reverse [] answer) : Decides m s method answer

namespace Decides

variable {s : Site} {method : View.Method} {answer : Bool}

/-- There is one way to decide. -/
theorem unique {other : Bool} (h : m.Decides s method answer) (hother : m.Decides s method other) :
    other = answer := by
  cases h with
  | explicit hexplicit =>
    cases hother with
    | explicit => rfl
    | nowhere hplain | searched hplain => exact Bool.noConfusion (hexplicit.symm.trans hplain)
  | nowhere hplain hnone =>
    cases hother with
    | explicit hexplicit => exact Bool.noConfusion (hexplicit.symm.trans hplain)
    | nowhere => rfl
    | searched _ hname hparent hkind hlist =>
      rcases hnone with hnone | hnone
      · cases hnone.symm.trans hname
      · cases (hnone _ hparent hkind).symm.trans hlist
  | searched hplain hname hparent hkind hlist walk =>
    cases hother with
    | explicit hexplicit => exact Bool.noConfusion (hexplicit.symm.trans hplain)
    | nowhere _ hnone =>
      rcases hnone with hnone | hnone
      · cases hnone.symm.trans hname
      · cases (hnone _ hparent hkind).symm.trans hlist
    | searched _ hname' hparent' _ hlist' walk' =>
      obtain rfl := Option.some.inj (hname.symm.trans hname')
      obtain rfl := Option.some.inj (hparent.symm.trans hparent')
      obtain rfl := Option.some.inj (hlist.symm.trans hlist')
      exact walk.unique walk'

theorem eq_true_iff (h : m.Decides s method answer) : answer = true ↔ m.Implements s method := by
  cases h with
  | explicit hexplicit => exact ⟨fun _ => .inl hexplicit, fun _ => rfl⟩
  | nowhere hplain hnone =>
    refine ⟨nofun, ?_⟩
    rintro (hexplicit | ⟨name, hname, owner, hparent, hkind, first, ⟨list, hlist, -⟩, -⟩)
    · exact hplain.symm.trans hexplicit
    · rcases hnone with hnone | hnone
      · cases hnone.symm.trans hname
      · cases (hnone _ hparent hkind).symm.trans hlist
  | @searched name owner list answer hplain hname hparent hkind hlist walk =>
    rw [walk.eq_true_iff]
    constructor
    · rintro ⟨first, hfirst, hreached⟩
      exact .inr ⟨name, hname, owner, hparent, hkind, first, ⟨list, hlist, mem_baseSymbols.1 hfirst⟩,
        hreached⟩
    · rintro (hexplicit | ⟨name', hname', owner', hparent', -, first, ⟨list', hlist', hbase⟩, hreached⟩)
      · exact Bool.noConfusion (hexplicit.symm.trans hplain)
      · obtain rfl := Option.some.inj (hname.symm.trans hname')
        obtain rfl := Option.some.inj (hparent.symm.trans hparent')
        obtain rfl := Option.some.inj (hlist.symm.trans hlist')
        exact ⟨first, mem_baseSymbols.2 hbase, hreached⟩

end Decides

theorem decides_implementsMember (hm : m.Sourced) {s : Site} {method : View.Method} :
    m.Decides s method (m.implementsMember s method) := by
  unfold implementsMember
  split
  · rename_i hexplicit
    exact .explicit hexplicit
  · rename_i hplain
    have hplain := Bool.eq_false_iff.2 hplain
    dsimp only
    split
    · rename_i name list hname hlist
      obtain ⟨owner, howner, hlist⟩ := Option.bind_eq_some_iff.1 hlist
      obtain ⟨hparent, hkind⟩ := Option.filter_eq_some_iff.1 howner
      refine .searched hplain hname hparent hkind hlist (walks_interfaceBound hm fun symbol hsymbol => ?_)
      obtain ⟨base, -, hresolve⟩ := mem_baseSymbols.1 hsymbol
      exact catalogued_resolve? hm hresolve
    · rename_i hnone
      refine .nowhere hplain ?_
      rcases hname : method.name? with _ | name
      · exact .inl rfl
      · refine .inr fun owner hparent hkind => Option.eq_none_iff_forall_ne_some.2 fun list hlist => ?_
        refine hnone name list hname ?_
        rw [hparent, Option.filter_some, if_pos hkind, Option.bind_some, hlist]

theorem implementsMember_eq_true_iff (hm : m.Sourced) {s : Site} {method : View.Method} :
    m.implementsMember s method = true ↔ m.Implements s method :=
  (decides_implementsMember hm).eq_true_iff

/-- What the model answers about a method of its own tree. -/
theorem implementsInterface_eq {s : Site} (hs : s ∈ m.tree.sites) {method : View.Method}
    (hmethod : View.Method.of? s.node = some method) :
    m.toSemanticModel.implementsInterface s = .ok (m.implementsMember s method) := by
  have htree : s.tree = m.tree := (Tree.mem_sites_iff.1 hs).1
  simp only [toSemanticModel, guarded, htree, beq_self_eq_true, if_true, hmethod]

theorem implementsInterface_eq_true_iff (hm : m.Sourced) {s : Site} (hs : s ∈ m.tree.sites)
    {method : View.Method} (hmethod : View.Method.of? s.node = some method) :
    m.toSemanticModel.implementsInterface s = .ok true ↔ m.Implements s method := by
  rw [implementsInterface_eq hs hmethod, ← implementsMember_eq_true_iff hm]
  exact ⟨Except.ok.inj, congrArg Except.ok⟩

/-! ## Reachability -/

/-- The symbol is one of the catalog, and `second` is what its entry lists by a full name. -/
def Leads (m : SourceModel) (first second : TypeSymbol) : Prop :=
  first.origin = .catalog ∧
    ∃ info, m.catalog.lookup? first.space first.name first.arity = some info ∧
      ∃ fullName ∈ info.interfaces, m.symbolOf? fullName = some second

/-- The symbol is an interface with a member of the name: a method of its declaration in the file,
    or a member of its entry in the catalog. -/
def Declares (m : SourceModel) (symbol : TypeSymbol) (name : String) : Prop :=
  symbol.kind = .interface ∧
    ((∃ d, m.declaration? symbol = some d ∧ ∃ declaration,
        View.TypeDeclaration.of? d.node = some declaration ∧
        ∃ method ∈ declaration.methods, method.name? = some name) ∨
      ∃ info, m.info? symbol = some info ∧ ∃ member ∈ info.members, member.name = name)

theorem info?_eq_some_iff {symbol : TypeSymbol} {info : TypeInfo} :
    m.info? symbol = some info ↔ symbol.origin = .catalog ∧
      m.catalog.lookup? symbol.space symbol.name symbol.arity = some info := by
  unfold info?
  split
  · rename_i horigin
    exact ⟨fun h => ⟨horigin, h⟩, fun h => h.2⟩
  · rename_i horigin
    exact ⟨nofun, fun h => absurd h.1 horigin⟩

theorem lists_iff_leads {first second : TypeSymbol} :
    m.Lists first second ↔ m.Leads first second := by
  have hinfo : m.Lists first second ↔ ∃ info, m.info? first = some info ∧
      ∃ fullName ∈ info.interfaces, m.symbolOf? fullName = some second := by
    rcases h : m.info? first with _ | info <;> simp [Lists, listedInterfaces, h]
  simp only [hinfo, info?_eq_some_iff, Leads, and_assoc, exists_and_left]

theorem declaresMember_eq_true_iff {symbol : TypeSymbol} {name : String} :
    m.declaresMember symbol name = true ↔ m.Declares symbol name := by
  have hfile : (((m.declaration? symbol).bind fun d => View.TypeDeclaration.of? d.node).map fun d =>
      d.methods.any fun method => method.name? == some name).getD false = true ↔
      ∃ d, m.declaration? symbol = some d ∧ ∃ declaration,
        View.TypeDeclaration.of? d.node = some declaration ∧
        ∃ method ∈ declaration.methods, method.name? = some name := by
    rcases m.declaration? symbol with _ | d
    · simp
    · rcases h : View.TypeDeclaration.of? d.node with _ | declaration <;> simp [h]
  have hcatalog : ((m.info? symbol).bind (·.member? name)).isSome = true ↔
      ∃ info, m.info? symbol = some info ∧ ∃ member ∈ info.members, member.name = name := by
    rcases m.info? symbol with _ | info
    · simp
    · simp [TypeInfo.member?, List.find?_isSome]
  rw [Declares, ← hfile, ← hcatalog]
  simp only [declaresMember, Bool.and_eq_true, Bool.or_eq_true, beq_iff_eq]

/-- A method of a tree implements a member of an interface just when it names the interface, or
    when it has a name, the type around it has a base list, and an interface with a member of that
    name is reached from a type of the list over what the entries of the catalog list. It is
    decided in finitely many steps, whatever the catalog lists. -/
theorem implementsInterface_decides (t : Tree) (catalog : Catalog) {s : Site} (hs : s ∈ t.sites)
    (hkind : s.kind = .methodDeclaration) :
    ∃ method, View.Method.of? s.node = some method ∧
      ∃ answer, (build t catalog).toSemanticModel.implementsInterface s = .ok answer ∧
        (build t catalog).Decides s method answer ∧
        (∀ other, (build t catalog).Decides s method other → other = answer) ∧
        (answer = true ↔ method.isExplicit = true ∨
          ∃ name, method.name? = some name ∧
          ∃ owner, s.parent? = some owner ∧ owner.kind.isTypeDeclaration = true ∧
          ∃ list, owner.child? .baseList = some list ∧
          ∃ base ∈ list.children, ∃ first, (build t catalog).resolve? base = .ok (some first) ∧
          ∃ last, Relation.ReflTransGen (build t catalog).Leads first last ∧
            (build t catalog).Declares last name) := by
  have hm := sourced_build t catalog
  have hmethod : View.Method.of? s.node = some ⟨s.node⟩ := by
    exact if_pos (beq_iff_eq.2 hkind)
  refine ⟨⟨s.node⟩, hmethod, _, implementsInterface_eq hs hmethod, decides_implementsMember hm,
    fun other => (decides_implementsMember hm).unique, ?_⟩
  have hlists : (build t catalog).Lists = (build t catalog).Leads :=
    funext₂ fun _ _ => propext lists_iff_leads
  rw [implementsMember_eq_true_iff hm, Implements, hlists]
  simp only [Extends, declaresMember_eq_true_iff]
  -- What is left is the order of the choices: the entry of the list comes before its type.
  refine or_congr_right (exists_congr fun name => and_congr_right fun _ => exists_congr fun owner =>
    and_congr_right fun _ => and_congr_right fun _ => ?_)
  constructor
  · rintro ⟨first, ⟨list, hlist, base, hbase, hresolve⟩, hreached⟩
    exact ⟨list, hlist, base, hbase, first, hresolve, hreached⟩
  · rintro ⟨list, hlist, base, hbase, first, hresolve, hreached⟩
    exact ⟨first, ⟨list, hlist, base, hbase, hresolve⟩, hreached⟩

/-- Two interfaces that list each other, and one of them a name that stands for nothing. -/
def cyclicCatalog : Catalog where
  types := [
    { space := "", name := "IFirst", kind := .interface, interfaces := ["Nowhere", "ISecond"] },
    { space := "", name := "ISecond", kind := .interface, interfaces := ["IFirst"]
      members := [{ name := "Run", kind := .method }] }]

/-- The second method is the one that the second interface has. -/
def cyclicSource : String :=
  "class C : IFirst { public void Walk() { } public void Run() { } }"

theorem implementsInterface_decides_cyclic :
    ∃ t, Tree.parse cyclicSource = .ok t ∧ ∃ s ∈ t.sites, s.kind = .methodDeclaration ∧
      ∃ method, View.Method.of? s.node = some method ∧ method.isExplicit = false ∧
        (build t cyclicCatalog).toSemanticModel.implementsInterface s = .ok true ∧
        (build t cyclicCatalog).Decides s method true := by
  have hfacts : (Tree.parse cyclicSource).toOption.map (fun t => do
      let s ← t.get? [0, 6]
      let method ← View.Method.of? s.node
      return (s.kind, method.isExplicit, (build t cyclicCatalog).implementsMember s method)) =
        some (some (.methodDeclaration, false, true)) := by
    decide +kernel
  obtain ⟨t, hparse, hfacts⟩ := exists_ok_of_map hfacts
  simp only [Option.bind_eq_bind, Option.bind_eq_some_iff, Option.pure_def, Option.some.injEq,
    Prod.mk.injEq] at hfacts
  obtain ⟨s, hs, method, hmethod, hkind, hplain, htrue⟩ := hfacts
  have hs := Tree.mem_sites_of_get? hs
  obtain ⟨method', hmethod', answer, hanswer, hdecides, -⟩ :=
    implementsInterface_decides t cyclicCatalog hs hkind
  obtain rfl := Option.some.inj (hmethod.symm.trans hmethod')
  have hanswer_eq : answer = true := by
    rw [← htrue]
    exact Except.ok.inj (hanswer.symm.trans (implementsInterface_eq hs hmethod))
  subst hanswer_eq
  exact ⟨t, hparse, s, hs, hkind, method, hmethod, hplain, hanswer, hdecides⟩

end SourceModel

end Recast
