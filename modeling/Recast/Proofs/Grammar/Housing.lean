-- SUMMARY: Where constructs stand in a tree that was read: below imports, headers of methods and lists of markers and base types stand types and tokens alone, imports stand in files and namespaces alone, and the items of lists are well separated.
import Recast.Proofs.Grammar.Listing
import Recast.Proofs.Grammar.Spelling
import Recast.Proofs.Tree.Observing

/-! # Housing

Edits of a file take away or rewrite some parts of a construct without regard to what stands in
them: an import with all of it, the modifiers and the return type of a method, a list whose last
marker or base type goes. In a tree that was read only types and bare runs of tokens stand there
(`Kind.bars`, `Kind.isDull`), and a method has its return type right after its modifiers
(`Element.HeadedIn`). All this is local to a node and its children (`Kind.Houses`) and holds
throughout a tree that was read (`Node.Housed`). There the tokens of the return type also have the
spelling of a type, the modifiers are words (`Element.TypedIn`), and lists are well separated
(`Kind.Arranges`, `Node.Formed`).

The proof goes through the grammar once. What a parser gives on every input is a predicate on its
result (`Parser.Gives`), with one rule for each combinator. -/

namespace Recast

/-! ## Kinds -/

namespace Kind

/-- An expression or a type. -/
def isValue : Kind → Bool
  | .invocationExpression | .memberAccessExpression | .elementAccessExpression | .literalExpression
  | .thisExpression | .baseExpression | .parenthesizedExpression | .tupleExpression
  | .castExpression | .prefixUnaryExpression | .postfixUnaryExpression | .awaitExpression
  | .binaryExpression | .assignmentExpression | .conditionalExpression | .simpleLambdaExpression
  | .parenthesizedLambdaExpression | .anonymousMethodExpression | .objectCreationExpression
  | .implicitObjectCreationExpression | .arrayCreationExpression
  | .implicitArrayCreationExpression | .anonymousObjectCreationExpression | .initializerExpression
  | .collectionExpression | .typeOfExpression | .defaultExpression | .checkedExpression
  | .throwExpression | .switchExpression => true
  | kind => kind.isTypeName

/-- A type, a part of one, or a bare run of tokens in a declaration. -/
def isDull : Kind → Bool
  | .typeArgumentList | .arrayRankSpecifier | .tupleElement | .modifiers
  | .attributeTargetSpecifier => true
  | kind => kind.isTypeName

/-- A file, a namespace or an import. -/
def isScope : Kind → Bool
  | .compilationUnit | .usingDirective | .namespaceDeclaration
  | .fileScopedNamespaceDeclaration => true
  | _ => false

/-- True for a child, of the second kind, that an edit of the parent may drop or rewrite whole. -/
def bars : Kind → Kind → Bool
  | .usingDirective, _ => true
  | .attributeList, kind => kind != .attribute
  | .baseList, kind => kind != .baseType
  | .methodDeclaration, kind => kind == .modifiers || kind.isValue
  | _, _ => false

/-- The word that a declaration of a type starts with, after its attributes and modifiers. -/
def introducer? : Kind → Option String
  | .classDeclaration => some "class"
  | .structDeclaration => some "struct"
  | .interfaceDeclaration => some "interface"
  | .recordDeclaration => some "record"
  | .enumDeclaration => some "enum"
  | _ => none

/-- A construct that may have any children of a declaration. -/
def isOrdinary : Kind → Bool
  | .usingDirective | .attributeList | .baseList | .parameterList | .methodDeclaration
  | .constructorDeclaration => false
  | kind => kind.introducer?.isNone

/-- A construct in a declaration, but for the items of lists that stand nowhere else. -/
def isInner (kind : Kind) : Bool :=
  !kind.isScope && kind.list?.isNone

theorem bars_of_isOrdinary {kind : Kind} (h : kind.isOrdinary = true) (child : Kind) :
    kind.bars child = false := by
  cases kind <;> first | rfl | cases h

theorem introducer?_of_isOrdinary {kind : Kind} (h : kind.isOrdinary = true) :
    kind.introducer? = none := by
  cases kind <;> first | rfl | cases h

theorem item?_of_isOrdinary {kind : Kind} (h : kind.isOrdinary = true) : kind.item? = none := by
  cases kind <;> first | rfl | cases h

theorem isConstructible_of_isOrdinary {kind : Kind} (h : kind.isOrdinary = true) :
    kind.isConstructible = false := by
  cases kind <;> first | rfl | cases h

theorem isInner_iff {kind : Kind} :
    kind.isInner = true ↔ kind.isScope = false ∧ kind.list? = none := by
  simp [isInner]

theorem isInner_of_isValue {kind : Kind} (h : kind.isValue = true) : kind.isInner = true := by
  cases kind <;> first | rfl | cases h

theorem isValue_of_isTypeName {kind : Kind} (h : kind.isTypeName = true) : kind.isValue = true := by
  cases kind <;> first | rfl | cases h

theorem isInner_of_isDull {kind : Kind} (h : kind.isDull = true) : kind.isInner = true := by
  cases kind <;> first | rfl | cases h

theorem isDull_of_isTypeName {kind : Kind} (h : kind.isTypeName = true) : kind.isDull = true := by
  cases kind <;> first | rfl | cases h

theorem isInner_of_isMember {kind : Kind} (h : kind.isMember = true) : kind.isInner = true := by
  cases kind <;> first | rfl | cases h

theorem isInner_of_isStatement {kind : Kind} (h : kind.isStatement = true) :
    kind.isInner = true := by
  cases kind <;> first | rfl | cases h

end Kind

/-! ## Housed nodes -/

namespace Element

/-- Every node among the parts is of a sort. -/
def Each (P : Node → Prop) (parts : List Element) : Prop :=
  ∀ n, .node n ∈ parts → P n

/-- Modifiers are followed by an expression or a type. -/
def HeadedIn : List Element → Prop
  | [] => True
  | e :: es =>
    (e.isNode .modifiers = true → ∃ v, es.head? = some (.node v) ∧ v.kind.isValue = true) ∧
      HeadedIn es

variable {P Q : Node → Prop} {xs ys : List Element}

theorem each_nil : Each P [] := by simp [Each]

theorem Each.append (hx : Each P xs) (hy : Each P ys) : Each P (xs ++ ys) := by
  intro n hn
  rcases List.mem_append.1 hn with hn | hn
  · exact hx n hn
  · exact hy n hn

theorem Each.mono (h : Each P xs) (hPQ : ∀ n, P n → Q n) : Each Q xs :=
  fun n hn => hPQ n (h n hn)

theorem each_single {n : Node} (h : P n) : Each P [.node n] := by
  simpa [Each] using h

theorem headedIn_append (hxs : Each (·.kind ≠ .modifiers) xs) (hys : HeadedIn ys) :
    HeadedIn (xs ++ ys) := by
  induction xs with
  | nil => exact hys
  | cons e xs ih =>
    refine ⟨fun hmodifiers => ?_, ih fun n hn => hxs n (List.mem_cons_of_mem _ hn)⟩
    cases e with
    | token u => cases hmodifiers
    | node n => exact absurd (eq_of_beq hmodifiers) (hxs n (List.mem_cons_self ..))

theorem headedIn_of_each (h : Each (·.kind ≠ .modifiers) xs) : HeadedIn xs := by
  have happend : HeadedIn (xs ++ []) := headedIn_append h trivial
  rwa [List.append_nil] at happend

theorem each_tokens (ts : List Token) : Each P (ts.map .token) := by
  simp [Each]

theorem each_nodes {ns : List Node} (h : ∀ n ∈ ns, P n) : Each P (ns.map .node) := by
  simpa [Each] using h

end Element

/-- What holds of all nodes below one holds of the node and of all below its parts. -/
theorem Node.forall_at?_iff {P : Node → Prop} {n : Node} :
    (∀ p m, n.at? p = some m → P m) ↔
      P n ∧ Element.Each (fun c => ∀ p m, c.at? p = some m → P m) n.children := by
  constructor
  · intro h
    refine ⟨h [] n rfl, fun c hc p m hat => ?_⟩
    obtain ⟨i, hi⟩ := List.mem_iff_getElem?.1 hc
    exact h (i :: p) m (at?_cons_eq_some.2 ⟨c, hi, hat⟩)
  · rintro ⟨hself, hbelow⟩ p m hat
    cases p with
    | nil =>
      obtain rfl := Option.some.inj hat
      exact hself
    | cons i p =>
      obtain ⟨c, hc, hat⟩ := at?_cons_eq_some.1 hat
      exact hbelow c (List.mem_of_getElem? hc) p m hat

/-- A run of modifiers, each of them a word. -/
structure Node.IsModifiers (n : Node) : Prop where
  kind_eq : n.kind = .modifiers
  words : ∀ e ∈ n.children, ∃ t, e = .token t ∧ t.isWord = true

/-- A generic name starts with its identifier. -/
def Node.Led (n : Node) : Prop :=
  n.kind = .genericName → ∃ t rest, n.children = .token t :: rest ∧ t.kind = .identifier

/-- The header of a method is its modifiers and a type; it has no other modifiers and no other
    type. -/
def Element.TypedIn (parts : List Element) : Prop :=
  ∃ lists mods type rest, parts = lists ++ .node mods :: .node type :: rest ∧ mods.IsModifiers ∧
    (type.kind.isTypeName = true ∧ type.Led) ∧ Grammar.Spelled .type type.tokens ∧
    Each (fun c => Kind.bars .methodDeclaration c.kind = false) (lists ++ rest)

/-- The words that introduce the name of a type. A record may say that it is a class or a
    structure. -/
def Kind.Introduces (kind : Kind) (words : List Token) : Prop :=
  ∃ t more, words = t :: more ∧ (∃ word, kind.introducer? = some word ∧ t.is word = true) ∧
    (more = [] ∨ kind = .recordDeclaration ∧ ∃ u, more = [u] ∧
      (u.is "class" = true ∨ u.is "struct" = true))

/-- The declaration of a type has its name right after the words that introduce it, which stand
    behind its attributes and modifiers. -/
def Element.NamedIn (kind : Kind) (name : String) (parts : List Element) : Prop :=
  ∃ head words t rest, parts = head ++ words.map .token ++ .token t :: rest ∧
    (∀ e ∈ head, ∃ n, e = .node n) ∧ kind.Introduces words ∧ t.kind = .identifier ∧ t.text = name

/-- The children fit a construct: what an edit may drop is dull, a method has its return type
    after its modifiers, and imports and namespaces stand in files and namespaces. -/
structure Kind.Houses (kind : Kind) (parts : List Element) : Prop where
  dull : Element.Each (fun c => kind.bars c.kind = true → ∀ top ∈ c.tops, top.kind.isDull = true)
    parts
  headed : kind = .methodDeclaration → Element.HeadedIn parts
  scope : Element.Each (fun c => c.kind.isScope = true → kind.isScope = true) parts

/-- The children fit a construct, make a typed header where it is a method and name it where it is
    a type, and are arranged as lists need it. -/
structure Kind.Forms (kind : Kind) (parts : List Element) : Prop extends kind.Houses parts where
  typed : kind = .methodDeclaration → Element.TypedIn parts
  named : kind.introducer?.isSome = true → ∃ name, Element.NamedIn kind name parts
  arranges : kind.Arranges parts

namespace Node

/-- Nothing but types, parts of types and bare runs of tokens stands in a node. -/
def Dull (n : Node) : Prop :=
  ∀ top ∈ n.tops, top.kind.isDull = true

/-- The children of every node in a node fit it. -/
inductive Housed : Node → Prop where
  | intro {n : Node} (houses : n.kind.Houses n.children) (below : Element.Each Housed n.children) :
      n.Housed

/-- As `Housed`, with the headers of methods typed, types named and lists well separated. -/
inductive Formed : Node → Prop where
  | intro {n : Node} (forms : n.kind.Forms n.children) (below : Element.Each Formed n.children) :
      n.Formed

/-- A node of a kind that fits. -/
def Is (kind : Kind) (n : Node) : Prop :=
  n.Formed ∧ n.kind = kind

/-- A construct in a declaration that is no item of a list. -/
def Inner (n : Node) : Prop :=
  n.Formed ∧ n.kind.isInner = true

/-- Anything but an item of a list. -/
def Loose (n : Node) : Prop :=
  n.Formed ∧ n.kind.list? = none

/-- An expression or a type. -/
def Value (n : Node) : Prop :=
  n.Formed ∧ n.kind.isValue = true

/-- A part of a type. -/
def TypePart (n : Node) : Prop :=
  n.Formed ∧ n.Dull

/-- A type. -/
def TypeName (n : Node) : Prop :=
  n.TypePart ∧ n.kind.isTypeName = true

/-- A statement or a member. -/
def Statement (n : Node) : Prop :=
  n.Formed ∧ (n.kind.isStatement = true ∨ n.kind.isMember = true)

/-- A member. -/
def Member (n : Node) : Prop :=
  n.Formed ∧ n.kind.isMember = true

variable {n : Node}

theorem Housed.houses (h : n.Housed) : n.kind.Houses n.children := by
  cases h with
  | intro houses below => exact houses

theorem Housed.child {c : Node} (h : n.Housed) (hc : .node c ∈ n.children) : c.Housed := by
  cases h with
  | intro houses below => exact below c hc

theorem Formed.housed (h : n.Formed) : n.Housed := by
  induction h with
  | intro forms below ih => exact .intro forms.toHouses ih

theorem Formed.forms (h : n.Formed) : n.kind.Forms n.children := by
  cases h with
  | intro forms below => exact forms

theorem Formed.child {c : Node} (h : n.Formed) (hc : .node c ∈ n.children) : c.Formed := by
  cases h with
  | intro forms below => exact below c hc

theorem Formed.at? {m : Node} {p : Path} (h : n.Formed) (hat : n.at? p = some m) : m.Formed := by
  induction p generalizing n with
  | nil =>
    obtain rfl := Option.some.inj hat
    exact h
  | cons i p ih =>
    obtain ⟨c, hc, hat⟩ := at?_cons_eq_some.1 hat
    exact ih (h.child (List.mem_of_getElem? hc)) hat

theorem Housed.at? {m : Node} {p : Path} (h : n.Housed) (hat : n.at? p = some m) : m.Housed := by
  induction p generalizing n with
  | nil =>
    obtain rfl := Option.some.inj hat
    exact h
  | cons i p ih =>
    obtain ⟨c, hc, hat⟩ := at?_cons_eq_some.1 hat
    exact ih (h.child (List.mem_of_getElem? hc)) hat

theorem Inner.isScope (h : n.Inner) : n.kind.isScope = false :=
  (Kind.isInner_iff.1 h.2).1

theorem Inner.loose (h : n.Inner) : n.Loose :=
  ⟨h.1, (Kind.isInner_iff.1 h.2).2⟩

theorem Inner.child {c : Node} (h : n.Inner) (hlist : n.kind.item? = none)
    (hc : .node c ∈ n.children) : c.Inner := by
  refine ⟨h.1.child hc, Kind.isInner_iff.2 ⟨Bool.eq_false_iff.2 fun hscope => ?_, ?_⟩⟩
  · have hself := h.isScope
    rw [h.1.forms.scope c hc hscope] at hself
    cases hself
  · cases hitem : c.kind.list? with
    | none => rfl
    | some list =>
      rw [h.1.forms.arranges.placed c hc list hitem, Kind.item?_of_list? hitem] at hlist
      cases hlist

theorem Dull.isDull (h : n.Dull) : n.kind.isDull = true :=
  h n.top (by simp [tops_eq])

theorem dull_ofChildren {kind : Kind} {parts : List Element} (hkind : kind.isDull = true)
    (hparts : Element.Each Dull parts) : (ofChildren kind parts).Dull := by
  intro top htop
  rw [tops_eq, List.mem_cons, Element.mem_topsIn] at htop
  rcases htop with rfl | ⟨c, hc, htop⟩
  · exact hkind
  · exact hparts c hc top htop

theorem Is.inner {kind : Kind} (h : n.Is kind) (hkind : kind.isInner = true) : n.Inner :=
  ⟨h.1, h.2 ▸ hkind⟩

theorem Is.value {kind : Kind} (h : n.Is kind) (hkind : kind.isValue = true) : n.Value :=
  ⟨h.1, h.2 ▸ hkind⟩

theorem Value.inner (h : n.Value) : n.Inner :=
  ⟨h.1, Kind.isInner_of_isValue h.2⟩

theorem TypePart.inner (h : n.TypePart) : n.Inner :=
  ⟨h.1, Kind.isInner_of_isDull h.2.isDull⟩

theorem TypeName.value (h : n.TypeName) : n.Value :=
  ⟨h.1.1, Kind.isValue_of_isTypeName h.2⟩

theorem Statement.inner (h : n.Statement) : n.Inner :=
  ⟨h.1, h.2.elim Kind.isInner_of_isStatement Kind.isInner_of_isMember⟩

theorem Member.statement (h : n.Member) : n.Statement :=
  ⟨h.1, .inr h.2⟩

end Node

/-- Children of a declaration fit a construct that bars none, when they are arranged. -/
theorem Kind.forms_of_inner {kind : Kind} (hbars : ∀ child, kind.bars child = false)
    (hmethod : kind ≠ .methodDeclaration) {parts : List Element}
    (hnamed : kind.introducer?.isSome = true → ∃ name, Element.NamedIn kind name parts)
    (hparts : Element.Each Node.Inner parts) (harranges : kind.Arranges parts) :
    kind.Forms parts where
  dull c _ h := by
    rw [hbars] at h
    cases h
  headed h := absurd h hmethod
  typed h := absurd h hmethod
  named := hnamed
  scope c hc hscope := by
    rw [(hparts c hc).isScope] at hscope
    cases hscope
  arranges := harranges

/-- Children of a declaration fit all ordinary constructs. -/
theorem Kind.forms_of_isOrdinary {kind : Kind} (hkind : kind.isOrdinary = true)
    {parts : List Element} (hparts : Element.Each Node.Inner parts) : kind.Forms parts := by
  refine forms_of_inner (bars_of_isOrdinary hkind) ?_ (fun hnamed => ?_) hparts ?_
  · rintro rfl
    cases hkind
  · rw [introducer?_of_isOrdinary hkind] at hnamed
    cases hnamed
  · exact .of_plain (item?_of_isOrdinary hkind) (isConstructible_of_isOrdinary hkind)
      fun c hc => (hparts c hc).loose.2

/-- A list of attributes or base types over its items and perhaps what names its target. -/
theorem Kind.forms_of_items {item list : Kind} (hitem : item.list? = some list)
    {parts : List Element} (hparts : Element.Each (fun n => n.Is item ∨ n.TypePart) parts)
    (hrow : ∃ trailing, Mark.IsList list trailing (Element.row parts)) : list.Forms parts := by
  have hinner : item.isScope = false ∧ list ≠ .methodDeclaration ∧ list.introducer? = none ∧
      list.isConstructible = false ∧ list.bars item = false := by
    cases item <;> cases hitem <;> decide
  obtain ⟨hscope, hmethod, hnone, hplain, hbars⟩ := hinner
  refine ⟨⟨fun c hc h => ?_, (absurd · hmethod), fun c hc h => ?_⟩, (absurd · hmethod),
    fun h => ?_, ⟨fun _ => hrow, fun h => ?_, fun c hc other h => ?_⟩⟩
  · rcases hparts c hc with his | htype
    · rw [his.2, hbars] at h
      cases h
    · exact htype.2
  · rcases hparts c hc with his | htype
    · rw [his.2, hscope] at h
      cases h
    · rw [htype.inner.isScope] at h
      cases h
  · rw [hnone] at h
    cases h
  · rw [hplain] at h
    cases h
  · rcases hparts c hc with his | htype
    · rw [his.2, hitem] at h
      exact Option.some.inj h
    · rw [htype.inner.loose.2] at h
      cases h

/-- A list of parameters over a row of them. -/
theorem Kind.forms_of_parameters {parts : List Element} (hparts : Element.Each Node.Inner parts)
    {trailing : List Mark} (hrow : Mark.IsList .parameterList trailing (Element.row parts)) :
    Kind.Forms .parameterList parts := by
  refine Kind.forms_of_inner (fun _ => rfl) (by decide) (nomatch ·) hparts
    ⟨fun _ => ⟨trailing, hrow⟩, (nomatch ·), fun c hc list hlist => ?_⟩
  rw [(hparts c hc).loose.2] at hlist
  cases hlist

/-! ## What parsers give -/

namespace Parser

variable {α β : Type} {A : α → Prop} {B : β → Prop} {P Q : Node → Prop}

/-- Whatever the parser reads, wherever it starts, is of a sort. -/
def Gives (A : α → Prop) (p : Parser α) : Prop :=
  ∀ c a d, p c = .ok (a, d) → A a

/-- Every node among the parts that the piece reads is of a sort. -/
abbrev Yields (P : Node → Prop) (p : Piece) : Prop :=
  Gives (Element.Each P) p

theorem Gives.mono {A' : α → Prop} {p : Parser α} (h : Gives A p) (hA : ∀ a, A a → A' a) :
    Gives A' p :=
  fun c a d hok => hA a (h c a d hok)

theorem Gives.bind {p : Parser α} {f : α → Parser β} (hp : Gives A p)
    (hf : ∀ a, A a → Gives B (f a)) : Gives B (p >>= f) := by
  intro c b e h
  obtain ⟨a, d, ha, h⟩ := bind_eq_ok h
  exact hf a (hp c a d ha) d b e h

theorem gives_pure {a : α} (h : A a) : Gives A (pure a : Parser α) := by
  intro c b d hok
  obtain ⟨rfl, rfl⟩ := Prod.mk.inj (Except.ok.inj hok)
  exact h

theorem gives_get {f : Cursor → Parser β} (hf : ∀ c, Gives B (f c)) : Gives B (get >>= f) := by
  refine Gives.bind (A := fun _ => True) (fun _ _ _ _ => trivial) fun c _ => hf c

theorem gives_fail (A : α → Prop) (what : String) : Gives A (fail what : Parser α) := by
  intro c a d h
  cases h

theorem gives_ite {test : Cursor → Bool} {p q : Parser α} (hp : Gives A p) (hq : Gives A q) :
    Gives A fun c => if test c then p c else q c := by
  intro c a d h
  dsimp only at h
  split at h
  · exact hp c a d h
  · exact hq c a d h

theorem Gives.ifAt {test : Cursor → Bool} {p q : Parser α} (hp : Gives A p) (hq : Gives A q) :
    Gives A (ifAt test p q) :=
  gives_ite hp hq

theorem Gives.orElse {p q : Parser α} (hp : Gives A p) (hq : Gives A q) :
    Gives A (orElse p q) := by
  intro c a d h
  rcases orElse_eq_ok h with h | h
  · exact hp c a d h
  · exact hq c a d h

theorem Gives.recover {p q : Parser α} (hp : Gives A p) (hq : Gives A q) :
    Gives A (recover p q) := by
  intro c a d h
  rcases recover_eq_ok h with h | h
  · exact hp c a d h
  · exact hq c a d h

theorem Gives.followedBy {p : Parser α} (hp : Gives A p) (test : Cursor → Bool) (what : String) :
    Gives A (p.followedBy test what) :=
  hp.bind fun _ ha => Gives.bind (A := fun _ => True) (fun _ _ _ _ => trivial) fun _ _ =>
    gives_pure ha

/-! ### Pieces -/

theorem yields_given {parts : List Element} (h : Element.Each P parts) : Yields P (given parts) :=
  gives_pure h

theorem Yields.append {p q : Piece} (hp : Yields P p) (hq : Yields P q) : Yields P (p ++ q) :=
  Gives.bind hp fun _ hxs => Gives.bind hq fun _ hys => gives_pure (hxs.append hys)

theorem yields_token : Yields P token :=
  Gives.bind (A := fun _ => True) (fun _ _ _ _ => trivial) fun u _ =>
    gives_pure (Element.each_tokens [u])

theorem yields_take (n : Nat) : Yields P (take n) := by
  induction n with
  | zero => exact yields_given Element.each_nil
  | succ n ih => exact yields_token.append ih

theorem yields_mark (text : String) : Yields P (mark text) := by
  intro c parts d h
  simp only [mark] at h
  split at h
  · exact yields_token c parts d h
  · cases h

theorem yields_name : Yields P name := by
  intro c parts d h
  simp only [name] at h
  split at h
  · exact yields_token c parts d h
  · cases h

theorem yields_check (test : Cursor → Bool) (what : String) : Yields P (check test what) := by
  intro c parts d h
  obtain ⟨-, rfl, -⟩ := check_eq_ok h
  exact Element.each_nil

theorem Gives.one {p : Parser Node} (h : Gives P p) : Yields P (one p) :=
  h.bind fun _ hn => gives_pure (Element.each_single hn)

theorem Yields.ifAt {test : Cursor → Bool} {p q : Piece} (hp : Yields P p) (hq : Yields P q) :
    Yields P (ifAt test p q) :=
  gives_ite hp hq

theorem Yields.orElse {p q : Piece} (hp : Yields P p) (hq : Yields P q) :
    Yields P (Parser.orElse p q) :=
  Gives.orElse hp hq

theorem Yields.whenAt {test : Cursor → Bool} {p : Piece} (h : Yields P p) :
    Yields P (whenAt test p) :=
  h.ifAt (yields_given Element.each_nil)

theorem Yields.rounds {test : Cursor → Bool} {p : Piece} (h : Yields P p) (bound : Nat) :
    Yields P (rounds test p bound) := by
  induction bound with
  | zero => exact yields_given Element.each_nil
  | succ bound ih => exact gives_ite (h.append ih) (yields_given Element.each_nil)

theorem Yields.repeatWhile {test : Cursor → Bool} {p : Piece} (h : Yields P p) :
    Yields P (repeatWhile test p) :=
  fun c => h.rounds (c.ahead.length + 1) c

theorem Yields.commaList {item : Piece} (h : Yields P item) : Yields P (commaList item) :=
  h.append (yields_token.append h).repeatWhile

theorem Yields.itemsBefore {item : Piece} (h : Yields P item) (close : String) (bound : Nat) :
    Yields P (itemsBefore close item bound) := by
  induction bound with
  | zero => exact yields_given Element.each_nil
  | succ bound ih =>
    exact gives_ite (yields_given Element.each_nil) (h.append (yields_token.append ih).whenAt)

theorem Yields.openList {close : String} {item : Piece} (h : Yields P item) :
    Yields P (openList close item) :=
  fun c => h.itemsBefore close (c.ahead.length + 1) c

theorem Yields.bracketed {opening close : String} {item : Piece} (h : Yields P item) :
    Yields P (bracketed opening close item) :=
  ((yields_mark _).append h.commaList.whenAt).append (yields_mark _)

theorem yields_group : Yields P group := by
  intro c parts d h
  simp only [group] at h
  split at h
  · cases h
  · obtain ⟨rfl, -⟩ := Prod.mk.inj (Except.ok.inj h)
    exact Element.each_tokens _

theorem yields_rawRounds (bound : Nat) (fresh : Bool) : Yields P (rawRounds bound fresh) := by
  induction bound generalizing fresh with
  | zero => exact yields_given Element.each_nil
  | succ bound ih =>
    intro c parts d h
    simp only [rawRounds] at h
    split at h
    · exact yields_given Element.each_nil c parts d h
    · split at h
      · split at h
        · cases h
        · exact yields_given Element.each_nil c parts d h
      · split at h
        · exact yields_group.append yields_token.whenAt c parts d h
        · split at h
          · exact yields_group.append (ih false) c parts d h
          · split at h
            · exact yields_token c parts d h
            · exact yields_token.append (ih false) c parts d h

/-! ### Names of types -/

/-- As `Gives`, where the cursor stands. -/
def GivesAt (c : Cursor) (A : α → Prop) (p : Parser α) : Prop :=
  ∀ a d, p c = .ok (a, d) → A a

theorem gives_getAt {f : Cursor → Parser β} (hf : ∀ c, GivesAt c B (f c)) : Gives B (get >>= f) := by
  intro c b d h
  obtain ⟨e, _, hget, h⟩ := bind_eq_ok h
  obtain ⟨rfl, rfl⟩ := Prod.mk.inj (Except.ok.inj hget)
  exact hf _ b d h

theorem token_reads_current {c d : Cursor} {parts : List Element} (h : token c = .ok (parts, d)) :
    parts = [.token c.current] := by
  obtain ⟨t, e, hbump, h⟩ := bind_eq_ok h
  obtain ⟨rfl, rfl⟩ := Prod.mk.inj (Except.ok.inj h)
  unfold bump at hbump
  split at hbump <;> obtain ⟨rfl, -⟩ := Prod.mk.inj (Except.ok.inj hbump) <;>
    simp [Cursor.current, Cursor.nth, *]

theorem gives_mark (text : String) :
    Gives (fun parts => ∃ t, parts = [.token t] ∧ t.is text = true) (mark text) := by
  intro c parts d h
  unfold mark at h
  split at h
  · rename_i hsees
    exact ⟨c.current, token_reads_current h, hsees⟩
  · cases h

theorem gives_name : Gives (fun parts => ∃ t, parts = [.token t] ∧ t.kind = .identifier) name := by
  intro c parts d h
  unfold name at h
  split at h
  · rename_i hat
    exact ⟨c.current, token_reads_current h, eq_of_beq hat⟩
  · cases h

/-- Rounds of nodes read nothing else. -/
theorem gives_nodes {test : Cursor → Bool} {p : Parser Node} :
    Gives (fun parts => ∀ e ∈ parts, ∃ n, e = .node n) (repeatWhile test (one p)) := by
  intro c parts d h e he
  rw [Fragment.rounds_nodes h] at he
  obtain ⟨n, -, rfl⟩ := List.mem_map.1 he
  exact ⟨n, rfl⟩

section Names

variable {c : Cursor} {kind : Kind} {head : List Element} {p q : Piece}

/-- What follows does not change the name. -/
theorem GivesAt.named_append
    (h : GivesAt c (fun parts => ∃ name, Element.NamedIn kind name parts) p) :
    GivesAt c (fun parts => ∃ name, Element.NamedIn kind name parts) (p ++ q) := by
  intro parts e hok
  obtain ⟨xs, d, ys, hxs, -, rfl⟩ := append_eq_ok hok
  obtain ⟨name, head, words, t, rest, rfl, hhead, hwords, hkind, htext⟩ := h xs d hxs
  exact ⟨name, head, words, t, rest ++ ys, by simp, hhead, hwords, hkind, htext⟩

/-- The name follows the words that introduce it. -/
theorem GivesAt.named (hhead : ∀ e ∈ head, ∃ n, e = .node n) (h : GivesAt c (fun parts =>
      ∃ words, parts = head ++ words.map .token ∧ kind.Introduces words) p) :
    GivesAt c (fun parts => ∃ name, Element.NamedIn kind name parts) (p ++ name) := by
  intro parts e hok
  obtain ⟨_, d, own, hstart, hown, rfl⟩ := append_eq_ok hok
  obtain ⟨words, rfl, hwords⟩ := h _ d hstart
  obtain ⟨t, rfl, hkind⟩ := gives_name d own e hown
  exact ⟨t.text, head, words, t, [], rfl, hhead, hwords, hkind, rfl⟩

end Names

/-! ### Rows of lists -/

theorem Gives.and {A' : α → Prop} {p : Parser α} (h : Gives A p) (h' : Gives A' p) :
    Gives (fun a => A a ∧ A' a) p :=
  fun c a d hok => ⟨h c a d hok, h' c a d hok⟩

/-- The parts that the piece reads make a row of such marks. -/
abbrev Shows (A : List Mark → Prop) (p : Piece) : Prop :=
  Gives (fun parts => A (Element.row parts)) p

section Rows

variable {R S T : List Mark → Prop} {p q : Piece} {item : Kind}

theorem Shows.append (hp : Shows R p) (hq : Shows S q) (h : ∀ xs ys, R xs → S ys → T (xs ++ ys)) :
    Shows T (p ++ q) :=
  Gives.bind hp fun xs hxs => Gives.bind hq fun ys hys => gives_pure <| by
    rw [Element.row_append]
    exact h _ _ hxs hys

theorem Shows.whenAt {test : Cursor → Bool} (h : Shows R p) :
    Shows (fun row => row = [] ∨ R row) (whenAt test p) :=
  Gives.ifAt (h.mono fun _ => .inr) (gives_pure (.inl rfl))

theorem shows_mark {text : String} (htext : text ≠ ",") : Shows (· = [.word text]) (mark text) := by
  intro c parts d h
  unfold mark at h
  split at h
  · rename_i hsees
    have hcurrent : c.current.text = text := by
      simp only [Cursor.sees, Token.is, Bool.and_eq_true, beq_iff_eq] at hsees
      exact hsees.1
    have hother : c.current.is "," = false := by simp [Token.is, hcurrent, htext]
    rw [token_reads_current h]
    simp [Element.row, Element.mark, hother, hcurrent]
  · cases h

theorem shows_one {r : Parser Node} (h : Gives (Node.Is item) r) :
    Shows (fun row => ∃ span, row = [.node item span]) (one r) :=
  h.bind fun n hn => gives_pure ⟨n.span, by rw [Element.row, List.map_singleton, Element.mark, hn.2]⟩

/-- A comma, where there is one, and what the piece reads after it. -/
theorem shows_comma_append (h : Shows R p) {c d : Cursor} {parts : List Element}
    (hsees : c.sees "," = true) (hok : (token ++ p) c = .ok (parts, d)) :
    ∃ marks, Element.row parts = .comma :: marks ∧ R marks := by
  obtain ⟨xs, e, ys, hxs, hys, rfl⟩ := append_eq_ok hok
  refine ⟨Element.row ys, ?_, h e ys d hys⟩
  rw [token_reads_current hxs, Element.row_append, Element.row, List.map_singleton,
    Element.mark_comma hsees]
  rfl

theorem Shows.afterComma (h : Shows R p) : Shows
    (fun row => row = [] ∨ ∃ marks, row = .comma :: marks ∧ R marks)
    (Parser.whenAt (Cursor.sees ",") (token ++ p)) := by
  intro c parts d hok
  simp only [Parser.whenAt, Parser.ifAt] at hok
  split at hok
  · rename_i hsees
    exact .inr (shows_comma_append h hsees hok)
  · obtain ⟨rfl, -⟩ := Prod.mk.inj (Except.ok.inj hok)
    exact .inl rfl

theorem shows_rounds {r : Parser Node} (h : Gives (Node.Is item) r) (bound : Nat) :
    Shows (Mark.Continues item) (rounds (Cursor.sees ",") (token ++ one r) bound) := by
  induction bound with
  | zero => exact gives_pure (.inl rfl)
  | succ bound ih =>
    intro c parts d hok
    simp only [rounds] at hok
    split at hok
    · rename_i hsees
      obtain ⟨xs, e, ys, hxs, hys, rfl⟩ := append_eq_ok hok
      obtain ⟨marks, hmarks, span, rfl⟩ := shows_comma_append (shows_one h) hsees hxs
      rw [Element.row_append, hmarks]
      rcases ih e ys d hys with hnil | ⟨more, hmore, hseparated⟩
      · exact .inr ⟨[.node item span], by rw [hnil, List.append_nil], .last⟩
      · exact .inr ⟨.node item span :: .comma :: more, by rw [hmore]; rfl, .more hseparated⟩
    · obtain ⟨rfl, -⟩ := Prod.mk.inj (Except.ok.inj hok)
      exact .inl rfl

theorem shows_commaList {r : Parser Node} (h : Gives (Node.Is item) r) :
    Shows (Mark.Separated item) (commaList (one r)) := by
  have hmore : Shows (Mark.Continues item)
      (Parser.repeatWhile (Cursor.sees ",") (token ++ one r)) :=
    fun c => shows_rounds h (c.ahead.length + 1) c
  refine (shows_one h).append hmore fun xs ys hxs hys => ?_
  obtain ⟨span, rfl⟩ := hxs
  rcases hys with rfl | ⟨marks, rfl, hseparated⟩
  · exact .last
  · exact .more hseparated

theorem shows_itemsBefore {r : Parser Node} (h : Gives (Node.Is item) r) (close : String)
    (bound : Nat) : Shows (Mark.Open item) (itemsBefore close (one r) bound) := by
  induction bound with
  | zero => exact gives_pure (.inl rfl)
  | succ bound ih =>
    have hitem : Shows (Mark.Open item)
        (one r ++ Parser.whenAt (Cursor.sees ",") (token ++ itemsBefore close (one r) bound)) := by
      refine (shows_one h).append ih.afterComma fun xs ys hxs hys => .inr ?_
      obtain ⟨span, rfl⟩ := hxs
      rcases hys with rfl | ⟨marks, rfl, rfl | ⟨items, trailing, rfl, hseparated, htrailing⟩⟩
      · exact ⟨[.node item span], [], rfl, .last, .inl rfl⟩
      · exact ⟨[.node item span], [.comma], rfl, .last, .inr rfl⟩
      · exact ⟨.node item span :: .comma :: items, trailing, rfl, .more hseparated, htrailing⟩
    exact gives_ite (gives_pure (.inl rfl)) hitem

theorem shows_openList {r : Parser Node} (h : Gives (Node.Is item) r) (close : String) :
    Shows (Mark.Open item) (openList close (one r)) :=
  fun c => shows_itemsBefore h close (c.ahead.length + 1) c

end Rows

/-! ### Nodes -/

theorem Gives.build {kind : Kind} {p : Piece} {A : List Element → Prop} (h : Gives A p)
    (hA : ∀ parts, A parts → kind.Forms parts ∧ Element.Each Node.Formed parts) :
    Gives (Node.Is kind) (build kind p) :=
  h.bind fun parts hparts => gives_pure ⟨.intro (hA parts hparts).1 (hA parts hparts).2, rfl⟩

/-- An ordinary construct over parts of a declaration. -/
theorem Yields.build {kind : Kind} {p : Piece} (h : Yields Node.Inner p)
    (hkind : kind.isOrdinary = true) : Gives (Node.Is kind) (build kind p) :=
  Gives.build h fun _ hparts => ⟨Kind.forms_of_isOrdinary hkind hparts, hparts.mono fun _ => And.left⟩

theorem Yields.inner {kind : Kind} {p : Piece} (h : Yields Node.Inner p)
    (hkind : kind.isOrdinary = true) (hinner : kind.isInner = true) :
    Gives Node.Inner (Parser.build kind p) :=
  (h.build hkind).mono fun _ hn => hn.inner hinner

theorem Yields.value {kind : Kind} {p : Piece} (h : Yields Node.Inner p)
    (hkind : kind.isOrdinary = true) (hvalue : kind.isValue = true) :
    Gives Node.Value (Parser.build kind p) :=
  (h.build hkind).mono fun _ hn => hn.value hvalue

/-- A part of a type over parts of a type. -/
theorem Yields.typePart {kind : Kind} {p : Piece} (h : Yields Node.TypePart p)
    (hkind : kind.isOrdinary = true) (hdull : kind.isDull = true) :
    Gives (fun n => n.TypePart ∧ n.kind = kind) (Parser.build kind p) :=
  h.bind fun _ hparts => gives_pure
    ⟨⟨.intro (Kind.forms_of_isOrdinary hkind (hparts.mono fun _ => Node.TypePart.inner))
        (hparts.mono fun _ => And.left),
      Node.dull_ofChildren hdull (hparts.mono fun _ => And.right)⟩, rfl⟩

theorem Yields.typeName {kind : Kind} {p : Piece} (h : Yields Node.TypePart p)
    (hkind : kind.isOrdinary = true) (htype : kind.isTypeName = true) :
    Gives Node.TypeName (Parser.build kind p) :=
  (h.typePart hkind (Kind.isDull_of_isTypeName htype)).mono fun _ hn => ⟨hn.1, hn.2 ▸ htype⟩

/-! ### Extensions -/

/-- Whatever the extension makes of a first part of a sort is of the sort. -/
def Keeps (P : Node → Prop) (next : Extension) : Prop :=
  ∀ c kind rest, next c = some (kind, rest) → ∀ left, P left →
    Gives P (Parser.build kind (given [.node left] ++ rest))

/-- As `Keeps`, where the extension was decided. -/
def KeepsAt (P : Node → Prop) (next : Extension) : Prop :=
  ∀ c kind rest, next c = some (kind, rest) → ∀ left, P left →
    ∀ n d, Parser.build kind (given [.node left] ++ rest) c = .ok (n, d) → P n

theorem Keeps.at {next : Extension} (h : Keeps P next) : KeepsAt P next :=
  fun c kind rest hnext left hleft => h c kind rest hnext left hleft c

theorem KeepsAt.extend {next : Extension} (h : KeepsAt P next) {left : Node} (hleft : P left) :
    Gives (fun whole => ∀ n ∈ whole, P n) (extend next left) := by
  intro c whole d hok n hn
  obtain rfl := Option.mem_def.1 hn
  simp only [Parser.extend] at hok
  split at hok
  · cases hok
  · rename_i kind rest hnext
    obtain ⟨m, e, hm, hok⟩ := bind_eq_ok hok
    obtain ⟨heq, rfl⟩ := Prod.mk.inj (Except.ok.inj hok)
    obtain rfl := Option.some.inj heq
    exact h c kind rest hnext left hleft m e hm

theorem KeepsAt.growths {next : Extension} (h : KeepsAt P next) (bound : Nat) {left : Node}
    (hleft : P left) : Gives P (growths next bound left) := by
  induction bound generalizing left with
  | zero => exact gives_pure hleft
  | succ bound ih =>
    refine (h.extend hleft).bind fun whole hwhole => ?_
    cases whole with
    | none => exact gives_pure hleft
    | some n => exact ih (hwhole n rfl)

theorem KeepsAt.grow {next : Extension} (h : KeepsAt P next) {first : Parser Node}
    (hfirst : Gives P first) : Gives P (grow next first) :=
  hfirst.bind fun _ hleft => gives_get fun c => h.growths (c.ahead.length + 1) hleft

theorem Keeps.grow {next : Extension} (h : Keeps P next) {first : Parser Node}
    (hfirst : Gives P first) : Gives P (grow next first) :=
  h.at.grow hfirst

theorem Keeps.growOnce {next : Extension} (h : Keeps P next) {first : Parser Node}
    (hfirst : Gives P first) : Gives P (growOnce next first) := by
  refine hfirst.bind fun left hleft => (h.at.extend hleft).bind fun whole hwhole => ?_
  cases whole with
  | none => exact gives_pure hleft
  | some n => exact gives_pure (hwhole n rfl)

end Parser

end Recast
