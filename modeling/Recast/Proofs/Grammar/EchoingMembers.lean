-- SUMMARY: Members, statements and namespaces are read of a passage in one place as in another, and so for the grammars of every depth.
import Recast.Proofs.Grammar.EchoingExpressions

/-! # Members and statements on passages

A member or a statement may be the whole of a passage. What is read as a raw run for want of a
better reading is left out: what a member refuses in one place, it need not refuse in another. -/

namespace Recast.Grammar

open Recast.Parser Recast.Cursor

/-! ## Parts that were read before -/

/-- What the piece reads starts with parts that were read before. -/
def HeadedBy (head : List Element) (p : Piece) : Prop :=
  ∀ ⦃c parts d⦄, p c = .ok (parts, d) → ∃ rest, parts = head ++ rest

theorem headedBy_given (head : List Element) : HeadedBy head (given head) := by
  intro c parts d h
  obtain ⟨rfl, -⟩ := Prod.mk.inj (Except.ok.inj h)
  exact ⟨[], (List.append_nil _).symm⟩

theorem HeadedBy.append {head : List Element} {p : Piece} (h : HeadedBy head p) (q : Piece) :
    HeadedBy head (p ++ q) := by
  intro c parts d hread
  obtain ⟨xs, e, ys, hxs, -, rfl⟩ := append_eq_ok hread
  obtain ⟨rest, rfl⟩ := h hxs
  exact ⟨rest ++ ys, by simp⟩

/-- What is known of the whole is known of the parts that were read before. -/
theorem HeadedBy.known {head : List Element} {p : Piece} (h : HeadedBy head p) {kind : Kind}
    {c d : Cursor} {n : Node} (hread : build kind p c = .ok (n, d)) (hknown : n.Known) :
    Element.KnownIn head := by
  obtain ⟨parts, hparts, rfl⟩ := build_eq_ok hread
  obtain ⟨rest, rfl⟩ := h hparts
  exact (Element.knownIn_append.1 hknown.parts).1

section Productions

variable {l r : Cursor} {m : Nat} {g h : Grammar} (hg : EchoesBelow l r m g h)

include hg

/-! ## Members -/

omit hg in
theorem ifAt_token (text : String) (q : Piece) :
    ifAt (sees text) token q = ifAt (sees text) (mark text) q := by
  funext c
  simp only [ifAt, mark]
  split <;> rfl

omit hg in
theorem idle_semicolon (hborders : Borders l r) :
    Idle l r (whenAt (sees ";") token) (whenAt (sees ";") token) :=
  idle_whenAt (hborders.calm.sees (by decide)) (hborders.calm'.sees (by decide))

theorem finishes_typeBody :
    Finishes l r Element.KnownIn (m + 1) (typeBody g) (typeBody h) := by
  have hmembers := hg.member.within.one.repeatWhile alike_atBodyEnd.not
  have hclosed := ((echoes_mark Token.openBrace).follow hmembers).ends
    (finishes_mark hg.borders.closed Token.closeBrace)
  have hbraces := hclosed.append ((echoes_token ..).whenAt (alike_sees ";"))
    (idle_semicolon hg.borders)
  have hempty : Finishes l r Element.KnownIn (m + 1) (mark ";") (mark ";") :=
    finishes_mark hg.borders.closed _
  rw [typeBody, typeBody, ifAt_token, ifAt_token]
  exact .ite (alike_sees ";") hempty hbraces

/-- A type declaration in front of its body. -/
def typeFront (g : Grammar) (kind : Kind) (head : List Element) : Piece :=
  given head ++ token
    ++ whenAt (fun c => kind == .recordDeclaration && c.seesAny ["class", "struct"]) token
    ++ name ++ whenAt (sees "<") (one (typeParameters g))
    ++ whenAt (sees "(") (one (parameterList g)) ++ whenAt (sees ":") (one (baseList g))
    ++ whenAt (sees "where") (one constraints)

theorem echoes_typeFront (kind : Kind) (head : List Element) :
    Echoes l r Element.KnownIn false (m + 1) true (typeFront g kind head)
      (typeFront h kind head) := by
  have hflavor : Alike l r fun c => kind == .recordDeclaration && c.seesAny ["class", "struct"] :=
    Alike.and (fun _ _ => rfl) (alike_seesAny _)
  have hstart := (((echoes_token l r (m + 1)).given_append head).append
    ((echoes_token ..).whenAt hflavor)).append echoes_name
  have hgenerics := (echoes_typeParameters hg).one.whenAt (alike_sees "<")
  have hparameters := (echoes_parameterList hg).one.whenAt (alike_sees "(")
  have hbases := (echoes_baseList hg).one.whenAt (alike_sees ":")
  exact (((hstart.append hgenerics).append hparameters).append hbases).append echoes_constraints

theorem finishes_typeDeclaration (kind : Kind) (head : List Element) :
    Finishes l r Node.Known (m + 1) (typeDeclaration g kind head) (typeDeclaration h kind head) :=
  ((echoes_typeFront hg kind head).ends (finishes_typeBody hg)).build

omit hg in
theorem finishes_rawGroup (hclosed : l.Closed) (m : Nat) :
    Finishes l r Node.Known m rawGroup rawGroup :=
  ⟨echoes_rawGroup, makes_rawGroup.hungry (by decide) hclosed⟩

theorem finishes_enumDeclaration (head : List Element) :
    Finishes l r Node.Known (m + 1) (enumDeclaration g head) (enumDeclaration h head) := by
  have hbases := (echoes_baseList hg).one.whenAt (alike_sees ":")
  have hname : Echoes l r Element.KnownIn false (m + 1) true
      (given head ++ mark "enum" ++ name) _ :=
    ((echoes_mark "enum").given_append head).append echoes_name
  have hstart := (hname.append hbases).append (echoes_check (alike_sees Token.openBrace) "'\x7b'")
  exact ((hstart.ends (finishes_rawGroup hg.borders.closed _).one).append
    ((echoes_token ..).whenAt (alike_sees ";")) (idle_semicolon hg.borders)).build

theorem echoes_constructorInitializer :
    Echoes l r Node.Known false (m + 1) true (constructorInitializer g)
      (constructorInitializer h) :=
  ((((echoes_token ..).append (echoes_check (alike_seesAny _) _)).append (echoes_token ..)).append
    (echoes_argumentList hg).one).build

/-- A constructor in front of its body. -/
def constructorFront (g : Grammar) (head : List Element) : Piece :=
  given head ++ whenAt (sees "~") token ++ name ++ one (parameterList g)
    ++ whenAt (sees ":") (one (constructorInitializer g))

theorem echoes_constructorFront (head : List Element) :
    Echoes l r Element.KnownIn false (m + 1) true (constructorFront g head)
      (constructorFront h head) := by
  have hfinalizer : Echoes l r Element.KnownIn false (m + 1) false (whenAt (sees "~") token) _ :=
    (echoes_token ..).whenAt (alike_sees "~")
  have hother := (echoes_constructorInitializer hg).one.whenAt (alike_sees ":")
  exact (((hfinalizer.given_append head).append echoes_name).append
    (echoes_parameterList hg).one).append hother

theorem finishes_constructorDeclaration (head : List Element) :
    Finishes l r Node.Known (m + 1) (constructorDeclaration g head)
      (constructorDeclaration h head) :=
  ((echoes_constructorFront hg head).ends (finishes_memberBody hg)).build

/-- A method between its name and its body. -/
def methodFront (g : Grammar) (head : List Element) : Piece :=
  given head ++ whenAt (sees "<") (one (typeParameters g)) ++ one (parameterList g)
    ++ whenAt (sees "where") (one constraints)

theorem echoes_methodFront (head : List Element) :
    Echoes l r Element.KnownIn false (m + 1) true (methodFront g head) (methodFront h head) := by
  have hgenerics := ((echoes_typeParameters hg).one.whenAt (alike_sees "<")).given_append head
  exact (hgenerics.append (echoes_parameterList hg).one).append echoes_constraints

theorem finishes_methodDeclaration (head : List Element) :
    Finishes l r Node.Known (m + 1) (methodDeclaration g head) (methodDeclaration h head) :=
  ((echoes_methodFront hg head).ends (finishes_memberBody hg)).build

theorem finishes_propertyDeclaration (head : List Element) :
    Finishes l r Node.Known (m + 1) (propertyDeclaration g head) (propertyDeclaration h head) := by
  have hsemicolon : Finishes l r Element.KnownIn (m + 1) (mark ";") (mark ";") :=
    finishes_mark hg.borders.closed _
  have harrow := (echoes_arrowClause hg).one.ends hsemicolon
  have hmakes : Makes 0 1 1 (build .accessorList group) :=
    takes_group.build (by decide) (by decide) rfl
  have haccessors : Finishes l r Node.Known (m + 1) (build .accessorList group) _ :=
    ⟨echoes_group.build, hmakes.hungry (by decide) hg.borders.closed⟩
  have hvalue := ((echoes_equalsValue hg).one.ends hsemicolon).echoes.whenAt (alike_sees "=")
  have hbody := haccessors.one.append hvalue
    (idle_whenAt (hg.borders.calm.sees (by decide)) (hg.borders.calm'.sees (by decide)))
  exact ((echoes_given head).ends (.ite (alike_sees "=>") harrow hbody)).build

theorem finishes_fieldDeclaration (head : List Element) (type : Node) (first : List Element) :
    Finishes l r Node.Known (m + 1) (fieldDeclaration g head type first)
      (fieldDeclaration h head type first) := by
  have hmore := ((echoes_token l r (m + 1)).append (echoes_declarator hg).one).repeatWhile
    (alike_sees ",")
  have hvariables : Echoes l r Node.Known false (m + 1) false (build .variableDeclaration _) _ :=
    (((echoes_declaratorAfter hg first).one.given_append [.node type]).append hmore).build
  exact ((hvariables.one.given_append head).ends (finishes_mark hg.borders.closed ";")).build

/-- What follows the name of a member that starts with a type. -/
def typedRest (g : Grammar) (head : List Element) (type : Node) (qualifier own : List Element) :
    Parser Node := fun c =>
  if c.seesAny ["(", "<"] then methodDeclaration g (head ++ [.node type] ++ qualifier ++ own) c
  else if c.seesAny [Token.openBrace, "=>"] then
    propertyDeclaration g (head ++ [.node type] ++ qualifier ++ own) c
  else if !qualifier.isEmpty then fail "method or property" c
  else fieldDeclaration g head type own c

/-- What follows the type of a member. -/
def typedName (g : Grammar) (head : List Element) (type : Node) (qualifier : List Element) :
    Parser Node := fun c =>
  if c.seesAny ["this", "operator"] then fail "member name" c
  else (name >>= fun own => typedRest g head type qualifier own) c

omit hg in
theorem typedMember_eq (g : Grammar) (head : List Element) : typedMember g head =
    (typeOf g >>= fun type => explicitInterface >>= fun qualifier =>
      typedName g head type qualifier) := by
  refine congrArg (typeOf g >>= ·) (funext fun type => ?_)
  refine congrArg (explicitInterface >>= ·) (funext fun qualifier => funext fun c => ?_)
  show (if c.seesAny ["this", "operator"] then _ else _ : Parser Node) c = _
  rw [typedName]
  cases c.seesAny ["this", "operator"] with
  | true => rfl
  | false =>
    refine congrFun (congrArg (name >>= ·) (funext fun own => funext fun d => ?_)) c
    show (if d.seesAny ["(", "<"] then _ else _ : Parser Node) d = _
    rw [typedRest]
    cases d.seesAny ["(", "<"] <;> cases d.seesAny [Token.openBrace, "=>"] <;>
      cases qualifier.isEmpty <;> rfl

theorem finishes_typedRest (head : List Element) (type : Node) (qualifier own : List Element) :
    Finishes l r Node.Known (m + 1) (typedRest g head type qualifier own)
      (typedRest h head type qualifier own) := by
  refine .ite (alike_seesAny _) (finishes_methodDeclaration hg _) ?_
  refine .ite (alike_seesAny _) (finishes_propertyDeclaration hg _) ?_
  exact .ite (fun _ _ => rfl) (finishes_fail _) (finishes_fieldDeclaration hg ..)

omit hg in
/-- What was read before the name of a member that starts with a type is in the member. Only a
    method or a property has the name of an interface. -/
theorem known_of_typedRest {head own qualifier : List Element} {type n : Node} {c d : Cursor}
    (hread : typedRest g head type qualifier own c = .ok (n, d)) (hknown : n.Known) :
    Element.KnownIn head ∧ Element.KnownIn qualifier := by
  have hwhole (hall : Element.KnownIn (head ++ [.node type] ++ qualifier ++ own)) :
      Element.KnownIn head ∧ Element.KnownIn qualifier := by
    simp only [Element.knownIn_append] at hall
    exact ⟨hall.1.1.1, hall.1.2⟩
  simp only [typedRest] at hread
  split at hread
  · refine hwhole (HeadedBy.known ?_ hread hknown)
    exact ((((headedBy_given _).append _).append _).append _).append _
  split at hread
  · exact hwhole ((headedBy_given _).append _ |>.known hread hknown)
  split at hread
  · cases hread
  · rename_i hnone
    obtain rfl : qualifier = [] := by simpa using hnone
    exact ⟨((headedBy_given _).append _).append _ |>.known hread hknown, rfl⟩

theorem finishes_typedName (head : List Element) (type : Node) (qualifier : List Element) :
    Finishes l r Node.Known (m + 1) (typedName g head type qualifier)
      (typedName h head type qualifier) := by
  have hname : Echoes l r (fun _ => True) false (m + 1) true name name := mirrors_name.echoes
  refine .ite (alike_seesAny _) (finishes_fail _) ?_
  exact hname.bind_ends (fun own => finishes_typedRest hg head type qualifier own)
    (Nat.le_add_right ..) fun _ _ _ _ _ _ _ _ => trivial

omit hg in
theorem known_of_typedName {head qualifier : List Element} {type n : Node} {c d : Cursor}
    (hread : typedName g head type qualifier c = .ok (n, d)) (hknown : n.Known) :
    Element.KnownIn head ∧ Element.KnownIn qualifier := by
  simp only [typedName] at hread
  split at hread
  · cases hread
  · obtain ⟨own, e, -, hread⟩ := bind_eq_ok hread
    exact known_of_typedRest hread hknown

theorem finishes_typedMember (head : List Element) :
    Finishes l r Node.Known (m + 1) (typedMember g head) (typedMember h head) := by
  have htype : Echoes l r (fun _ => True) false (m + 1) true (typeOf g) (typeOf h) :=
    (mirrors_typeOf hg).echoes
  have hqualifier : Echoes l r Element.KnownIn false (m + 1) false explicitInterface _ :=
    echoes_explicitInterface
  rw [typedMember_eq, typedMember_eq]
  refine htype.bind_ends (fun type => ?_) (Nat.le_add_right ..) fun _ _ _ _ _ _ _ _ => trivial
  exact hqualifier.bind_ends (fun qualifier => finishes_typedName hg head type qualifier)
    (Nat.le_add_right ..) fun _ _ _ _ _ _ hread hknown => (known_of_typedName hread hknown).2

/-- What follows the attributes and modifiers of a member that is no type declaration. -/
def memberRest (g : Grammar) (head : List Element) : Parser Node := fun c =>
  if c.sees "enum" then enumDeclaration g head c
  else if c.seesAny ["delegate", "event", "implicit", "explicit", "operator"] then fail "member" c
  else if c.sees "~" || c.atNameThen "(" then constructorDeclaration g head c
  else typedMember g head c

/-- What follows the attributes and modifiers of a member. -/
def memberAfter (g : Grammar) (head : List Element) : Option Kind → Parser Node
  | some kind => typeDeclaration g kind head
  | none => memberRest g head

omit hg in
theorem knownMember_eq (g : Grammar) : knownMember g =
    (attributeLists g ++ one (modifiers memberModifiers contextualModifiers) >>= fun head =>
      fun c => memberAfter g head (typeDeclarationKind? c) c) := by
  refine congrArg (_ >>= ·) (funext fun head => funext fun c => ?_)
  show (match typeDeclarationKind? c with
    | some kind => typeDeclaration g kind head
    | none => _ : Parser Node) c = _
  cases typeDeclarationKind? c with
  | some kind => rfl
  | none =>
    simp only [memberAfter, memberRest]
    cases c.sees "enum" <;>
      cases c.seesAny ["delegate", "event", "implicit", "explicit", "operator"] <;>
      cases c.sees "~" || c.atNameThen "(" <;> rfl

theorem finishes_memberRest (head : List Element) :
    Finishes l r Node.Known (m + 1) (memberRest g head) (memberRest h head) := by
  refine .ite (alike_sees "enum") (finishes_enumDeclaration hg head) ?_
  refine .ite (alike_seesAny _) (finishes_fail _) ?_
  exact .ite ((alike_sees "~").or (alike_atNameThen "(")) (finishes_constructorDeclaration hg head)
    (finishes_typedMember hg head)

omit hg in
theorem alike_atRecord : Alike l r atRecord :=
  (soft_sees (by decide)).alike_and (alike_sees "record") fun _ _ _ => rfl

omit hg in
theorem typeDeclarationKind?_facing {ts : List Token} (hts : Passage l ts) :
    typeDeclarationKind? (l.facing ts) = typeDeclarationKind? (r.facing ts) := by
  have hclass := alike_sees (l := l) (r := r) "class" hts
  have hstruct := alike_sees (l := l) (r := r) "struct" hts
  have hinterface := alike_sees (l := l) (r := r) "interface" hts
  have hrecord := alike_atRecord (l := l) (r := r) hts
  simp only [typeDeclarationKind?, hclass, hstruct, hinterface, hrecord]

omit hg in
/-- The attributes and modifiers of a member are in it. -/
theorem known_of_memberAfter {head : List Element} {kind : Option Kind} {c d : Cursor} {n : Node}
    (hread : memberAfter g head kind c = .ok (n, d)) (hknown : n.Known) : Element.KnownIn head := by
  cases kind with
  | some kind =>
    refine HeadedBy.known ?_ hread hknown
    repeat apply HeadedBy.append
    exact headedBy_given head
  | none =>
    simp only [memberAfter, memberRest] at hread
    split at hread
    · refine HeadedBy.known ?_ hread hknown
      repeat apply HeadedBy.append
      exact headedBy_given head
    split at hread
    · cases hread
    split at hread
    · refine HeadedBy.known ?_ hread hknown
      repeat apply HeadedBy.append
      exact headedBy_given head
    · rw [typedMember_eq] at hread
      obtain ⟨type, e, -, hread⟩ := bind_eq_ok hread
      obtain ⟨qualifier, e', -, hread⟩ := bind_eq_ok hread
      exact (known_of_typedName hread hknown).1

theorem finishes_knownMember :
    Finishes l r Node.Known (m + 1) (knownMember g) (knownMember h) := by
  rw [knownMember_eq, knownMember_eq]
  have hhead := (echoes_attributeLists hg).append
    (echoes_modifiers (m := m + 1) memberModifiers contextualModifiers).one
  refine hhead.bind_ends (fun head => ?_) (Nat.le_add_right ..)
    fun _ _ _ _ _ _ hread hknown => known_of_memberAfter hread hknown
  refine .view (k := fun g => memberAfter g head) (fun ts hts => typeDeclarationKind?_facing hts)
    fun kind => ?_
  cases kind with
  | some kind => exact finishes_typeDeclaration hg kind head
  | none => exact finishes_memberRest hg head

omit hg in
/-- What was not read as a raw run was read for what it is. -/
theorem finishes_recover {p q : Parser Node} {kind : Kind} (hclosed : l.Closed)
    (hp : Finishes l r Node.Known m p q) (hkind : ∀ parts, kind.isKnownOver parts = false)
    (hlevel : kind.level = 0) (hplain : kind.isGrown = false) :
    Finishes l r Node.Known m (recover p (rawRun kind)) (recover q (rawRun kind)) := by
  have hraw : Hungry l (rawRun kind) := (makes_rawRun hlevel hplain).hungry (by decide) hclosed
  refine ⟨⟨hp.echoes.onward.recover (onward_rawRun kind),
    fun ts us n hts hless hread hknown hlast => ?_⟩,
    fun n hread => (recover_eq_ok hread).elim (hp.hungry n) (hraw n)⟩
  rcases recover_eq_ok hread with hread | hread
  · obtain ⟨hq, hshorter⟩ := hp.echoes.echo hts hless hread hknown hlast
    exact ⟨by simp only [recover, hq], hshorter⟩
  · obtain ⟨parts, -, rfl⟩ := build_eq_ok hread
    simp [Node.Known, Shape.isKnown, hkind] at hknown

theorem finishes_memberOf : Finishes l r Node.Known (m + 1) (memberOf g) (memberOf h) :=
  finishes_recover hg.borders.closed (finishes_knownMember hg) (fun _ => rfl) rfl rfl

/-! ## Local declarations and functions -/

omit hg in
/-- The modifiers of a local function do not reach the end of a passage. -/
theorem dropLocalModifiers_append {ts : List Token} (hts : Passage l ts) (more : List Token) :
    dropLocalModifiers (ts ++ more) = dropLocalModifiers ts ++ more ∧
      dropLocalModifiers ts <:+ ts ∧ dropLocalModifiers ts ≠ [] := by
  induction ts with
  | nil => exact absurd rfl hts.ne_nil
  | cons t us ih =>
    cases us with
    | nil =>
      have hword : t.isWord = false := by
        cases hword : t.isWord with
        | false => rfl
        | true => exact absurd rfl (hts.tail_ne_nil (Token.stops_of_isWord hword))
      refine ⟨?_, List.suffix_refl _, nofun⟩
      cases more with
      | nil => rfl
      | cons v vs => simp [dropLocalModifiers, hword]
    | cons u us =>
      simp only [List.cons_append, dropLocalModifiers]
      split
      · obtain ⟨hmore, hsuffix, hne⟩ := ih (hts.suffix (List.suffix_cons t _) nofun)
        exact ⟨hmore, hsuffix.trans (List.suffix_cons t _), hne⟩
      · exact ⟨rfl, List.suffix_refl _, nofun⟩

theorem atLocalFunction_facing {ts : List Token} (hts : Passage l ts)
    (hless : (l.facing ts).ahead.length < m + 1) :
    atLocalFunction g (l.facing ts) = atLocalFunction h (r.facing ts) := by
  obtain ⟨hleft, hsuffix, hne⟩ := dropLocalModifiers_append hts l.ahead
  obtain ⟨hright, -, -⟩ := dropLocalModifiers_append hts r.ahead
  have hstart := hts.suffix hsuffix hne
  have hlength := hsuffix.length_le
  have hleads := (mirrors_typeOf hg).leadsTo (alike_atNameThen "(") hstart
    (by simp only [ahead_facing, List.length_append] at hless ⊢; omega)
  have hawait := alike_atAwait (l := l) (r := r) hts
  have hword := alike_sees (l := l) (r := r) "await" hstart
  simp only [facing] at hleads hawait hword
  simp only [atLocalFunction, facing, hleft, hright, hleads, hawait, hword]

theorem atLocalDeclaration_facing {ts : List Token} (hts : Passage l ts)
    (hless : (l.facing ts).ahead.length < m + 1) :
    atLocalDeclaration g (l.facing ts) = atLocalDeclaration h (r.facing ts) := by
  have hnamed : Alike l r fun d => d.atName &&
      (d.seesAt 1 "=" || d.seesAt 1 ";" || d.seesAt 1 "," || d.seesAt 1 ")") :=
    soft_atName.alike_and alike_atName fun _ _ _ => rfl
  have hawait := alike_atAwait (l := l) (r := r) hts
  have hleads := (mirrors_typeOf hg).leadsTo hnamed hts hless
  simp only [atLocalDeclaration, hawait, hleads]

/-! ## Statements -/

theorem echoes_condition :
    Echoes l r Element.KnownIn false (m + 1) true (condition g) (condition h) :=
  ((echoes_mark "(").follow hg.expression.one).append (echoes_mark ")")

omit hg in
theorem echoes_rawParentheses (m : Nat) :
    Echoes l r Element.KnownIn false m true rawParentheses rawParentheses :=
  (echoes_check (alike_sees "(") _).append echoes_rawGroup.one

theorem finishes_ifStatement :
    Finishes l r Node.Known (m + 1) (ifStatement g) (ifStatement h) := by
  have hotherwise : Finishes l r Node.Known (m + 1) (build .elseClause _) _ :=
    ((echoes_token ..).endsBelow hg.statement.one).build
  have hthen := ((echoes_mark "if").append (echoes_condition hg)).endsBelow hg.statement.one
  exact (hthen.append (hotherwise.one.echoes.whenAt (alike_sees "else"))
    (idle_whenAt (hg.borders.calm.sees (by decide)) (hg.borders.calm'.sees (by decide)))).build

theorem finishes_whileStatement :
    Finishes l r Node.Known (m + 1) (whileStatement g) (whileStatement h) :=
  (((echoes_token ..).append (echoes_condition hg)).endsBelow hg.statement.one).build

theorem finishes_doStatement :
    Finishes l r Node.Known (m + 1) (doStatement g) (doStatement h) :=
  (((((echoes_token ..).follow hg.statement.within.one).append (echoes_mark "while")).append
    (echoes_condition hg)).ends (finishes_mark hg.borders.closed ";")).build

theorem finishes_forStatement :
    Finishes l r Node.Known (m + 1) (forStatement g) (forStatement h) :=
  (((echoes_token ..).append (echoes_rawParentheses _)).endsBelow hg.statement.one).build

theorem finishes_catchClause :
    Finishes l r Node.Known (m + 1) (catchClause g) (catchClause h) := by
  have hname : Echoes l r Element.KnownIn false (m + 1) false (whenAt atName token) _ :=
    (echoes_token ..).whenAt alike_atName
  have hdeclaration : Echoes l r Node.Known false (m + 1) true (build .catchDeclaration _) _ :=
    ((((echoes_token ..).follow hg.type.echoes.one).append hname).append (echoes_mark ")")).build
  have hfilter : Echoes l r Node.Known false (m + 1) true (build .catchFilter _) _ :=
    ((echoes_token ..).append (echoes_condition hg)).build
  exact ((((echoes_token ..).append (hdeclaration.one.whenAt (alike_sees "("))).append
    (hfilter.one.whenAt (alike_isName "when"))).ends (finishes_block hg).one).build

theorem finishes_tryStatement :
    Finishes l r Node.Known (m + 1) (tryStatement g) (tryStatement h) := by
  have hcalm : l.sees "catch" = false ∧ r.sees "catch" = false :=
    ⟨hg.borders.calm.sees (by decide), hg.borders.calm'.sees (by decide)⟩
  have hcatches := (finishes_catchClause hg).one.echoes.repeatWhile_of (alike_sees "catch")
    fun _ => hcalm
  have hfinally : Finishes l r Node.Known (m + 1) (build .finallyClause _) _ :=
    ((echoes_token ..).ends (finishes_block hg).one).build
  exact ((((echoes_mark "try").ends (finishes_block hg).one).append hcatches
    (idle_repeatWhile hcalm.1 hcalm.2)).append (hfinally.one.echoes.whenAt (alike_sees "finally"))
      (idle_whenAt (hg.borders.calm.sees (by decide)) (hg.borders.calm'.sees (by decide)))).build

omit hg in
theorem alike_atSwitchLabel : Alike l r atSwitchLabel :=
  (alike_sees "case").or ((soft_sees (by decide)).alike_and (alike_sees "default") fun _ _ _ => rfl)

omit hg in
theorem echoes_switchLabel (m : Nat) :
    Echoes l r Node.Known false m true switchLabel switchLabel := by
  have hrefused : Echoes l r Element.KnownIn false m true (fail "':'") _ := echoes_fail _
  have hpart : Echoes l r Element.KnownIn false m true
      (ifAt atBodyEnd (fail "':'") (ifAt atBracket group token)) _ :=
    .ite alike_atBodyEnd hrefused (.ite alike_atBracket echoes_group (echoes_token ..))
  exact (((echoes_token ..).append (hpart.repeatWhile (alike_sees ":").not)).append
    (echoes_token ..)).build

theorem echoes_switchSection :
    Echoes l r Node.Known false m true (switchSection g) (switchSection h) := by
  have hlabel : Echoes l r Node.Known false m true switchLabel switchLabel := echoes_switchLabel m
  have hlabels := hlabel.one.check_repeatWhile alike_atSwitchLabel "'case' or 'default'"
  exact (hlabels.append (hg.statement.within.one.repeatWhile
    (alike_atBodyEnd.not.and alike_atSwitchLabel.not))).build

theorem finishes_switchStatement :
    Finishes l r Node.Known (m + 1) (switchStatement g) (switchStatement h) := by
  have hsections := (echoes_switchSection hg).one.repeatWhile alike_atBodyEnd.not
  exact (((((echoes_mark "switch").append (echoes_condition hg)).append (echoes_mark _)).follow
    hsections).ends (finishes_mark hg.borders.closed _)).build

theorem finishes_exitStatement (kind : Kind) :
    Finishes l r Node.Known (m + 1) (exitStatement g kind) (exitStatement h kind) :=
  (((echoes_token ..).follow (hg.expression.one.whenAt (alike_sees ";").not)).ends
    (finishes_mark hg.borders.closed ";")).build

theorem finishes_jumpStatement : Finishes l r Node.Known (m + 1) jumpStatement jumpStatement := by
  have hwords : Echoes l r Element.KnownIn false (m + 1) false
      (repeatWhile (fun c => !(c.sees ";" || c.atEnd)) token) _ :=
    (echoes_token ..).repeatWhile ((alike_sees ";").or alike_atEnd).not
  exact (hwords.ends (finishes_mark hg.borders.closed ";")).build

theorem finishes_yieldStatement :
    Finishes l r Node.Known (m + 1) (yieldStatement g) (yieldStatement h) := by
  have hvalue : Echoes l r Element.KnownIn false (m + 1) true
      (ifAt (sees "return") (token ++ one g.expression) token) _ :=
    .ite (alike_sees "return") ((echoes_token ..).follow hg.expression.one) (echoes_token ..)
  exact (((echoes_token ..).append hvalue).ends (finishes_mark hg.borders.closed ";")).build

theorem finishes_localDeclaration (lead : Nat) :
    Finishes l r Node.Known (m + 1) (localDeclaration g lead) (localDeclaration h lead) :=
  (((echoes_take lead).append (echoes_variableDeclaration hg).one).ends
    (finishes_mark hg.borders.closed ";")).build

theorem finishes_usingStatement (lead : Nat) :
    Finishes l r Node.Known (m + 1)
      (build .parenthesizedStatement (take (lead + 2) ++
        ifAt (atLocalDeclaration g) (one (variableDeclaration g)) (one g.expression) ++ mark ")" ++
          one g.statement))
      (build .parenthesizedStatement (take (lead + 2) ++
        ifAt (atLocalDeclaration h) (one (variableDeclaration h)) (one h.expression) ++ mark ")" ++
          one h.statement)) := by
  have hresource : Echoes l r Element.KnownIn false m true
      (ifAt (atLocalDeclaration g) (one (variableDeclaration g)) (one g.expression)) _ :=
    .choose (fun _ hts hless => atLocalDeclaration_facing hg hts (Nat.lt_succ_of_lt hless))
      (echoes_variableDeclaration hg).lower.one hg.expression.one
  exact ((((echoes_take_pos (Nat.le_add_left 1 (lead + 1))).follow hresource).append
    (echoes_mark ")")).endsBelow hg.statement.one).build

theorem finishes_plainStatement :
    Finishes l r Node.Known (m + 1) (plainStatement g) (plainStatement h) := by
  have hexpression : Finishes l r Node.Known (m + 1) (build .expressionStatement _) _ :=
    ((echoes_expressionOf hg).one.ends (finishes_mark hg.borders.closed ";")).build
  refine .choose (fun _ hts hless => atLocalFunction_facing hg hts hless) (finishes_memberOf hg) ?_
  exact .choose (fun _ hts hless => atLocalDeclaration_facing hg hts hless)
    (finishes_localDeclaration hg 0) hexpression

omit hg in
/-- A test of the next two tokens, and where it holds of the three next ones. -/
theorem alike_two {test test' : Cursor → Bool} {f : Token → Bool}
    (hsoft : Soft test) (htest : Alike l r test) (hf : ∀ t, f t = true → t.stops = false)
    (htest' : ∀ t u v vs,
      test' (l.facing (t :: u :: v :: vs)) = test' (r.facing (t :: u :: v :: vs))) :
    Alike l r fun c => test c && (f (c.nth 1) && test' c) := by
  intro ts hts
  obtain ⟨t, us, rfl⟩ := List.exists_cons_of_ne_nil hts.ne_nil
  have hsame := htest hts
  dsimp only
  rw [← hsame]
  cases hfirst : test (l.facing (t :: us)) with
  | false => rfl
  | true =>
    have hrest := hts.tail (hsoft hfirst)
    obtain ⟨u, vs, rfl⟩ := List.exists_cons_of_ne_nil hrest.ne_nil
    simp only [nth_one_facing]
    cases hsecond : f u with
    | false => rfl
    | true =>
      obtain ⟨v, ws, rfl⟩ := List.exists_cons_of_ne_nil (hrest.tail_ne_nil (hf u hsecond))
      rw [htest' t u v ws]

/-- The head of a loop over a sequence. -/
def forEachHeader (g : Grammar) : Piece :=
  mark "(" ++ one g.type ++ name ++ mark "in" ++ one g.expression ++ mark ")"

/-- A loop over a sequence whose head is understood. -/
def forEachOver (g : Grammar) (lead : Nat) : Parser Node :=
  build .forEachStatement (take lead ++ mark "foreach" ++ forEachHeader g ++ one g.statement)

omit hg in
/-- A loop that was understood is one whose head was. -/
theorem forEachOver_of_known {lead : Nat} {c d : Cursor} {n : Node}
    (hread : forEachStatement g lead c = .ok (n, d)) (hknown : n.Known) :
    forEachOver g lead c = .ok (n, d) := by
  obtain ⟨parts, hparts, rfl⟩ := build_eq_ok hread
  obtain ⟨xs, e, body, hxs, hbody, rfl⟩ := append_eq_ok hparts
  obtain ⟨ys, e', header, hys, hheader, rfl⟩ := append_eq_ok hxs
  rcases orElse_eq_ok hheader with hheader | hraw
  · exact build_eq (append_eq (append_eq hys hheader) hbody)
  · obtain ⟨ws, e₂, zs, hws, hzs, rfl⟩ := append_eq_ok hraw
    obtain ⟨-, rfl, rfl⟩ := check_eq_ok hws
    obtain ⟨group, e₃, hgroup, hzs⟩ := bind_eq_ok hzs
    obtain ⟨rfl, -⟩ := Prod.mk.inj (Except.ok.inj hzs)
    obtain ⟨inside, -, rfl⟩ := build_eq_ok hgroup
    simp [Node.Known, Shape.isKnown, Kind.isKnownOver] at hknown

omit hg in
theorem forEachStatement_of_over {lead : Nat} {c d : Cursor} {n : Node}
    (hread : forEachOver g lead c = .ok (n, d)) : forEachStatement g lead c = .ok (n, d) := by
  obtain ⟨parts, hparts, rfl⟩ := build_eq_ok hread
  obtain ⟨xs, e, body, hxs, hbody, rfl⟩ := append_eq_ok hparts
  obtain ⟨ys, e', header, hys, hheader, rfl⟩ := append_eq_ok hxs
  refine build_eq (append_eq (append_eq hys ?_) hbody)
  change forEachHeader g _ = _ at hheader
  show orElse (forEachHeader g) rawParentheses _ = _
  simp only [orElse, hheader]

theorem finishes_forEachStatement (lead : Nat) :
    Finishes l r Node.Known (m + 1) (forEachStatement g lead) (forEachStatement h lead) := by
  have hvariable := ((echoes_mark "(").follow hg.type.echoes.one).append echoes_name
  have hheader : Echoes l r Element.KnownIn false (m + 1) true (forEachHeader g) _ :=
    ((hvariable.append (echoes_mark "in")).follow hg.expression.one).append (echoes_mark ")")
  have hstart : Echoes l r Element.KnownIn false (m + 1) true (take lead ++ mark "foreach")
      (take lead ++ mark "foreach") := by
    have hmore := (echoes_take (l := l) (r := r) (m := m + 1) lead).append (echoes_mark "foreach")
    rwa [Bool.or_true] at hmore
  have hover : Finishes l r Node.Known (m + 1) (forEachOver g lead) (forEachOver h lead) :=
    ((hstart.append hheader).endsBelow hg.statement.one).build
  have hraw : Echoes l r Element.KnownIn false (m + 1) true rawParentheses _ :=
    echoes_rawParentheses _
  have hhead := hstart.onward.append (hheader.onward.orElse hraw.onward)
  have hbody := hg.statement.one
  refine ⟨⟨(hhead.append hbody.echoes.onward).build,
    fun ts us n hts hless hread hknown hlast => ?_⟩,
    .bind (hhead.append hbody.echoes.onward) (fun _ => onward_pure _)
      (.inl (hbody.hungry.append hhead hbody.echoes.onward))⟩
  obtain ⟨hq, hshorter⟩ :=
    hover.echoes.echo hts hless (forEachOver_of_known hread hknown) hknown hlast
  exact ⟨forEachStatement_of_over hq, hshorter⟩

/-- A statement that is one token. -/
theorem finishes_ite_token {kind : Kind} {text : String} {q q' : Parser Node}
    (hq : Finishes l r Node.Known (m + 1) q q') :
    Finishes l r Node.Known (m + 1) (fun c => if c.sees text then build kind token c else q c)
      fun c => if c.sees text then build kind token c else q' c := by
  have hmark (q : Parser Node) : (fun c => if c.sees text then build kind token c else q c) =
      fun c => if c.sees text then build kind (mark text) c else q c := by
    funext c
    cases hsees : c.sees text with
    | false => rfl
    | true =>
      have htoken : token c = mark text c := (if_pos hsees).symm
      show build kind token c = build kind (mark text) c
      exact bind_congr htoken
  rw [hmark, hmark]
  exact .ite (alike_sees text) (finishes_mark hg.borders.closed text).build hq

theorem finishes_knownStatement :
    Finishes l r Node.Known (m + 1) (knownStatement g) (knownStatement h) := by
  have hguarded : Finishes l r Node.Known (m + 1) (build .parenthesizedStatement _) _ :=
    (((echoes_token ..).append (echoes_rawParentheses _)).endsBelow hg.statement.one).build
  have hchecked : Finishes l r Node.Known (m + 1) (build .checkedStatement _) _ :=
    ((echoes_token ..).ends (finishes_block hg).one).build
  have hyield : Alike l r fun c => c.sees "yield" && (c.seesAt 1 "return" || c.seesAt 1 "break") :=
    (soft_sees (by decide)).alike_and (alike_sees "yield") fun _ _ _ => rfl
  have husing : Alike l r fun c => c.sees "using" && c.seesAt 1 "(" :=
    (soft_sees (by decide)).alike_and (alike_sees "using") fun _ _ _ => rfl
  have hawaitUsing : Alike l r fun c => c.sees "await" && c.seesAt 1 "using" :=
    (soft_sees (by decide)).alike_and (alike_sees "await") fun _ _ _ => rfl
  have hawaitUsingParen : Alike l r fun c =>
      (c.sees "await" && c.seesAt 1 "using") && c.seesAt 2 "(" := by
    simp only [Bool.and_assoc]
    exact alike_two (f := (Token.is · "using")) (soft_sees (by decide)) (alike_sees "await")
      (fun _ hword => Token.stops_of_is (by decide) hword) fun _ _ _ _ => rfl
  have hawaitForEach : Alike l r fun c => c.sees "await" && c.seesAt 1 "foreach" :=
    (soft_sees (by decide)).alike_and (alike_sees "await") fun _ _ _ => rfl
  have hbraced : Alike l r fun c =>
      c.seesAny ["checked", "unchecked", "unsafe"] && c.seesAt 1 Token.openBrace :=
    (soft_seesAny (by decide)).alike_and (alike_seesAny _) fun _ _ _ => rfl
  refine .ite (alike_sees _) (finishes_block hg) (finishes_ite_token hg ?_)
  refine .ite (alike_sees _) (finishes_ifStatement hg) ?_
  refine .ite (alike_sees _) (finishes_whileStatement hg) ?_
  refine .ite (alike_sees _) (finishes_doStatement hg) ?_
  refine .ite (alike_sees _) (finishes_forStatement hg) ?_
  refine .ite (alike_sees _) (finishes_forEachStatement hg 0) ?_
  refine .ite (alike_sees _) (finishes_tryStatement hg) ?_
  refine .ite (alike_sees _) (finishes_switchStatement hg) ?_
  refine .ite (alike_sees _) (finishes_exitStatement hg _) ?_
  refine .ite (alike_sees _) (finishes_exitStatement hg _) ?_
  refine .ite (alike_seesAny _) (finishes_jumpStatement hg) ?_
  refine .ite hyield (finishes_yieldStatement hg) (.ite (alike_seesAny _) hguarded ?_)
  refine .ite_both (alike_sees _) husing (finishes_usingStatement hg 0)
    (finishes_localDeclaration hg 1) ?_
  refine .ite_both hawaitUsing hawaitUsingParen (finishes_usingStatement hg 1)
    (finishes_localDeclaration hg 2) ?_
  refine .ite hawaitForEach (finishes_forEachStatement hg 1) (.ite hbraced hchecked ?_)
  exact .ite (alike_sees _) (finishes_localDeclaration hg 1) (finishes_plainStatement hg)

theorem finishes_statementOf : Finishes l r Node.Known (m + 1) (statementOf g) (statementOf h) :=
  finishes_recover hg.borders.closed (finishes_knownStatement hg) (fun _ => rfl) rfl rfl

/-! ## Files and namespaces -/

theorem finishes_usingDirective :
    Finishes l r Node.Known (m + 1) (usingDirective g) (usingDirective h) := by
  have hglobal : Echoes l r Element.KnownIn false (m + 1) false (whenAt (sees "global") token) _ :=
    (echoes_token ..).whenAt (alike_sees _)
  have hstatic : Echoes l r Element.KnownIn false (m + 1) false (whenAt (sees "static") token) _ :=
    (echoes_token ..).whenAt (alike_sees _)
  have halias : Echoes l r Element.KnownIn false (m + 1) false
      (whenAt (atNameThen "=") (token ++ token)) _ :=
    ((echoes_token ..).append (echoes_token ..)).whenAt (alike_atNameThen _)
  exact (((((hglobal.append (echoes_mark "using")).append hstatic).append halias).append
    (mirrors_typeOf hg).echoes.one).ends (finishes_mark hg.borders.closed ";")).build

/-- What follows the name of a namespace in braces. -/
def namespaceBody (g : Grammar) : Piece :=
  mark Token.openBrace ++ repeatWhile (fun c => !c.atBodyEnd) (one g.scopeMember) ++
    mark Token.closeBrace ++ whenAt (sees ";") token

theorem finishes_namespaceBody :
    Finishes l r Element.KnownIn (m + 1) (namespaceBody g) (namespaceBody h) := by
  have hmembers := hg.scopeMember.within.one.repeatWhile alike_atBodyEnd.not
  have hclosed := ((echoes_mark Token.openBrace).follow hmembers).ends
    (finishes_mark hg.borders.closed Token.closeBrace)
  exact hclosed.append ((echoes_token ..).whenAt (alike_sees ";")) (idle_semicolon hg.borders)

omit hg in
theorem alike_atGlobalAttribute : Alike l r atGlobalAttribute := by
  have heq : atGlobalAttribute = fun c => c.sees "[" && ((c.nth 1).isWord && (c.seesAt 2 ":" &&
      ((c.nth 1).text == "assembly" || (c.nth 1).text == "module"))) := by
    funext c
    simp only [atGlobalAttribute, Bool.and_assoc]
  rw [heq]
  exact alike_two (soft_sees (by decide)) (alike_sees "[")
    (fun _ hword => Token.stops_of_isWord hword) fun _ _ _ _ => rfl

/-- A namespace that lasts to the end of the file. -/
def fileNamespace (g : Grammar) (head : List Element) : Parser Node :=
  build .fileScopedNamespaceDeclaration (given head ++ token
    ++ repeatWhile (fun c => !c.atEnd) (one g.scopeMember))

omit hg in
theorem namespaceDeclaration_eq (g : Grammar) : namespaceDeclaration g =
    (mark "namespace" ++ one (typeName g) >>= fun head => fun c =>
      if c.sees ";" then fileNamespace g head c
      else build .namespaceDeclaration (given head ++ namespaceBody g) c) := by
  refine congrArg (_ >>= ·) (funext fun head => funext fun c => ?_)
  show (if c.sees ";" then _ else _ : Parser Node) c = _
  cases c.sees ";" with
  | true => rfl
  | false =>
    have hassoc : given head ++ mark Token.openBrace ++
        repeatWhile (fun c => !c.atBodyEnd) (one g.scopeMember) ++ mark Token.closeBrace ++
          whenAt (sees ";") token = given head ++ namespaceBody g := by
      simp only [namespaceBody, append_assoc]
    show build .namespaceDeclaration (given head ++ mark Token.openBrace ++
      repeatWhile (fun c => !c.atBodyEnd) (one g.scopeMember) ++ mark Token.closeBrace ++
        whenAt (sees ";") token) c = build .namespaceDeclaration (given head ++ namespaceBody g) c
    rw [hassoc]

/-- A namespace that lasts to the end of the file is no passage. -/
theorem finishes_namespaceDeclaration :
    Finishes l r Node.Known (m + 1) (namespaceDeclaration g) (namespaceDeclaration h) := by
  rw [namespaceDeclaration_eq, namespaceDeclaration_eq]
  have hhead : Mirrors l r false (m + 1) true (mark "namespace" ++ one (typeName g))
      (mark "namespace" ++ one (typeName h)) :=
    (mirrors_mark (by decide)).append (mirrors_typeName hg).one
  have hplain : Echoes l r (fun _ => True) false (m + 1) true _ _ := hhead.echoes
  refine hplain.bind_ends (fun head => ?_) (Nat.le_add_right ..) fun _ _ _ _ _ _ _ _ => trivial
  have hbody : Finishes l r Node.Known (m + 1)
      (build .namespaceDeclaration (given head ++ namespaceBody g)) _ :=
    ((echoes_given head).ends (finishes_namespaceBody hg)).build
  have hwhole : Onward (fileNamespace g head) :=
    (((onward_pure head).append onward_token).append
      fun _ _ _ hread => Echoes.onward_rounds hg.scopeMember.one.echoes.onward _ hread).build
  refine ⟨⟨hwhole.ite hbody.echoes.onward, fun ts us n hts hless hread hknown hlast => ?_⟩,
    fun n hread => ?_⟩
  · rw [← alike_sees ";" hts]
    split at hread
    · obtain ⟨parts, -, rfl⟩ := build_eq_ok hread
      simp [Node.Known, Shape.isKnown, Kind.isKnownOver] at hknown
    · rename_i hsemicolon
      rw [if_neg hsemicolon]
      exact hbody.echoes.echo hts hless hread hknown hlast
  · rw [hg.borders.calm.sees (by decide)] at hread
    exact hbody.hungry n hread

theorem finishes_scopeMemberOf :
    Finishes l r Node.Known (m + 1) (scopeMemberOf g) (scopeMemberOf h) := by
  have hglobal : Alike l r fun c => c.sees "global" && c.seesAt 1 "using" :=
    (soft_sees (by decide)).alike_and (alike_sees "global") fun _ _ _ => rfl
  refine .ite ((alike_sees "using").or hglobal) (finishes_usingDirective hg) ?_
  refine .ite (alike_sees "namespace") (finishes_namespaceDeclaration hg) ?_
  exact .ite alike_atGlobalAttribute (finishes_attributeList hg) (finishes_memberOf hg)

end Productions

/-! ## Grammars of every depth -/

/-- No operand starts with another keyword. -/
theorem unary_refuses (g : Grammar) {c : Cursor} (h : operandStarts c = false) (x : Node × Cursor) :
    unary g c ≠ .ok x := by
  simp only [operandStarts, Bool.or_eq_false_iff, bne_eq_false_iff_eq] at h
  obtain ⟨⟨hkind, hnone⟩, htype⟩ := h
  have hsees : ∀ text ∈ operandStarters, c.sees text = false := fun text hmem =>
    Bool.eq_false_iff.2 fun hsees =>
      Bool.eq_false_iff.1 hnone (List.any_eq_true.2 ⟨text, hmem, hsees⟩)
  have hany : ∀ texts, texts ⊆ operandStarters → c.seesAny texts = false := fun texts hsub => by
    refine Bool.eq_false_iff.2 fun hany => ?_
    obtain ⟨text, hmem, htext⟩ := List.any_eq_true.1 hany
    exact Bool.eq_false_iff.1 (hsees text (hsub hmem)) htext
  have hawait : atAwait c = false := by simp [atAwait, Token.isName, hkind]
  have hname : c.atName = false := by simp [atName, hkind]
  have hliteral : c.current.isLiteral = false := by simp [Token.isLiteral, hkind]
  have hprimary : primary g c = .error (c.refusal "expression") := by
    simp only [primary, keywordPrimary, hliteral, hname, htype,
      hany _ (by decide : ["true", "false", "null"] ⊆ _),
      hany _ (by decide : ["typeof", "sizeof"] ⊆ _),
      hany _ (by decide : ["checked", "unchecked"] ⊆ _), hsees "default" (by decide),
      hsees "this" (by decide), hsees "base" (by decide), hsees "(" (by decide),
      hsees "[" (by decide), hsees Token.openBrace (by decide), hsees "new" (by decide),
      hsees "delegate" (by decide), Bool.false_eq_true, if_false]
    rfl
  have hunary : unary g c = grow (primarySuffix g) (primary g) c := by
    simp only [unary, hawait,
      hany _ (by decide : ["!", "-", "+", "~", "++", "--", "^", "&", "*"] ⊆ _),
      hsees "throw" (by decide), hsees "(" (by decide), Bool.false_eq_true, if_false]
  rw [hunary]
  intro hread
  obtain ⟨left, d, hleft, -⟩ := grow_eq_ok hread
  rw [hprimary] at hleft
  cases hleft

/-- A grammar of greater depth has the other one on top. -/
theorem nestingOver_nesting (n k : Nat) : nestingOver (nesting k) n = nesting (k + n) := by
  induction n with
  | zero => rfl
  | succ n ih => exact congrArg deepen ih

/-- Where a cast starts in a passage there is one, whatever the depth of the grammar. -/
theorem leadsTo_cast {l : Cursor} {n : Nat} {ts : List Token} (hl : l.Closed) (hts : Passage l ts)
    (hless : (l.facing ts).ahead.length < n + 1)
    (hstarts : (nesting n).startsCast (l.facing ts) = true) :
    (cast (nesting n)).leadsTo (fun _ => true) (l.facing ts) = true := by
  have hreads := hts.casts (List.suffix_refl ts) hts.ne_nil
  obtain ⟨k, hk⟩ : ∃ k, n = k + (l.facing ts).ahead.length :=
    ⟨n - (l.facing ts).ahead.length, by omega⟩
  have halike := alikeBelow_nestingOver (nesting k) (l.facing ts).ahead.length
  rw [nestingOver_nesting, ← hk] at halike
  have hclosed : (l.facing ts).Closed := hl
  have hcast := (same_cast halike hclosed (Nat.zero_le _) (Nat.lt_succ_self _)).1
  have hsame : SameBelow 0 _ 1 (castType (nesting n)) (castType _) :=
    ((same_mark _ "(").follow halike.type.one).append (same_mark _ ")")
  have htype := (hsame hclosed (Nat.zero_le _) (Nat.lt_succ_self _)).1
  simp only [readsCast, startsCast, leadsTo] at hreads hstarts ⊢
  simp only [← hcast, ← htype] at hreads
  rw [hstarts] at hreads
  exact hreads

variable {l r : Cursor} {m : Nat} {g h : Grammar}

theorem echoesBelow_zero (hborders : Borders l r) (k : Nat) :
    EchoesBelow l r 0 nothing (nesting k) where
  borders := hborders
  type := ⟨onward_fail _, fun _ _ hless => absurd hless (Nat.not_lt_zero _)⟩
  expression := ⟨onward_fail _, fun _ _ _ _ hless => absurd hless (Nat.not_lt_zero _)⟩
  operand := ⟨onward_fail _, fun _ _ _ _ hless => absurd hless (Nat.not_lt_zero _)⟩
  binary _ := ⟨onward_fail _, fun _ _ _ _ hless => absurd hless (Nat.not_lt_zero _)⟩
  initializer := ⟨onward_fail _, fun _ _ _ _ hless => absurd hless (Nat.not_lt_zero _)⟩
  statement := ⟨⟨onward_fail _, fun _ _ _ _ hless => absurd hless (Nat.not_lt_zero _)⟩, nofun⟩
  member := ⟨⟨onward_fail _, fun _ _ _ _ hless => absurd hless (Nat.not_lt_zero _)⟩, nofun⟩
  scopeMember := ⟨⟨onward_fail _, fun _ _ _ _ hless => absurd hless (Nat.not_lt_zero _)⟩, nofun⟩
  refuses c hstarts x := by
    cases k with
    | zero => exact nofun
    | succ k => exact unary_refuses _ hstarts x
  casts ts hts hless := by
    have := List.length_pos_iff.2 hts.ne_nil
    simp only [ahead_facing, List.length_append] at hless
    omega

/-- A deeper grammar in front of other tokens reads of a passage what the grammar that is as deep as
    there are tokens reads of it. -/
theorem echoesBelow_nesting (hborders : Borders l r) (k n : Nat) :
    EchoesBelow l r n (nesting n) (nesting (k + n)) := by
  induction n with
  | zero => exact echoesBelow_zero hborders k
  | succ n ih => exact {
      borders := hborders
      type := mirrors_typeOf ih
      expression := echoes_expressionOf ih
      operand := echoes_unary ih
      binary := echoes_binaryOf ih
      initializer := echoes_initializerOf ih
      statement := finishes_statementOf ih
      member := finishes_memberOf ih
      scopeMember := finishes_scopeMemberOf ih
      refuses := fun _ hstarts x => unary_refuses _ hstarts x
      casts := fun _ hts hless => leadsTo_cast hborders.closed hts hless }

end Recast.Grammar
