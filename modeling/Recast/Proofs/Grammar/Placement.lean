-- SUMMARY: Every production of the grammar gives well-formed nodes of its sort, so files and fragments that were read are housed.
import Recast.Proofs.Grammar.Typing

/-! # Placement

One lemma for each production says what it gives, under the assumption that the constructs nested
in it are what they should be; the assumption holds at every depth of nesting. -/

namespace Recast.Grammar

open Recast.Parser Recast.Cursor

/-- The constructs that a grammar reads are well formed, each of its sort. -/
structure Places (g : Grammar) : Prop where
  type : Gives Node.TypeName g.type
  spelling : SpellsNode (Spelled .type) g.type
  expression : Gives Node.Value g.expression
  operand : Gives Node.Value g.operand
  binary : ∀ least, Gives Node.Value (g.binary least)
  initializer : Gives Node.Value g.initializer
  statement : Gives Node.Statement g.statement
  member : Gives Node.Member g.member
  scopeMember : Gives Node.Loose g.scopeMember

variable {g : Grammar} (hg : g.Places)

include hg

/-! ## Names and types -/

theorem Places.typePart : Gives Node.TypePart g.type :=
  hg.type.mono fun _ => And.left

theorem gives_typeArguments : Gives Node.TypePart (typeArguments g) :=
  ((((yields_mark _).append hg.typePart.one.whenAt.commaList).append (yields_mark _)).typePart
    rfl rfl).mono fun _ => And.left

theorem gives_simpleTypeName : Gives Node.TypeName (simpleTypeName g) :=
  Gives.ifAt ((yields_name.append (gives_typeArguments hg).one).typeName rfl rfl)
    (yields_name.typeName rfl rfl)

theorem gives_typeName : Gives Node.TypeName (typeName g) := by
  have hsimple : Yields Node.TypePart (one (simpleTypeName g)) :=
    ((gives_simpleTypeName hg).mono fun _ => And.left).one
  refine Keeps.grow ?_ (Gives.ifAt (((yields_token.append yields_token).append hsimple).typeName
    rfl rfl) (gives_simpleTypeName hg))
  intro c kind rest hnext left hleft
  dsimp only at hnext
  split at hnext
  · obtain ⟨rfl, rfl⟩ := Prod.mk.inj (Option.some.inj hnext)
    exact ((yields_given (Element.each_single hleft.1)).append
      (yields_token.append hsimple)).typeName rfl rfl
  · cases hnext

theorem gives_tupleType : Gives Node.TypeName (tupleType g) := by
  have helement : Gives Node.TypePart
      (build .tupleElement (one g.type ++ whenAt atName token)) :=
    ((hg.typePart.one.append yields_token.whenAt).typePart rfl rfl).mono fun _ => And.left
  exact (((yields_mark _).append helement.one.commaList).append (yields_mark _)).typeName rfl rfl

omit hg in
theorem gives_rank : Gives Node.TypePart rank :=
  (((yields_token.append yields_token.repeatWhile).append (yields_mark _)).typePart rfl rfl).mono
    fun _ => And.left

omit hg in
theorem keeps_typeSuffix : Keeps Node.TypeName typeSuffix := by
  intro c kind rest hnext left hleft
  have hgiven := yields_given (Element.each_single hleft.1)
  simp only [typeSuffix] at hnext
  split at hnext
  · obtain ⟨rfl, rfl⟩ := Prod.mk.inj (Option.some.inj hnext)
    exact (hgiven.append yields_token).typeName rfl rfl
  · split at hnext
    · obtain ⟨rfl, rfl⟩ := Prod.mk.inj (Option.some.inj hnext)
      exact (hgiven.append gives_rank.one.repeatWhile).typeName rfl rfl
    · cases hnext

theorem gives_typeOf : Gives Node.TypeName (typeOf g) :=
  keeps_typeSuffix.grow (gives_ite (gives_tupleType hg)
    (gives_ite (yields_token.typeName rfl rfl) (gives_typeName hg)))

section Led

omit hg

theorem gives_led_build {kind : Kind} {p : Piece} (hkind : kind ≠ .genericName) :
    Gives Node.Led (build kind p) := by
  intro c n d h
  obtain ⟨parts, -, rfl⟩ := build_eq_ok h
  exact fun heq => absurd heq hkind

theorem gives_led_generic (p : Piece) : Gives Node.Led (build .genericName (name ++ p)) := by
  intro c n d h
  obtain ⟨parts, hparts, rfl⟩ := build_eq_ok h
  obtain ⟨xs, e, ys, hname, -, rfl⟩ := append_eq_ok hparts
  unfold name at hname
  split at hname
  · rename_i hat
    obtain ⟨t, e, hbump, hname⟩ := bind_eq_ok hname
    obtain ⟨rfl, rfl⟩ := Prod.mk.inj (Except.ok.inj hname)
    have hcurrent : c.current = t := by
      unfold bump at hbump
      split at hbump <;> obtain ⟨rfl, -⟩ := Prod.mk.inj (Except.ok.inj hbump) <;>
        simp [Cursor.current, Cursor.nth, *]
    exact fun _ => ⟨t, ys, rfl, hcurrent ▸ eq_of_beq hat⟩
  · cases hname

theorem keeps_led {next : Extension}
    (h : ∀ c kind rest, next c = some (kind, rest) → kind ≠ .genericName) : Keeps Node.Led next :=
  fun c kind rest hnext _ _ => gives_led_build (h c kind rest hnext)

theorem gives_led_simpleTypeName : Gives Node.Led (simpleTypeName g) :=
  (gives_led_generic _).ifAt (gives_led_build (by decide))

theorem gives_led_typeName : Gives Node.Led (typeName g) := by
  refine (keeps_led fun c kind rest hnext => ?_).grow
    ((gives_led_build (by decide)).ifAt gives_led_simpleTypeName)
  split at hnext
  · obtain ⟨rfl, -⟩ := Prod.mk.inj (Option.some.inj hnext)
    exact nofun
  · cases hnext

theorem gives_led_typeOf : Gives Node.Led (typeOf g) := by
  refine (keeps_led fun c kind rest hnext => ?_).grow (gives_ite (gives_led_build (by decide))
    (gives_ite (gives_led_build (by decide)) gives_led_typeName))
  unfold typeSuffix at hnext
  split at hnext
  · obtain ⟨rfl, -⟩ := Prod.mk.inj (Option.some.inj hnext)
    exact nofun
  · split at hnext
    · obtain ⟨rfl, -⟩ := Prod.mk.inj (Option.some.inj hnext)
      exact nofun
    · cases hnext

end Led

theorem gives_simpleName : Gives Node.Value (simpleName g) :=
  (Gives.orElse (((yields_name.append (gives_typeArguments hg).one).typeName rfl rfl).followedBy _ _)
    (yields_name.typeName rfl rfl)).mono fun _ => Node.TypeName.value

/-! ## Blocks, arguments, values -/

theorem Places.innerType : Yields Node.Inner (one g.type) :=
  (hg.type.mono fun _ h => h.1.inner).one

theorem Places.innerExpression : Yields Node.Inner (one g.expression) :=
  (hg.expression.mono fun _ => Node.Value.inner).one

theorem Places.innerOperand : Yields Node.Inner (one g.operand) :=
  (hg.operand.mono fun _ => Node.Value.inner).one

theorem Places.innerStatement : Yields Node.Inner (one g.statement) :=
  (hg.statement.mono fun _ => Node.Statement.inner).one

theorem gives_block : Gives (Node.Is .block) (block g) :=
  (((yields_mark _).append hg.innerStatement.repeatWhile).append (yields_mark _)).build rfl

theorem yields_block : Yields Node.Inner (one (block g)) :=
  ((gives_block hg).mono fun _ h => h.inner rfl).one

theorem gives_initializerOf : Gives Node.Value (initializerOf g) := by
  have hnested := (hg.initializer.mono fun _ => Node.Value.inner).one
  exact (((yields_mark _).append (hnested.ifAt hg.innerExpression).openList).append
    (yields_mark _)).value rfl rfl

theorem yields_initializerOf : Yields Node.Inner (one (initializerOf g)) :=
  ((gives_initializerOf hg).mono fun _ => Node.Value.inner).one

theorem yields_value : Yields Node.Inner (value g) :=
  (yields_initializerOf hg).ifAt hg.innerExpression

theorem gives_equalsValue : Gives Node.Inner (equalsValue g) :=
  ((yields_mark _).append (yields_value hg)).inner rfl rfl

theorem gives_argument : Gives (Node.Is .argument) (argument g) := by
  have hdeclaration : Gives Node.Inner (declarationArgument g) :=
    ((hg.innerType.append yields_name).append (yields_check _ _)).inner rfl rfl
  exact ((yields_token.append yields_token).whenAt.append
    ((yields_token.append (hdeclaration.one.orElse hg.innerExpression)).ifAt
      hg.innerExpression)).build rfl

theorem yields_argument : Yields Node.Inner (one (argument g)) :=
  ((gives_argument hg).mono fun _ h => h.inner rfl).one

theorem gives_argumentList : Gives Node.Inner (argumentList g) :=
  (yields_argument hg).bracketed.inner rfl rfl

theorem gives_bracketedArguments : Gives Node.Inner (bracketedArguments g) :=
  (yields_argument hg).bracketed.inner rfl rfl

/-! ## Attributes and parameters -/

theorem gives_attributeArguments : Gives Node.Inner (attributeArguments g) := by
  have hargument : Gives Node.Inner (attributeArgument g) :=
    ((yields_token.append yields_token).whenAt.append hg.innerExpression).inner rfl rfl
  exact hargument.one.bracketed.inner rfl rfl

theorem gives_attributeOf : Gives (Node.Is .attribute) (attributeOf g) := by
  have hname := ((gives_typeName hg).mono fun _ h => h.1.inner).one
  exact (hname.append (gives_attributeArguments hg).one.whenAt).build rfl

/-- The opening, which may name a target, then attributes with one comma between any two, perhaps
    one more comma, and the closing. -/
theorem shows_attributeList (test : Cursor → Bool) {target : Parser Node}
    (htarget : Gives (Node.Is .attributeTargetSpecifier) target) :
    Shows (fun row => ∃ trailing, Mark.IsList .attributeList trailing row)
      (mark "[" ++ whenAt test (one target) ++ one (attributeOf g)
        ++ whenAt (sees ",") (token ++ openList "]" (one (attributeOf g))) ++ mark "]") := by
  let opens (row : List Mark) : Prop :=
    ∀ m ∈ row, m ≠ .comma ∧ ∀ kind ∈ m.kind?, kind = .attributeTargetSpecifier
  -- The row grows by the parts of the grammar, one step for each.
  have hopens : Shows opens (mark "[" ++ whenAt test (one target)) := by
    refine (shows_mark (by decide)).append (shows_one htarget).whenAt fun xs ys hxs hys => ?_
    rcases hys with rfl | ⟨span, rfl⟩ <;> simp [opens, hxs, Mark.kind?]
  have hfirst : Shows (fun row => ∃ opening span,
      row = opening ++ [.node .attribute span] ∧ opens opening)
      (mark "[" ++ whenAt test (one target) ++ one (attributeOf g)) := by
    refine hopens.append (shows_one (gives_attributeOf hg)) fun xs ys hxs hys => ?_
    obtain ⟨span, rfl⟩ := hys
    exact ⟨xs, span, rfl, hxs⟩
  have hitems : Shows (fun row => ∃ opening items trailing, row = opening ++ items ++ trailing ∧
      opens opening ∧ Mark.Separated .attribute items ∧ (trailing = [] ∨ trailing = [.comma]))
      (mark "[" ++ whenAt test (one target) ++ one (attributeOf g)
        ++ whenAt (sees ",") (token ++ openList "]" (one (attributeOf g)))) := by
    refine hfirst.append (shows_openList (gives_attributeOf hg) "]").afterComma
      fun xs ys hxs hys => ?_
    obtain ⟨opening, span, rfl, hopening⟩ := hxs
    rcases hys with rfl | ⟨marks, rfl, rfl | ⟨more, trailing, rfl, hmore, htrailing⟩⟩
    · exact ⟨opening, [.node .attribute span], [], by simp, hopening, .last, .inl rfl⟩
    · exact ⟨opening, [.node .attribute span], [.comma], by simp, hopening, .last, .inr rfl⟩
    · exact ⟨opening, .node .attribute span :: .comma :: more, trailing, by simp, hopening,
        .more hmore, htrailing⟩
  refine hitems.append (shows_mark (by decide)) fun xs ys hxs hys => ?_
  obtain ⟨opening, attributes, trailing, rfl, hopening, hattributes, htrailing⟩ := hxs
  exact ⟨trailing, opening, attributes, ys, rfl, hopening, .inr ⟨_, rfl, hattributes⟩,
    fun hnil => absurd hnil hattributes.ne_nil, htrailing.imp_right fun h => ⟨h, by decide⟩,
    by simp [hys]⟩

theorem gives_attributeList : Gives (Node.Is .attributeList) (attributeList g) := by
  -- What is not an attribute in the list is its target, which holds two tokens.
  have htarget : Gives (fun n => n.TypePart ∧ n.kind = .attributeTargetSpecifier)
      (build .attributeTargetSpecifier (token ++ token)) :=
    (yields_token.append yields_token).typePart rfl rfl
  have hitem : Gives (fun n => n.Is .attribute ∨ n.TypePart) (attributeOf g) :=
    (gives_attributeOf hg).mono fun _ => .inl
  have hrow := shows_attributeList hg (fun c => c.current.isWord && c.seesAt 1 ":")
    (htarget.mono fun _ h => ⟨h.1.1, h.2⟩)
  refine Gives.build (Gives.and (((((yields_mark _).append (htarget.mono fun _ h =>
    .inr h.1).one.whenAt).append hitem.one).append (yields_token.append
    hitem.one.openList).whenAt).append (yields_mark _)) hrow) fun parts hparts => ?_
  exact ⟨Kind.forms_of_items rfl hparts.1 hparts.2,
    hparts.1.mono fun _ h => h.elim And.left And.left⟩

theorem yields_attributeLists : Yields (Node.Is .attributeList) (attributeLists g) :=
  (gives_attributeList hg).one.repeatWhile

theorem yields_innerAttributeLists : Yields Node.Inner (attributeLists g) :=
  (yields_attributeLists hg).mono fun _ h => h.mono fun _ hn => hn.inner rfl

omit hg in
/-- A bare run of modifiers. -/
theorem gives_modifiers {p : Piece} (hp : ∀ {P : Node → Prop}, Yields P p) :
    Gives (fun n => n.TypePart ∧ n.kind = .modifiers) (build .modifiers p) :=
  hp.typePart rfl rfl

omit hg in
theorem yields_modifiers {p : Piece} (hp : ∀ {P : Node → Prop}, Yields P p) :
    Yields Node.Inner (one (build .modifiers p)) :=
  ((gives_modifiers hp).mono fun _ h => h.1.inner).one

/-- A child of a constructor or a type: a list of parameters there has no comma after the last. -/
def Guarded (n : Node) : Prop :=
  n.Inner ∧ (n.kind = .parameterList → Mark.IsList .parameterList [] (Element.row n.children))

omit hg in
theorem guarded_of_is {kind : Kind} {n : Node} (h : n.Is kind) (hinner : kind.isInner = true)
    (hother : kind ≠ .parameterList) : Guarded n :=
  ⟨h.inner hinner, fun hparameters => absurd (h.2.symm.trans hparameters) hother⟩

omit hg in
theorem guarded_of_member {n : Node} (h : n.Member) : Guarded n := by
  refine ⟨h.statement.inner, fun hparameters => ?_⟩
  have hmember := h.2
  rw [hparameters] at hmember
  cases hmember

omit hg in
/-- A constructor or a type over guarded parts. -/
theorem givesAt_constructible {kind : Kind} {p : Piece} {c : Cursor} (h : Yields Guarded p)
    (hkind : kind.isConstructible = true) (hnamed : kind.introducer?.isSome = true →
      GivesAt c (fun parts => ∃ name, Element.NamedIn kind name parts) p) :
    GivesAt c (Node.Is kind) (build kind p) := by
  have hplain : (∀ child, kind.bars child = false) ∧ kind ≠ .methodDeclaration ∧
      kind.item? = none := by
    cases kind <;> first | exact ⟨fun _ => rfl, by decide, rfl⟩ | cases hkind
  intro n d hok
  obtain ⟨parts, hread, rfl⟩ := build_eq_ok hok
  have hparts := h c parts d hread
  have hinner : Element.Each Node.Inner parts := hparts.mono fun _ => And.left
  refine ⟨.intro (Kind.forms_of_inner hplain.1 hplain.2.1 (fun hsome => hnamed hsome parts d hread)
    hinner ⟨fun hlist => ?_, fun _ c hc => (hparts c hc).2, fun c hc list hlist => ?_⟩)
    (hinner.mono fun _ => And.left), rfl⟩
  · rw [hplain.2.2] at hlist
    cases hlist
  · rw [(hinner c hc).loose.2] at hlist
    cases hlist

theorem gives_parameterList :
    Gives (fun n => n.Is .parameterList ∧ Guarded n) (parameterList g) := by
  have hparameter : Gives (Node.Is .parameter) (parameter g) :=
    (((((yields_innerAttributeLists hg).append (yields_modifiers yields_token.repeatWhile)).append
      hg.innerType).append yields_name).append (gives_equalsValue hg).one.whenAt).build rfl
  have hitems : Shows (fun row => ∃ items, row = .word "(" :: items ∧
      (items = [] ∨ Mark.Separated .parameter items))
      (mark "(" ++ whenAt (fun c => !c.sees ")") (commaList (one (parameter g)))) :=
    (shows_mark (by decide)).append (shows_commaList hparameter).whenAt fun xs ys hxs hys =>
      ⟨ys, by rw [hxs]; rfl, hys⟩
  have hrow : Shows (Mark.IsList .parameterList []) (bracketed "(" ")" (one (parameter g))) := by
    refine hitems.append (shows_mark (by decide)) fun xs ys hxs hys => ?_
    obtain ⟨items, rfl, hitems⟩ := hxs
    exact ⟨[.word "("], items, ys, by simp, by simp [Mark.kind?], hitems.imp_right (⟨_, rfl, ·⟩),
      fun _ => ⟨rfl, rfl⟩, .inl rfl, by simp [hys]⟩
  have hparts : Yields Node.Inner (bracketed "(" ")" (one (parameter g))) :=
    (hparameter.mono fun _ h => h.inner rfl).one.bracketed
  refine (hparts.and hrow).bind fun parts hparts => gives_pure ?_
  have his : (Node.ofChildren .parameterList parts).Is .parameterList :=
    ⟨.intro (Kind.forms_of_parameters hparts.1 hparts.2) (hparts.1.mono fun _ => And.left), rfl⟩
  exact ⟨his, his.inner rfl, fun _ => hparts.2⟩

theorem yields_parameterList : Yields Guarded (one (parameterList g)) :=
  ((gives_parameterList hg).mono fun _ => And.right).one

theorem yields_innerParameterList : Yields Node.Inner (one (parameterList g)) :=
  ((gives_parameterList hg).mono fun _ h => h.2.1).one

/-! ## Lambdas -/

omit hg in
/-- Parameters of a lambda, where a comma may follow the last. -/
theorem shows_lambdaParameters {item : Parser Node} (hitem : Gives (Node.Is .parameter) item) :
    Shows (fun row => ∃ trailing, Mark.IsList .parameterList trailing row)
      (mark "(" ++ openList ")" (one item) ++ mark ")") := by
  have hitems : Shows (fun row => ∃ items, row = .word "(" :: items ∧ Mark.Open .parameter items)
      (mark "(" ++ openList ")" (one item)) :=
    (shows_mark (by decide)).append (shows_openList hitem ")") fun xs ys hxs hys =>
      ⟨ys, by rw [hxs]; rfl, hys⟩
  refine hitems.append (shows_mark (by decide)) fun xs ys hxs hys => ?_
  obtain ⟨items, rfl, rfl | ⟨parameters, trailing, rfl, hparameters, htrailing⟩⟩ := hxs
  · exact ⟨[], [.word "("], [], ys, by simp, by simp [Mark.kind?], .inl rfl, fun _ => ⟨rfl, rfl⟩,
      .inl rfl, by simp [hys]⟩
  · exact ⟨trailing, [.word "("], parameters, ys, by simp, by simp [Mark.kind?],
      .inr ⟨_, rfl, hparameters⟩, fun hnil => absurd hnil hparameters.ne_nil,
      htrailing.imp_right fun h => ⟨h, by decide⟩, by simp [hys]⟩

theorem gives_lambdaParameters : Gives Node.Inner (lambdaParameters g) := by
  have hmodes : Yields Node.Inner
      (one (build .modifiers (repeatWhile (seesAny ["ref", "out", "in", "params"]) token))) :=
    yields_modifiers yields_token.repeatWhile
  have hitem : Gives (Node.Is .parameter) (build .parameter
      (one (build .modifiers (repeatWhile (seesAny ["ref", "out", "in", "params"]) token))
        ++ whenAt (fun c => !(c.atNameThen "," || c.atNameThen ")")) (one g.type) ++ name)) :=
    ((hmodes.append hg.innerType.whenAt).append yields_name).build rfl
  refine (Gives.build (Gives.and (((yields_mark _).append (hitem.mono fun _ h =>
    h.inner rfl).one.openList).append (yields_mark _)) (shows_lambdaParameters hitem))
    fun parts hparts => ?_).mono fun _ h => h.inner rfl
  obtain ⟨hparts, trailing, hrow⟩ := hparts
  exact ⟨Kind.forms_of_parameters hparts hrow, hparts.mono fun _ => And.left⟩

theorem gives_lambda (head : LambdaHead) : Gives Node.Value (lambda g head) := by
  have hbare : Gives Node.Inner (build .parameter (one (build .modifiers (given [])) ++ token)) :=
    ((yields_modifiers (yields_given Element.each_nil)).append yields_token).inner rfl rfl
  have hparameters : Gives Node.Inner (if head.isSimple then
      build .parameter (one (build .modifiers (given [])) ++ token) else lambdaParameters g) := by
    split
    · exact hbare
    · exact gives_lambdaParameters hg
  refine Yields.value ((((yields_take _).append hparameters.one).append (yields_mark _)).append
    ((yields_block hg).ifAt hg.innerExpression)) ?_ ?_ <;> split <;> rfl

/-! ## Primary expressions -/

theorem gives_keywordOperand {kind : Kind} (hkind : kind.isOrdinary = true)
    (hvalue : kind.isValue = true) : Gives Node.Value (keywordOperand g kind) :=
  (((yields_token.append (yields_mark _)).append hg.innerType).append (yields_mark _)).value
    hkind hvalue

theorem gives_parenthesized : Gives Node.Value (parenthesized g) := by
  refine (yields_mark (P := Node.Inner) "(").bind fun opening hopening => ?_
  refine (gives_argument hg).bind fun first hfirst => gives_get fun c => ?_
  split
  · have hgiven := yields_given (hopening.append (Element.each_single (hfirst.inner rfl)))
    exact ((hgiven.append (yields_token.append (yields_argument hg)).repeatWhile).append
      (yields_mark _)).value rfl rfl
  · split
    · -- What is in parentheses is read as an argument and taken out of it again.
      rename_i inner hinner
      have hinside : Element.Each Node.Inner [inner] := fun n hn =>
        (hfirst.inner rfl).child (by rw [hfirst.2]; rfl) (hinner ▸ hn)
      exact ((yields_given (hopening.append hinside)).append (yields_mark _)).value rfl rfl
    · exact gives_fail _ _

theorem gives_collection : Gives Node.Value (collection g) := by
  have hspread : Gives Node.Value (build .prefixUnaryExpression (token ++ one g.expression)) :=
    (yields_token.append hg.innerExpression).value rfl rfl
  exact (((yields_mark _).append (Yields.ifAt (hspread.mono fun _ => Node.Value.inner).one
    hg.innerExpression).openList).append (yields_mark _)).value rfl rfl

theorem gives_arrayCreation {head : List Element} (hhead : Element.Each Node.Inner head) :
    Gives Node.Value (arrayCreation g head) := by
  have hsizes : Gives Node.Inner (sizes g) :=
    ((yields_token.append hg.innerExpression.whenAt.openList).append (yields_mark _)).inner rfl rfl
  exact (((yields_given hhead).append hsizes.one.repeatWhile).append
    (yields_initializerOf hg).whenAt).value rfl rfl

theorem gives_tupleArrayType : Gives Node.Inner (tupleArrayType g) := by
  refine (hg.type.mono fun _ h => h.1.inner).bind fun type htype => gives_get fun c => ?_
  split
  · exact gives_pure htype
  · exact gives_fail _ _

theorem yields_creationTail : Yields Node.Inner (creationTail g) :=
  ((gives_argumentList hg).one.append (yields_initializerOf hg).whenAt).ifAt
    ((yields_initializerOf hg).ifAt (gives_fail _ _))

theorem gives_creation : Gives Node.Value (creation g) := by
  refine (yields_mark (P := Node.Inner) "new").bind fun head hhead => gives_get fun c => ?_
  have hgiven := yields_given hhead
  have hinitializer := yields_initializerOf hg
  split
  · refine Gives.bind (A := fun type? => ∀ type ∈ type?, type.Inner) ?_ fun type? htype => ?_
    · refine Gives.orElse (Gives.bind (gives_tupleArrayType hg) fun type htype => gives_pure ?_)
        (gives_pure (by simp))
      simpa using htype
    · cases type? with
      | some type =>
        exact gives_arrayCreation hg (hhead.append (Element.each_single (htype type rfl)))
      | none =>
        exact ((hgiven.append (gives_argumentList hg).one).append hinitializer.whenAt).value rfl rfl
  · split
    · exact ((((hgiven.append yields_token).append yields_token.repeatWhile).append
        (yields_mark _)).append hinitializer).value rfl rfl
    · split
      · exact (hgiven.append hinitializer).value rfl rfl
      · refine (hg.type.mono fun _ h => h.1.inner).bind fun type htype => gives_get fun c => ?_
        have hwith := hhead.append (Element.each_single htype)
        split
        · exact gives_arrayCreation hg hwith
        · exact ((yields_given hwith).append (yields_creationTail hg)).value rfl rfl

theorem gives_keywordPrimary : Gives Node.Value (keywordPrimary g) := by
  have htoken : ∀ {kind : Kind}, kind.isOrdinary = true → kind.isValue = true →
      Gives Node.Value (build kind token) := fun hkind hvalue => yields_token.value hkind hvalue
  refine gives_ite (htoken rfl rfl) ?_
  refine gives_ite (gives_ite (gives_keywordOperand hg rfl rfl) (htoken rfl rfl)) ?_
  refine gives_ite (gives_keywordOperand hg rfl rfl) ?_
  refine gives_ite ((((yields_token.append (yields_mark _)).append hg.innerExpression).append
    (yields_mark _)).value rfl rfl) ?_
  refine gives_ite (htoken rfl rfl) ?_
  refine gives_ite (htoken rfl rfl) ?_
  refine gives_ite (gives_parenthesized hg) ?_
  refine gives_ite (gives_collection hg) ?_
  refine gives_ite (gives_initializerOf hg) ?_
  refine gives_ite (gives_creation hg) ?_
  refine gives_ite (((yields_token.append (yields_innerParameterList hg).whenAt).append
    (yields_block hg)).value rfl rfl) ?_
  exact gives_ite (htoken rfl rfl) (gives_fail _ _)

theorem gives_primary : Gives Node.Value (primary g) :=
  gives_ite (yields_token.value rfl rfl) (gives_ite (gives_simpleName hg) (gives_keywordPrimary hg))

omit hg in
theorem gives_rawGroup : Gives Node.Inner rawGroup :=
  yields_group.inner rfl rfl

theorem keeps_primarySuffix : Keeps Node.Value (primarySuffix g) := by
  have hname := ((gives_simpleName hg).mono fun _ => Node.Value.inner).one
  intro c kind rest hnext left hleft
  have hgiven := yields_given (Element.each_single hleft.inner)
  have hfound : ∀ {found : Kind} {p : Piece}, some (found, p) = some (kind, rest) →
      found.isOrdinary = true → found.isValue = true → Yields Node.Inner p →
      Gives Node.Value (build kind (given [.node left] ++ rest)) := by
    intro found p heq hkind hvalue hp
    obtain ⟨rfl, rfl⟩ := Prod.mk.inj (Option.some.inj heq)
    exact (hgiven.append hp).value hkind hvalue
  simp only [primarySuffix] at hnext
  split at hnext
  · exact hfound hnext rfl rfl (yields_token.append hname)
  · split at hnext
    · exact hfound hnext rfl rfl (gives_argumentList hg).one
    · split at hnext
      · exact hfound hnext rfl rfl (gives_bracketedArguments hg).one
      · split at hnext
        · exact hfound hnext rfl rfl (yields_token.append (gives_bracketedArguments hg).one)
        · split at hnext
          · exact hfound hnext rfl rfl yields_token
          · split at hnext
            · exact hfound hnext rfl rfl yields_token
            · split at hnext
              · exact hfound hnext rfl rfl (yields_token.append gives_rawGroup.one)
              · split at hnext
                · exact hfound hnext rfl rfl (yields_token.append (yields_initializerOf hg))
                · cases hnext

/-! ## Operators -/

theorem gives_unary : Gives Node.Value (unary g) := by
  have hplain : Gives Node.Value (grow (primarySuffix g) (primary g)) :=
    (keeps_primarySuffix hg).grow (gives_primary hg)
  have hcast : Gives Node.Value (cast g) := fun c =>
    (((((yields_mark _).append hg.innerType).append (yields_mark _)).append (yields_check _ _)).append
      hg.innerOperand).value rfl rfl c
  refine gives_ite ((yields_token.append hg.innerOperand).value rfl rfl) ?_
  refine gives_ite ((yields_token.append hg.innerOperand).value rfl rfl) ?_
  refine gives_ite ((yields_token.append hg.innerExpression).value rfl rfl) ?_
  exact gives_ite (hcast.orElse hplain) hplain

theorem yields_simplePattern : Yields Node.Inner (simplePattern g) := by
  have htype := ((gives_typeOf hg).mono fun _ h => h.1.inner)
  have hcore : Yields Node.Inner fun c =>
      if c.atBracket then one rawGroup c
      else if c.seesAny ["<", "<=", ">", ">="] then (token ++ one g.operand) c
      else orElse (one ((typeOf g).followedBy (fun c => !c.seesAny ["(", "."]) "type pattern"))
        (one g.operand) c :=
    gives_ite gives_rawGroup.one (gives_ite (yields_token.append hg.innerOperand)
      (Yields.orElse (htype.followedBy _ _).one hg.innerOperand))
  exact ((yields_token.repeatWhile.append hcore).append gives_rawGroup.one.whenAt).append
    yields_token.whenAt

theorem yields_morePatterns (bound : Nat) : Yields Node.Inner (morePatterns g bound) := by
  induction bound with
  | zero => exact yields_given Element.each_nil
  | succ bound ih => exact ((yields_token.append (yields_simplePattern hg)).append ih).whenAt

theorem yields_rightOperand (operator : String) (precedence : Nat) :
    Yields Node.Inner (rightOperand g operator precedence) := by
  rw [rightOperand]
  split
  · exact fun c => ((yields_simplePattern hg).append (yields_morePatterns hg _)) c
  · split
    · exact ((gives_typeOf hg).mono fun _ h => h.1.inner).one
    · exact ((hg.binary _).mono fun _ => Node.Value.inner).one

theorem gives_binaryOf (least : Nat) : Gives Node.Value (binaryOf g least) := by
  refine Keeps.grow (fun c kind rest hnext left hleft => ?_) (gives_unary hg)
  split at hnext
  · cases hnext
  · split at hnext
    · cases hnext
    · obtain ⟨rfl, rfl⟩ := Prod.mk.inj (Option.some.inj hnext)
      exact ((yields_given (Element.each_single hleft.inner)).append
        ((yields_take _).append (yields_rightOperand hg _ _))).value rfl rfl

theorem gives_conditional : Gives Node.Value (conditional g) := by
  refine Keeps.growOnce (fun c kind rest hnext left hleft => ?_) (gives_binaryOf hg _)
  split at hnext
  · obtain ⟨rfl, rfl⟩ := Prod.mk.inj (Option.some.inj hnext)
    exact ((yields_given (Element.each_single hleft.inner)).append
      (((yields_token.append hg.innerExpression).append (yields_mark _)).append
        hg.innerExpression)).value rfl rfl
  · cases hnext

theorem gives_assignment : Gives Node.Value (assignment g) := by
  refine Keeps.growOnce (fun c kind rest hnext left hleft => ?_) (gives_conditional hg)
  obtain ⟨width, -, hnext⟩ := Option.map_eq_some_iff.1 hnext
  obtain ⟨rfl, rfl⟩ := Prod.mk.inj hnext
  exact ((yields_given (Element.each_single hleft.inner)).append
    ((yields_take _).append (yields_value hg))).value rfl rfl

theorem gives_expressionOf : Gives Node.Value (expressionOf g) := by
  intro c n d h
  rw [expressionOf] at h
  split at h
  · exact gives_lambda hg _ c n d h
  · exact gives_assignment hg c n d h

/-! ## Parts of declarations -/

theorem gives_typeParameters : Gives (Node.Is .typeParameterList) (typeParameters g) := by
  have hitem : Gives Node.Inner (build .typeParameter
      (attributeLists g ++ whenAt (seesAny ["in", "out"]) token ++ name)) :=
    (((yields_innerAttributeLists hg).append yields_token.whenAt).append yields_name).inner rfl rfl
  exact (((yields_mark _).append hitem.one.commaList).append (yields_mark _)).build rfl

theorem gives_baseList : Gives (Node.Is .baseList) (baseList g) := by
  have hitem : Gives (Node.Is .baseType)
      (build .baseType (one g.type ++ whenAt (sees "(") (one (argumentList g)))) :=
    (hg.innerType.append (gives_argumentList hg).one.whenAt).build rfl
  have hrow : Shows (fun row => ∃ trailing, Mark.IsList .baseList trailing row) (mark ":" ++
      commaList (one (build .baseType (one g.type ++ whenAt (sees "(") (one (argumentList g)))))) := by
    refine (shows_mark (by decide)).append (shows_commaList hitem) fun xs ys hxs hys => ?_
    exact ⟨[], [.word ":"], ys, [], by simp [hxs], by simp [Mark.kind?], .inr ⟨_, rfl, hys⟩,
      fun hnil => absurd hnil hys.ne_nil, .inl rfl, by simp⟩
  refine Gives.build (((yields_mark _).append hitem.one.commaList).and hrow) fun parts hparts => ?_
  exact ⟨Kind.forms_of_items rfl (hparts.1.mono fun _ => .inl) hparts.2,
    hparts.1.mono fun _ => And.left⟩

omit hg in
theorem gives_constraints : Gives (Node.Is .constraintClauses) constraints :=
  (Yields.ifAt (yields_group.orElse yields_token) yields_token).repeatWhile.build rfl

theorem gives_arrowClause : Gives (Node.Is .arrowExpressionClause) (arrowClause g) :=
  ((yields_mark _).append hg.innerExpression).build rfl

theorem yields_arrowClause : Yields Node.Inner (one (arrowClause g)) :=
  ((gives_arrowClause hg).mono fun _ h => h.inner rfl).one

theorem gives_declaratorAfter {head : List Element} (hhead : Element.Each Node.Inner head) :
    Gives Node.Inner (declaratorAfter g head) :=
  (((yields_given hhead).append (gives_bracketedArguments hg).one.whenAt).append
    (gives_equalsValue hg).one.whenAt).inner rfl rfl

theorem gives_declarator : Gives Node.Inner (declarator g) :=
  yields_name.bind fun _ hhead => gives_declaratorAfter hg hhead

theorem gives_variableDeclaration : Gives Node.Inner (variableDeclaration g) :=
  (((gives_typeOf hg).mono fun _ h => h.1.inner).one.append
    (gives_declarator hg).one.commaList).inner rfl rfl

/-! ## Members -/

/-- A child of a method that stands after its header. -/
def Trails (n : Node) : Prop :=
  n.Inner ∧ n.kind ≠ .modifiers ∧ n.kind.isValue = false

omit hg in
theorem trails_of_is {kind : Kind} {n : Node} (h : n.Is kind) (hinner : kind.isInner = true)
    (hmodifiers : kind ≠ .modifiers) (hvalue : kind.isValue = false) : Trails n :=
  ⟨h.inner hinner, h.2 ▸ hmodifiers, h.2 ▸ hvalue⟩

theorem yields_memberBody {P : Node → Prop} (hblock : ∀ n : Node, n.Is .block → P n)
    (harrow : ∀ n : Node, n.Is .arrowExpressionClause → P n) : Yields P (memberBody g) :=
  ((gives_block hg).mono hblock).one.ifAt
    ((((gives_arrowClause hg).mono harrow).one.append (yields_mark _)).ifAt (yields_mark _))

omit hg in
theorem yields_explicitInterface : Yields Trails explicitInterface :=
  (((yields_token.append yields_token).repeatWhile.build rfl).mono fun _ h =>
    trails_of_is h rfl (by decide) rfl).one.whenAt

/-- The attributes and modifiers of a declaration, the latter last. -/
def Heads (head : List Element) : Prop :=
  (∀ e ∈ head, ∃ n, e = .node n) ∧ ∃ lists mods, head = lists ++ [.node mods] ∧
    Element.Each (Node.Is .attributeList) lists ∧ mods.TypePart ∧ mods.IsModifiers

/-- The parts of a method: attributes, modifiers, the return type, and what stands after it. -/
def MethodParts (parts : List Element) : Prop :=
  ∃ lists mods type rest, parts = lists ++ .node mods :: .node type :: rest ∧
    Element.Each (Node.Is .attributeList) lists ∧ (mods.TypePart ∧ mods.IsModifiers) ∧
    (type.TypeName ∧ type.Led ∧ Spelled .type type.tokens) ∧ Element.Each Trails rest

omit hg in
theorem Heads.inner {head : List Element} (h : Heads head) : Element.Each Node.Inner head := by
  obtain ⟨-, lists, mods, rfl, hlists, hmods, -⟩ := h
  exact (hlists.mono fun _ h => h.inner rfl).append (Element.each_single hmods.inner)

omit hg in
theorem Heads.guarded {head : List Element} (h : Heads head) : Element.Each Guarded head := by
  obtain ⟨-, lists, mods, rfl, hlists, hmods, hmodifiers⟩ := h
  exact (hlists.mono fun _ h => guarded_of_is h rfl (by decide)).append
    (Element.each_single (guarded_of_is ⟨hmods.1, hmodifiers.kind_eq⟩ rfl (by decide)))

omit hg in
theorem MethodParts.append {parts more : List Element} (h : MethodParts parts)
    (hmore : Element.Each Trails more) : MethodParts (parts ++ more) := by
  obtain ⟨lists, mods, type, rest, rfl, hlists, hmods, htype, hrest⟩ := h
  exact ⟨lists, mods, type, rest ++ more, by simp, hlists, hmods, htype, hrest.append hmore⟩

omit hg in
theorem MethodParts.inner {parts : List Element} (h : MethodParts parts) :
    Element.Each Node.Inner parts := by
  obtain ⟨lists, mods, type, rest, rfl, hlists, hmods, htype, hrest⟩ := h
  refine (hlists.mono fun _ h => h.inner rfl).append fun n hn => ?_
  rcases List.mem_cons.1 hn with hn | hn
  · obtain rfl := Element.node.inj hn
    exact hmods.1.inner
  · rcases List.mem_cons.1 hn with hn | hn
    · obtain rfl := Element.node.inj hn
      exact htype.1.1.inner
    · exact (hrest n hn).1

omit hg in
theorem MethodParts.typedIn {parts : List Element} (h : MethodParts parts) :
    Element.TypedIn parts := by
  obtain ⟨lists, mods, type, rest, rfl, hlists, hmods, htype, hrest⟩ := h
  refine ⟨lists, mods, type, rest, rfl, hmods.2, ⟨htype.1.2, htype.2.1⟩, htype.2.2, ?_⟩
  refine (hlists.mono fun n hn => ?_).append (hrest.mono fun n hn => ?_)
  · rw [hn.2]
    rfl
  · obtain ⟨-, hmodifiers, hvalue⟩ := hn
    simp [Kind.bars, hmodifiers, hvalue]

omit hg in
theorem MethodParts.forms {parts : List Element} (h : MethodParts parts) :
    Kind.Forms .methodDeclaration parts := by
  have hinner := h.inner
  have htyped := h.typedIn
  obtain ⟨lists, mods, type, rest, rfl, hlists, hmods, ⟨htype, -⟩, hrest⟩ := h
  refine ⟨⟨fun n hn hbars => ?_, fun _ => ?_, fun n hn hscope => ?_⟩, fun _ => htyped,
    (nomatch ·), .of_plain rfl rfl fun n hn => (hinner n hn).loose.2⟩
  · -- The modifiers and the return type are the only children that are barred.
    rcases List.mem_append.1 hn with hn | hn
    · rw [(hlists n hn).2] at hbars
      cases hbars
    · rcases List.mem_cons.1 hn with hn | hn
      · obtain rfl := Element.node.inj hn
        exact hmods.1.2
      · rcases List.mem_cons.1 hn with hn | hn
        · obtain rfl := Element.node.inj hn
          exact htype.1.2
        · obtain ⟨-, hmodifiers, hvalue⟩ := hrest n hn
          simp [Kind.bars, hmodifiers, hvalue] at hbars
  · refine Element.headedIn_append (hlists.mono fun n hn => by simp [hn.2]) ⟨fun _ => ?_, ?_⟩
    · exact ⟨type, rfl, htype.value.2⟩
    · refine Element.headedIn_of_each fun n hn => ?_
      rcases List.mem_cons.1 hn with hn | hn
      · obtain rfl := Element.node.inj hn
        intro hkind
        have hvalue := htype.2
        rw [hkind] at hvalue
        cases hvalue
      · exact (hrest n hn).2.1
  · rw [(hinner n hn).isScope] at hscope
    cases hscope

theorem gives_methodDeclaration {head : List Element} (hhead : MethodParts head) :
    Gives (Node.Is .methodDeclaration) (methodDeclaration g head) := by
  have hmore : ∀ {p q : Piece}, Gives MethodParts p → Yields Trails q → Gives MethodParts (p ++ q) :=
    fun hp hq => Gives.bind hp fun _ hxs => Gives.bind hq fun _ hys => gives_pure (hxs.append hys)
  have htypes := ((gives_typeParameters hg).mono fun _ h => trails_of_is h rfl (by decide) rfl).one
  have hparameters := ((gives_parameterList hg).mono fun _ h =>
    trails_of_is h.1 rfl (by decide) rfl).one
  have hbody := yields_memberBody hg (fun _ h => trails_of_is h rfl (by decide) rfl)
    (fun _ h => trails_of_is h rfl (by decide) rfl)
  have hconstraints := (gives_constraints.mono fun _ h => trails_of_is h rfl (by decide) rfl).one
  exact Gives.build (hmore (hmore (hmore (hmore (gives_pure hhead) htypes.whenAt) hparameters)
    hconstraints.whenAt) hbody) fun parts hparts =>
      ⟨hparts.forms, hparts.inner.mono fun _ => And.left⟩

omit hg in
/-- What introduces a type is told from the first word. -/
theorem of_typeDeclarationKind? {c : Cursor} {kind : Kind} (h : typeDeclarationKind? c = some kind) :
    kind.isTypeDeclaration = true ∧ ∃ word, kind.introducer? = some word ∧ c.sees word = true := by
  unfold typeDeclarationKind? at h
  split at h
  · exact Option.some.inj h ▸ ⟨rfl, _, rfl, ‹_›⟩
  · split at h
    · exact Option.some.inj h ▸ ⟨rfl, _, rfl, ‹_›⟩
    · split at h
      · exact Option.some.inj h ▸ ⟨rfl, _, rfl, ‹_›⟩
      · split at h
        · rename_i hrecord
          exact Option.some.inj h ▸ ⟨rfl, _, rfl, (Bool.and_eq_true_iff.1 hrecord).1⟩
        · cases h

section Guarded

variable {head : List Element} (hhead : Element.Each Guarded head)

include hhead

theorem givesAt_typeDeclaration {kind : Kind} {c : Cursor} (hkind : typeDeclarationKind? c = some kind)
    (hnodes : ∀ e ∈ head, ∃ n, e = .node n) :
    GivesAt c Node.Member (typeDeclaration g kind head) := by
  obtain ⟨hkind, word, hword, hsees⟩ := of_typeDeclarationKind? hkind
  have htypes := ((gives_typeParameters hg).mono fun _ h => guarded_of_is h rfl (by decide)).one
  have hbases := ((gives_baseList hg).mono fun _ h => guarded_of_is h rfl (by decide)).one
  have hconstraints := (gives_constraints.mono fun _ h => guarded_of_is h rfl (by decide)).one
  have hmembers := (hg.member.mono fun _ => guarded_of_member).one
  have hbody : Yields Guarded (typeBody g) :=
    yields_token.ifAt ((((yields_mark _).append hmembers.repeatWhile).append (yields_mark _)).append
      yields_token.whenAt)
  -- The words of the declaration follow its head: `record` may have a second one.
  have hintroduced : GivesAt c (fun parts => ∃ words, parts = head ++ words.map .token ∧
      kind.Introduces words) (given head ++ token ++ whenAt (fun c => kind == .recordDeclaration &&
        c.seesAny ["class", "struct"]) token) := by
    intro parts e hok
    obtain ⟨_, d, second, hstart, hsecond, rfl⟩ := append_eq_ok hok
    obtain ⟨_, _, first, hgiven, hfirst, rfl⟩ := append_eq_ok hstart
    obtain ⟨rfl, rfl⟩ := Prod.mk.inj (Except.ok.inj hgiven)
    obtain rfl := token_reads_current hfirst
    simp only [whenAt, ifAt] at hsecond
    split at hsecond
    · rename_i hrecord
      simp only [seesAny, List.any_cons, List.any_nil, Bool.or_false, Bool.and_eq_true, beq_iff_eq,
        Bool.or_eq_true] at hrecord
      obtain rfl := token_reads_current hsecond
      exact ⟨[c.current, d.current], by simp, c.current, [d.current], rfl, ⟨word, hword, hsees⟩,
        .inr ⟨hrecord.1, d.current, rfl, hrecord.2⟩⟩
    · obtain ⟨rfl, -⟩ := Prod.mk.inj (Except.ok.inj hsecond)
      exact ⟨[c.current], by simp, c.current, [], rfl, ⟨word, hword, hsees⟩, .inl rfl⟩
  intro n d h
  have hn := givesAt_constructible (((((((((yields_given hhead).append yields_token).append
    yields_token.whenAt).append yields_name).append htypes.whenAt).append
    (yields_parameterList hg).whenAt).append hbases.whenAt).append hconstraints.whenAt).append
    hbody) (by simp [Kind.isConstructible, hkind])
    (fun _ => (hintroduced.named hnodes).named_append.named_append.named_append.named_append.named_append)
    n d h
  refine ⟨hn.1, ?_⟩
  rw [hn.2]
  cases kind <;> first | rfl | cases hkind

theorem gives_constructorDeclaration : Gives Node.Member (constructorDeclaration g head) := by
  have hinitializer : Gives (Node.Is .constructorInitializer) (constructorInitializer g) :=
    (((yields_token.append (yields_check _ _)).append yields_token).append
      (gives_argumentList hg).one).build rfl
  have hinitializer := (hinitializer.mono fun _ h => guarded_of_is h rfl (by decide)).one
  have hbody := yields_memberBody hg (fun _ h => guarded_of_is h rfl (by decide))
    (fun _ h => guarded_of_is h rfl (by decide))
  have his : Gives (Node.Is .constructorDeclaration) (constructorDeclaration g head) := fun _ =>
    givesAt_constructible ((((((yields_given hhead).append yields_token.whenAt).append
      yields_name).append (yields_parameterList hg)).append hinitializer.whenAt).append hbody) rfl
      nofun
  exact his.mono fun _ hn => ⟨hn.1, hn.2 ▸ rfl⟩

end Guarded

section Heads

variable {head : List Element} (hhead : Element.Each Node.Inner head)

include hhead

theorem gives_enumDeclaration (hnodes : ∀ e ∈ head, ∃ n, e = .node n) :
    Gives Node.Member (enumDeclaration g head) := by
  have hbases := ((gives_baseList hg).mono fun _ h => h.inner rfl).one
  have hintroduced : ∀ c, GivesAt c (fun parts => ∃ words, parts = head ++ words.map .token ∧
      Kind.enumDeclaration.Introduces words) (given head ++ mark "enum") := by
    intro c parts d hok
    obtain ⟨_, _, first, hgiven, hfirst, rfl⟩ := append_eq_ok hok
    obtain ⟨rfl, rfl⟩ := Prod.mk.inj (Except.ok.inj hgiven)
    obtain ⟨t, rfl, hword⟩ := gives_mark "enum" _ first d hfirst
    exact ⟨[t], by simp, t, [], rfl, ⟨"enum", rfl, hword⟩, .inl rfl⟩
  intro c n d hok
  obtain ⟨parts, hread, rfl⟩ := build_eq_ok hok
  have hparts : Element.Each Node.Inner parts :=
    ((((((yields_given hhead).append (yields_mark _)).append yields_name).append
      hbases.whenAt).append (yields_check _ _)).append gives_rawGroup.one).append
      yields_token.whenAt c parts d hread
  have hnamed := (((hintroduced c).named hnodes).named_append.named_append.named_append.named_append)
    parts d hread
  have hmethod : Kind.enumDeclaration ≠ .methodDeclaration := by decide
  exact ⟨.intro (Kind.forms_of_inner (fun _ => rfl) hmethod (fun _ => hnamed) hparts
    (.of_plain rfl rfl fun m hm => (hparts m hm).loose.2)) (hparts.mono fun _ => And.left), rfl⟩

theorem gives_propertyDeclaration : Gives Node.Member (propertyDeclaration g head) := by
  have haccessors : Gives Node.Inner (build .accessorList group) := yields_group.inner rfl rfl
  exact (((yields_given hhead).append (((yields_arrowClause hg).append (yields_mark _)).ifAt
    (haccessors.one.append ((gives_equalsValue hg).one.append (yields_mark _)).whenAt))).build
      rfl).mono fun _ hn => ⟨hn.1, hn.2 ▸ rfl⟩

theorem gives_fieldDeclaration {type : Node} (htype : type.Inner) {first : List Element}
    (hfirst : Element.Each Node.Inner first) :
    Gives Node.Member (fieldDeclaration g head type first) := by
  have hdeclaration : Gives Node.Inner (build .variableDeclaration (given [.node type]
      ++ one (declaratorAfter g first) ++ repeatWhile (sees ",") (token ++ one (declarator g)))) :=
    (((yields_given (Element.each_single htype)).append (gives_declaratorAfter hg hfirst).one).append
      (yields_token.append (gives_declarator hg).one).repeatWhile).inner rfl rfl
  exact ((((yields_given hhead).append hdeclaration.one).append (yields_mark _)).build rfl).mono
    fun _ hn => ⟨hn.1, hn.2 ▸ rfl⟩

end Heads

theorem gives_typedMember {head : List Element} (hhead : Heads head) :
    Gives Node.Member (typedMember g head) := by
  have htype : Gives (fun type => type.TypeName ∧ type.Led ∧ Spelled .type type.tokens) (typeOf g) :=
    fun c n d h =>
      ⟨gives_typeOf hg c n d h, gives_led_typeOf c n d h, spellsNode_typeOf hg.spelling c n d h⟩
  refine htype.bind fun type htype => ?_
  refine yields_explicitInterface.bind fun qualifier hqualifier => gives_get fun c => ?_
  split
  · exact gives_fail _ _
  · refine (yields_name (P := Trails)).bind fun own hown => gives_get fun c => ?_
    have hwhole : MethodParts (head ++ [.node type] ++ qualifier ++ own) := by
      obtain ⟨-, lists, mods, rfl, hlists, hmods⟩ := hhead
      refine MethodParts.append (MethodParts.append ?_ hqualifier) hown
      exact ⟨lists, mods, type, [], by simp, hlists, hmods, htype, Element.each_nil⟩
    split
    · exact (gives_methodDeclaration hg hwhole).mono fun _ hn => ⟨hn.1, hn.2 ▸ rfl⟩
    · split
      · exact gives_propertyDeclaration hg hwhole.inner
      · split
        · exact gives_fail _ _
        · exact gives_fieldDeclaration hg hhead.inner htype.1.1.inner (hown.mono fun _ => And.left)

theorem gives_knownMember : Gives Node.Member (knownMember g) := by
  have hmodifiers : Gives (fun mods => mods.TypePart ∧ mods.IsModifiers)
      (modifiers memberModifiers contextualModifiers) := fun c n d h =>
    ⟨(gives_modifiers yields_token.repeatWhile c n d h).1, gives_isModifiers _ _ c n d h⟩
  have hlists : Gives (fun lists => Element.Each (Node.Is .attributeList) lists ∧
      ∀ e ∈ lists, ∃ n, e = .node n) (attributeLists g) :=
    (yields_attributeLists hg).and gives_nodes
  -- All members start with attribute lists and modifiers.
  have hhead : Gives Heads
      (attributeLists g ++ one (modifiers memberModifiers contextualModifiers)) :=
    hlists.bind fun lists hlists =>
      Gives.bind (A := fun parts => ∃ mods, parts = [.node mods] ∧ mods.TypePart ∧
        mods.IsModifiers) (hmodifiers.bind fun mods hmods =>
          gives_pure ⟨mods, rfl, hmods⟩) fun parts hparts => by
        obtain ⟨mods, rfl, hmods⟩ := hparts
        refine gives_pure ⟨fun e he => ?_, lists, mods, rfl, hlists.1, hmods⟩
        rcases List.mem_append.1 he with he | he
        · exact hlists.2 e he
        · exact ⟨mods, List.mem_singleton.1 he⟩
  refine hhead.bind fun head hhead => gives_getAt fun c => ?_
  split
  · rename_i kind hkind
    exact givesAt_typeDeclaration hg hhead.guarded hkind hhead.1
  · split
    · exact gives_enumDeclaration hg hhead.inner hhead.1 c
    · split
      · exact gives_fail _ _ c
      · split
        · exact gives_constructorDeclaration hg hhead.guarded c
        · exact gives_typedMember hg hhead c

omit hg in
theorem gives_rawRun {kind : Kind} (hkind : kind.isOrdinary = true) :
    Gives (Node.Is kind) (rawRun kind) := by
  refine Yields.build (fun c parts d h => ?_) hkind
  split at h
  · cases h
  · exact yields_rawRounds _ _ c parts d h

theorem gives_memberOf : Gives Node.Member (memberOf g) :=
  (gives_knownMember hg).recover ((gives_rawRun rfl).mono fun _ hn => ⟨hn.1, hn.2 ▸ rfl⟩)

/-! ## Statements -/

omit hg in
/-- An ordinary statement over parts of a declaration. -/
theorem gives_statement {kind : Kind} {p : Piece} (h : Yields Node.Inner p)
    (hkind : kind.isOrdinary = true) (hstatement : kind.isStatement = true) :
    Gives Node.Statement (build kind p) :=
  (h.build hkind).mono fun _ hn => ⟨hn.1, .inl (hn.2 ▸ hstatement)⟩

theorem yields_condition : Yields Node.Inner (condition g) :=
  ((yields_mark _).append hg.innerExpression).append (yields_mark _)

omit hg in
theorem yields_rawParentheses : Yields Node.Inner rawParentheses :=
  (yields_check _ _).append gives_rawGroup.one

theorem gives_ifStatement : Gives Node.Statement (ifStatement g) := by
  have hotherwise : Gives Node.Inner (build .elseClause (token ++ one g.statement)) :=
    (yields_token.append hg.innerStatement).inner rfl rfl
  exact gives_statement ((((yields_mark _).append (yields_condition hg)).append
    hg.innerStatement).append hotherwise.one.whenAt) rfl rfl

theorem gives_doStatement : Gives Node.Statement (doStatement g) :=
  gives_statement ((((yields_token.append hg.innerStatement).append (yields_mark _)).append
    (yields_condition hg)).append (yields_mark _)) rfl rfl

theorem gives_forEachStatement (lead : Nat) : Gives Node.Statement (forEachStatement g lead) := by
  have hheader := (((((yields_mark "(").append hg.innerType).append yields_name).append
    (yields_mark "in")).append hg.innerExpression).append (yields_mark ")")
  exact gives_statement ((((yields_take _).append (yields_mark _)).append
    (hheader.orElse yields_rawParentheses)).append hg.innerStatement) rfl rfl

theorem gives_tryStatement : Gives Node.Statement (tryStatement g) := by
  have hdeclaration : Gives Node.Inner (build .catchDeclaration
      (token ++ one g.type ++ whenAt atName token ++ mark ")")) :=
    (((yields_token.append hg.innerType).append yields_token.whenAt).append (yields_mark _)).inner
      rfl rfl
  have hfilter : Gives Node.Inner (build .catchFilter (token ++ condition g)) :=
    (yields_token.append (yields_condition hg)).inner rfl rfl
  have hcatch : Gives Node.Inner (catchClause g) :=
    (((yields_token.append hdeclaration.one.whenAt).append hfilter.one.whenAt).append
      (yields_block hg)).inner rfl rfl
  have hfinally : Gives Node.Inner (build .finallyClause (token ++ one (block g))) :=
    (yields_token.append (yields_block hg)).inner rfl rfl
  exact gives_statement ((((yields_mark _).append (yields_block hg)).append
    hcatch.one.repeatWhile).append hfinally.one.whenAt) rfl rfl

theorem gives_switchStatement : Gives Node.Statement (switchStatement g) := by
  have hlabel : Gives Node.Inner switchLabel :=
    ((yields_token.append (Yields.ifAt (gives_fail _ _) (yields_group.ifAt
      yields_token)).repeatWhile).append yields_token).inner rfl rfl
  have hsection : Gives Node.Inner (switchSection g) :=
    (((yields_check _ _).append hlabel.one.repeatWhile).append hg.innerStatement.repeatWhile).inner
      rfl rfl
  exact gives_statement (((((yields_mark _).append (yields_condition hg)).append
    (yields_mark _)).append hsection.one.repeatWhile).append (yields_mark _)) rfl rfl

theorem gives_exitStatement {kind : Kind} (hkind : kind.isOrdinary = true)
    (hstatement : kind.isStatement = true) : Gives Node.Statement (exitStatement g kind) :=
  gives_statement ((yields_token.append hg.innerExpression.whenAt).append (yields_mark _)) hkind
    hstatement

theorem gives_localDeclaration (lead : Nat) : Gives Node.Statement (localDeclaration g lead) :=
  gives_statement (((yields_take _).append (gives_variableDeclaration hg).one).append
    (yields_mark _)) rfl rfl

theorem gives_usingStatement (lead : Nat) : Gives Node.Statement (usingStatement g lead) := by
  have hresource : Yields Node.Inner
      (ifAt (atLocalDeclaration g) (one (variableDeclaration g)) (one g.expression)) :=
    (gives_variableDeclaration hg).one.ifAt hg.innerExpression
  exact Gives.ifAt (gives_statement ((((yields_take _).append hresource).append
    (yields_mark _)).append hg.innerStatement) rfl rfl) (gives_localDeclaration hg _)

theorem gives_plainStatement : Gives Node.Statement (plainStatement g) := by
  have hexpression := ((gives_expressionOf hg).mono fun _ => Node.Value.inner).one
  refine gives_ite ((gives_memberOf hg).mono fun _ => Node.Member.statement) ?_
  exact gives_ite (gives_localDeclaration hg 0)
    (gives_statement (hexpression.append (yields_mark _)) rfl rfl)

theorem gives_knownStatement : Gives Node.Statement (knownStatement g) := by
  have hblock : Gives Node.Statement (block g) :=
    (gives_block hg).mono fun _ hn => ⟨hn.1, .inl (hn.2 ▸ rfl)⟩
  refine gives_ite hblock ?_
  refine gives_ite (gives_statement yields_token rfl rfl) ?_
  refine gives_ite (gives_ifStatement hg) ?_
  refine gives_ite (gives_statement ((yields_token.append (yields_condition hg)).append
    hg.innerStatement) rfl rfl) ?_
  refine gives_ite (gives_doStatement hg) ?_
  refine gives_ite (gives_statement ((yields_token.append yields_rawParentheses).append
    hg.innerStatement) rfl rfl) ?_
  refine gives_ite (gives_forEachStatement hg 0) ?_
  refine gives_ite (gives_tryStatement hg) ?_
  refine gives_ite (gives_switchStatement hg) ?_
  refine gives_ite (gives_exitStatement hg rfl rfl) ?_
  refine gives_ite (gives_exitStatement hg rfl rfl) ?_
  refine gives_ite (gives_statement (yields_token.repeatWhile.append (yields_mark _)) rfl rfl) ?_
  refine gives_ite (gives_statement ((yields_token.append ((yields_token.append
    hg.innerExpression).ifAt yields_token)).append (yields_mark _)) rfl rfl) ?_
  refine gives_ite (gives_statement ((yields_token.append yields_rawParentheses).append
    hg.innerStatement) rfl rfl) ?_
  refine gives_ite (gives_usingStatement hg 0) ?_
  refine gives_ite (gives_usingStatement hg 1) ?_
  refine gives_ite (gives_forEachStatement hg 1) ?_
  refine gives_ite (gives_statement (yields_token.append (yields_block hg)) rfl rfl) ?_
  exact gives_ite (gives_localDeclaration hg 1) (gives_plainStatement hg)

theorem gives_statementOf : Gives Node.Statement (statementOf g) :=
  (gives_knownStatement hg).recover ((gives_rawRun rfl).mono fun _ hn => ⟨hn.1, .inl (hn.2 ▸ rfl)⟩)

/-! ## Files and namespaces -/

theorem gives_usingDirective : Gives Node.Loose (usingDirective g) := by
  have htype := ((gives_typeOf hg).mono fun _ => And.left).one
  refine (Gives.build (((((yields_token.whenAt.append (yields_mark _)).append
    yields_token.whenAt).append (yields_token.append yields_token).whenAt).append htype).append
    (yields_mark _)) fun parts hparts => ?_).mono fun _ h => ⟨h.1, h.2 ▸ rfl⟩
  exact ⟨⟨⟨fun c hc _ => (hparts c hc).2, (nomatch ·), fun _ _ _ => rfl⟩, (nomatch ·), (nomatch ·),
    .of_plain rfl rfl fun c hc => (hparts c hc).inner.loose.2⟩, hparts.mono fun _ => And.left⟩

omit hg in
/-- A file or a namespace over anything that may stand in one. -/
theorem gives_scope {kind : Kind} {p : Piece} (h : Yields Node.Loose p)
    (hkind : kind.isOrdinary = true) (hscope : kind.isScope = true) :
    Gives Node.Loose (build kind p) := by
  refine (Gives.build h fun parts hparts => ⟨⟨⟨fun c _ hbars => ?_, ?_, fun _ _ _ => hscope⟩, ?_,
    fun hnamed => ?_, ?_⟩, hparts.mono fun _ => And.left⟩).mono fun n hn => ⟨hn.1, ?_⟩
  · rw [Kind.bars_of_isOrdinary hkind] at hbars
    cases hbars
  · rintro rfl
    cases hkind
  · rintro rfl
    cases hkind
  · rw [Kind.introducer?_of_isOrdinary hkind] at hnamed
    cases hnamed
  · exact .of_plain (Kind.item?_of_isOrdinary hkind) (Kind.isConstructible_of_isOrdinary hkind)
      fun c hc => (hparts c hc).2
  · rw [hn.2]
    cases kind <;> first | rfl | cases hscope

theorem gives_namespaceDeclaration : Gives Node.Loose (namespaceDeclaration g) := by
  have hname := ((gives_typeName hg).mono fun _ h => h.1.inner.loose).one
  refine ((yields_mark _).append hname).bind fun head hhead => gives_get fun c => ?_
  split
  · exact gives_scope (((yields_given hhead).append yields_token).append
      hg.scopeMember.one.repeatWhile) rfl rfl
  · exact gives_scope (((((yields_given hhead).append (yields_mark _)).append
      hg.scopeMember.one.repeatWhile).append (yields_mark _)).append yields_token.whenAt) rfl rfl

theorem gives_scopeMemberOf : Gives Node.Loose (scopeMemberOf g) := by
  refine gives_ite (gives_usingDirective hg) ?_
  refine gives_ite (gives_namespaceDeclaration hg) ?_
  exact gives_ite ((gives_attributeList hg).mono fun _ h => (h.inner rfl).loose)
    ((gives_memberOf hg).mono fun _ h => h.statement.inner.loose)

theorem gives_compilationUnit : Gives Node.Formed (compilationUnit g) :=
  (gives_scope (hg.scopeMember.one.repeatWhile.append yields_token) rfl rfl).mono fun _ => And.left

/-! ## All nestings -/

theorem Places.deepen : (deepen g).Places where
  type := gives_typeOf hg
  spelling := spellsNode_typeOf hg.spelling
  expression := gives_expressionOf hg
  operand := gives_unary hg
  binary := gives_binaryOf hg
  initializer := gives_initializerOf hg
  statement := gives_statementOf hg
  member := gives_memberOf hg
  scopeMember := gives_scopeMemberOf hg

omit hg in
theorem places_nothing : nothing.Places where
  type := gives_fail _ _
  spelling := gives_fail _ _
  expression := gives_fail _ _
  operand := gives_fail _ _
  binary _ := gives_fail _ _
  initializer := gives_fail _ _
  statement := gives_fail _ _
  member := gives_fail _ _
  scopeMember := gives_fail _ _

omit hg in
theorem places_nesting (n : Nat) : (nesting n).Places := by
  induction n with
  | zero => exact places_nothing
  | succ n ih => exact ih.deepen

end Recast.Grammar

/-! ## Files and fragments -/

namespace Recast

theorem Node.formed_of_parse {source : String} {n : Node} (h : parse source = .ok n) : n.Formed := by
  obtain ⟨⟨m, d⟩, hread, h⟩ := ok_of_bind h
  obtain rfl := Except.ok.inj h
  obtain ⟨ts, -, hunit⟩ := Grammar.readWith_eq_ok hread
  exact Grammar.gives_compilationUnit (Grammar.places_nesting _) _ _ _ hunit

theorem Node.housed_of_parse {source : String} {n : Node} (h : parse source = .ok n) : n.Housed :=
  (formed_of_parse h).housed

theorem Tree.formed_of_parse {source : String} {reading : Nat} {t : Tree}
    (h : Tree.parse source reading = .ok t) : t.root.Formed := by
  obtain ⟨root, hroot, heq⟩ := ok_of_bind h
  obtain rfl := Except.ok.inj heq
  exact Node.formed_of_parse hroot

namespace Fragment

variable {source : String} {n : Node}

theorem of_readAll {α : Type} {A : α → Prop} {p : Grammar → Parser α} {a : α}
    (hp : ∀ {g : Grammar}, g.Places → Parser.Gives A (p g)) (h : Grammar.readAll p source = .ok a) :
    A a := by
  obtain ⟨ts, d, -, -, hread⟩ := Grammar.readAll_eq_ok h
  exact hp (Grammar.places_nesting _) _ _ _ hread

theorem value_of_readExpression (h : readExpression source = .ok n) : n.Value :=
  of_readAll (fun hg => hg.expression) h

theorem typeName_of_readType (h : readType source = .ok n) : n.TypeName :=
  of_readAll (fun hg => hg.type) h

theorem is_of_readAttributeList (h : readAttributeList source = .ok n) : n.Is .attributeList :=
  of_readAll Grammar.gives_attributeList h

theorem statement_of_readStatements {statements : List Node}
    (h : readStatements source = .ok statements) : ∀ n ∈ statements, n.Statement := by
  obtain ⟨parts, hparts, h⟩ := ok_of_bind h
  obtain rfl := Except.ok.inj h
  have heach : Element.Each Node.Statement parts :=
    of_readAll (fun hg => hg.statement.one.repeatWhile) hparts
  intro n hn
  obtain ⟨e, he, hnode⟩ := List.mem_filterMap.1 hn
  cases e with
  | token u => cases hnode
  | node m =>
    obtain rfl := Option.some.inj hnode
    exact heach m he

end Fragment

end Recast
