-- SUMMARY: No production of the grammar is led astray by formatting.
import Recast.Grammar.Fragment
import Recast.Proofs.Grammar.Formatting

/-! # Steady productions

Each production agrees with itself on the same writing, given that the grammar of what nests in it
does. The proofs follow the productions part by part. -/

namespace Recast.Grammar

open Recast.Parser Recast.Cursor

/-- A grammar whose entry points are not led astray by formatting. -/
structure Uniform (g : Grammar) : Prop where
  type : Steady g.type
  expression : Steady g.expression
  operand : Steady g.operand
  binary : ∀ least, Steady (g.binary least)
  initializer : Steady g.initializer
  statement : Steady g.statement
  member : Steady g.member
  scopeMember : Steady g.scopeMember

section Productions

variable {g : Grammar} (hg : g.Uniform)

/-! ## Names and types -/

@[simp] theorem uniform_isPredefinedType (n : Nat) :
    Cursor.Uniform fun c => isPredefinedType (c.nth n) := fun c d h => by
  simp only [isPredefinedType, (h.nth n).kind_eq, (h.nth n).text_eq]

@[simp] theorem uniform_atRank : Cursor.Uniform atRank := by
  unfold atRank
  simp

/-- A choice between an extension and others. -/
theorem sameExtension_ite {test : Cursor → Bool} (htest : Cursor.Uniform test) {kind : Kind}
    {p : Piece} (hp : AgreeParts p p) {next : Extension} (hnext : SteadyExtension next) :
    SteadyExtension fun c => if test c then some (kind, p) else next c := by
  intro c d hlike
  dsimp only
  rw [htest c d hlike]
  split
  · exact .some hp
  · exact hnext c d hlike

theorem steadyExtension_none : SteadyExtension fun _ => none :=
  fun _ _ _ => .none

theorem steady_rank : Steady rank :=
  ((agree_token.append (agree_token.repeatWhile (uniform_sees _))).append (agree_mark _)).build

theorem steady_typeSuffix : SteadyExtension typeSuffix :=
  sameExtension_ite (uniform_sees _) agree_token <|
    sameExtension_ite uniform_atRank (steady_rank.one.repeatWhile uniform_atRank)
      steadyExtension_none

include hg

theorem steady_typeArguments : Steady (typeArguments g) :=
  (((agree_mark _).append (hg.type.one.whenAt (by simp)).commaList).append (agree_mark _)).build

theorem steady_simpleTypeName : Steady (simpleTypeName g) :=
  (agree_name.append (steady_typeArguments hg).one).build.ifAt agree_name.build (uniform_seesAt _ _)

theorem steady_typeName : Steady (typeName g) := by
  have hsimple := steady_simpleTypeName hg
  refine SteadyExtension.grow ?_ (Agree.ifAt ?_ hsimple (uniform_atNameThen _))
  · exact sameExtension_ite (by simp) (agree_token.append hsimple.one) steadyExtension_none
  · exact ((agree_token.append agree_token).append hsimple.one).build

theorem steady_tupleType : Steady (tupleType g) := by
  have helement : Steady (build .tupleElement (one g.type ++ whenAt atName token)) :=
    (hg.type.one.append (agree_token.whenAt uniform_atName)).build
  exact (((agree_mark _).append helement.one.commaList).append (agree_mark _)).build

theorem steady_typeOf : Steady (typeOf g) := by
  refine steady_typeSuffix.grow ?_
  refine agree_ite (uniform_sees _) (steady_tupleType hg) ?_
  exact agree_ite (uniform_isPredefinedType 0) agree_token.build (steady_typeName hg)

theorem steady_simpleName : Steady (simpleName g) := by
  have hgeneric : Steady (build .genericName (name ++ one (typeArguments g))) :=
    (agree_name.append (steady_typeArguments hg).one).build
  exact (hgeneric.followedBy (by simp)).orElse agree_name.build

/-! ## Blocks, arguments, values -/

theorem steady_block : Steady (block g) :=
  (((agree_mark _).append (hg.statement.one.repeatWhile (by simp))).append (agree_mark _)).build

theorem steady_initializerOf : Steady (initializerOf g) :=
  (((agree_mark _).append (hg.initializer.one.ifAt hg.expression.one (uniform_sees _)).openList).append
    (agree_mark _)).build

theorem agree_value : AgreeParts (value g) (value g) :=
  (steady_initializerOf hg).one.ifAt hg.expression.one (uniform_sees _)

theorem steady_equalsValue : Steady (equalsValue g) :=
  ((agree_mark _).append (agree_value hg)).build

theorem steady_declarationArgument : Steady (declarationArgument g) :=
  ((hg.type.one.append agree_name).append (agree_check (uniform_seesAny _) _)).build

theorem steady_argument : Steady (argument g) := by
  have hplain := hg.expression.one
  have hdeclaration := (steady_declarationArgument hg).one.orElse hplain
  have hvalue := (agree_token.append hdeclaration).ifAt hplain (uniform_seesAny ["ref", "out", "in"])
  exact (((agree_token.append agree_token).whenAt (uniform_atNameThen _)).append hvalue).build

theorem steady_argumentList : Steady (argumentList g) :=
  (steady_argument hg).one.bracketed.build

theorem steady_bracketedArguments : Steady (bracketedArguments g) :=
  (steady_argument hg).one.bracketed.build

/-! ## Attributes and parameters -/

theorem steady_attributeArgument : Steady (attributeArgument g) :=
  (((agree_token.append agree_token).whenAt (by simp)).append hg.expression.one).build

theorem steady_attributeArguments : Steady (attributeArguments g) :=
  (steady_attributeArgument hg).one.bracketed.build

theorem steady_attributeOf : Steady (attributeOf g) :=
  ((steady_typeName hg).one.append
    ((steady_attributeArguments hg).one.whenAt (uniform_sees _))).build

theorem steady_attributeList : Steady (attributeList g) := by
  have hitem := (steady_attributeOf hg).one
  have htarget : Steady (build .attributeTargetSpecifier (token ++ token)) :=
    (agree_token.append agree_token).build
  have hmore : AgreeParts (token ++ openList "]" (one (attributeOf g))) _ :=
    agree_token.append hitem.openList
  have hmore := hmore.whenAt (uniform_sees ",")
  exact (((((agree_mark _).append (htarget.one.whenAt (by simp))).append hitem).append hmore).append
    (agree_mark _)).build

theorem agree_attributeLists : AgreeParts (attributeLists g) (attributeLists g) :=
  (steady_attributeList hg).one.repeatWhile (uniform_sees _)

omit hg in
@[simp] theorem uniform_atModifier (reserved contextual : List String) :
    Cursor.Uniform (atModifier reserved contextual) := fun c d h => by
  simp only [atModifier, h.current.kind_eq, h.current.text_eq, (h.nth 1).isWord_eq]

omit hg in
theorem steady_modifiers (reserved contextual : List String) :
    Steady (modifiers reserved contextual) :=
  (agree_token.repeatWhile (uniform_atModifier _ _)).build

theorem steady_parameter : Steady (parameter g) :=
  (((((agree_attributeLists hg).append (steady_modifiers _ _).one).append hg.type.one).append
    agree_name).append ((steady_equalsValue hg).one.whenAt (uniform_sees _))).build

theorem steady_parameterList : Steady (parameterList g) :=
  (steady_parameter hg).one.bracketed.build

/-! ## Lambdas -/

omit hg in
theorem uniform_lambdaHead? : Cursor.Uniform lambdaHead? := fun c d h => by
  have hsees := fun n => uniform_seesAt n "=>" c d h
  have hopens := fun n => uniform_seesAt n "(" c d h
  have harrow := fun n => arrowAfter_eq (h.ahead.drop n) 0
  have hkind := fun n => (h.nth n).kind_eq
  simp only [lambdaHead?, h.current.isName_eq, hsees, hopens, harrow, hkind]

theorem steady_lambdaParameters : Steady (lambdaParameters g) := by
  have hmodes : Steady (build .modifiers
      (repeatWhile (seesAny ["ref", "out", "in", "params"]) token)) :=
    (agree_token.repeatWhile (uniform_seesAny _)).build
  have huntyped : Cursor.Uniform fun c => !(c.atNameThen "," || c.atNameThen ")") :=
    uniform_not (uniform_or (uniform_atNameThen _) (uniform_atNameThen _))
  exact (((agree_mark _).append
    ((hmodes.one.append (hg.type.one.whenAt huntyped)).append agree_name).build.one.openList).append
    (agree_mark _)).build

theorem steady_lambda (head : LambdaHead) : Steady (lambda g head) := by
  have hbare : Steady (build .parameter (one (build .modifiers (given [])) ++ token)) :=
    ((agree_given rfl).build.one.append agree_token).build
  have hparameters : Steady (if head.isSimple then
      build .parameter (one (build .modifiers (given [])) ++ token) else lambdaParameters g) := by
    split
    · exact hbare
    · exact steady_lambdaParameters hg
  have hbody := (steady_block hg).one.ifAt hg.expression.one (uniform_sees Token.openBrace)
  exact ((((agree_take _).append hparameters.one).append (agree_mark _)).append hbody).build

/-! ## Primary expressions -/

theorem steady_keywordOperand (kind : Kind) : Steady (keywordOperand g kind) :=
  (((agree_token.append (agree_mark _)).append hg.type.one).append (agree_mark _)).build

theorem steady_parenthesized : Steady (parenthesized g) := by
  refine (agree_mark "(").bind fun opening opening' hopening => ?_
  refine (steady_argument hg).bind fun first first' hfirst => agree_get fun c d hlike => ?_
  have hmore := (agree_token.append (steady_argument hg).one).repeatWhile (uniform_sees ",")
  rw [uniform_sees "," c d hlike]
  split
  · have hgiven : AgreeParts (given (opening ++ [.node first])) (given (opening' ++ [.node first'])) :=
      agree_given (by simp [hopening, hfirst])
    exact ((hgiven.append hmore).append (agree_mark _)).build c d hlike
  · have hchildren := Node.shapesIn_children hfirst
    -- What is in parentheses is read as an argument; it has as many parts on either side.
    generalize first.children = xs at hchildren
    generalize first'.children = ys at hchildren
    rcases xs with _ | ⟨x, _ | ⟨x', xs⟩⟩ <;> rcases ys with _ | ⟨y, _ | ⟨y', ys⟩⟩ <;>
      simp only [Element.shapesIn_nil, Element.shapesIn_cons, List.cons.injEq, reduceCtorEq,
        and_false, and_true] at hchildren
    · exact .refused _ _
    · have hgiven : AgreeParts (given (opening ++ [x])) (given (opening' ++ [y])) :=
        agree_given (by simp [hopening, hchildren])
      exact (hgiven.append (agree_mark _)).build c d hlike
    · exact .refused _ _

theorem steady_collection : Steady (collection g) := by
  have hspread : Steady (build .prefixUnaryExpression (token ++ one g.expression)) :=
    (agree_token.append hg.expression.one).build
  exact (((agree_mark _).append
    (hspread.one.ifAt hg.expression.one (uniform_sees _)).openList).append (agree_mark _)).build

theorem steady_sizes : Steady (sizes g) :=
  ((agree_token.append (hg.expression.one.whenAt (by simp)).openList).append (agree_mark _)).build

theorem agree_arrayCreation {xs ys : List Element}
    (h : Element.shapesIn xs = Element.shapesIn ys) :
    AgreeNode (arrayCreation g xs) (arrayCreation g ys) :=
  (((agree_given h).append ((steady_sizes hg).one.repeatWhile (uniform_sees _))).append
    ((steady_initializerOf hg).one.whenAt (uniform_sees _))).build

omit hg in
theorem isArrayHead_eq {n m : Node} (h : n.shape = m.shape) {c d : Cursor} (hlike : c.Like d) :
    isArrayHead n c = isArrayHead m d := by
  rw [isArrayHead, isArrayHead, Node.kind_eq_of_shape h, uniform_sees "[" c d hlike]

theorem steady_tupleArrayType : Steady (tupleArrayType g) := by
  refine hg.type.bind fun n m h => agree_get fun c d hlike => ?_
  rw [isArrayHead_eq h hlike]
  split
  · exact .read h hlike
  · exact .refused _ _

theorem agree_creationTail : AgreeParts (creationTail g) (creationTail g) := by
  have hinitializer := (steady_initializerOf hg).one
  exact ((steady_argumentList hg).one.append (hinitializer.whenAt (uniform_sees _))).ifAt
    (hinitializer.ifAt (agree_fail _ _) (uniform_sees _)) (uniform_sees _)

theorem steady_creation : Steady (creation g) := by
  refine (agree_mark "new").bind fun head head' hhead => agree_get fun c d hlike => ?_
  have hgiven := agree_given hhead
  have hinitializer := (steady_initializerOf hg).one
  have hwith : ∀ {n m : Node}, n.shape = m.shape →
      Element.shapesIn (head ++ [.node n]) = Element.shapesIn (head' ++ [.node m]) := by
    intro n m h
    simp [hhead, h]
  rw [uniform_sees "(" c d hlike, uniform_sees "[" c d hlike, uniform_sees Token.openBrace c d hlike]
  split
  · have hsome : Agree (Option.map Node.shape) (some <$> tupleArrayType g) (some <$> tupleArrayType g) :=
      (steady_tupleArrayType hg).map fun _ _ hab => congrArg some hab
    refine (hsome.orElse (agree_pure rfl)).bind (fun a b hab => ?_) c d hlike
    cases a with
    | none =>
      cases b with
      | none =>
        exact ((hgiven.append (steady_argumentList hg).one).append
          (hinitializer.whenAt (uniform_sees _))).build
      | some b => cases hab
    | some a =>
      cases b with
      | none => cases hab
      | some b => exact agree_arrayCreation hg (hwith (Option.some.inj hab))
  · split
    · exact ((((hgiven.append agree_token).append (agree_token.repeatWhile (uniform_sees _))).append
        (agree_mark _)).append hinitializer).build c d hlike
    · split
      · exact (hgiven.append hinitializer).build c d hlike
      · refine hg.type.bind (fun n m h => agree_get fun c d hlike => ?_) c d hlike
        rw [isArrayHead_eq h hlike]
        split
        · exact agree_arrayCreation hg (hwith h) c d hlike
        · exact ((agree_given (hwith h)).append (agree_creationTail hg)).build c d hlike

theorem steady_keywordPrimary : Steady (keywordPrimary g) := by
  have hchecked := ((agree_token.append (agree_mark "(")).append hg.expression.one).append (agree_mark ")")
  have hdelegate := (agree_token.append
    ((steady_parameterList hg).one.whenAt (uniform_sees "("))).append (steady_block hg).one
  refine agree_ite (uniform_seesAny _) agree_token.build ?_
  refine agree_ite (uniform_sees _) (agree_ite (uniform_seesAt _ _)
    (steady_keywordOperand hg _) agree_token.build) ?_
  refine agree_ite (uniform_seesAny _) (steady_keywordOperand hg _) ?_
  refine agree_ite (uniform_seesAny _) hchecked.build ?_
  refine agree_ite (uniform_sees _) agree_token.build ?_
  refine agree_ite (uniform_sees _) agree_token.build ?_
  refine agree_ite (uniform_sees _) (steady_parenthesized hg) ?_
  refine agree_ite (uniform_sees _) (steady_collection hg) ?_
  refine agree_ite (uniform_sees _) (steady_initializerOf hg) ?_
  refine agree_ite (uniform_sees _) (steady_creation hg) ?_
  refine agree_ite (uniform_sees _) hdelegate.build ?_
  exact agree_ite (uniform_isPredefinedType 0) agree_token.build (agree_fail _ _)

theorem steady_primary : Steady (primary g) :=
  agree_ite uniform_isLiteral agree_token.build <|
    agree_ite uniform_atName (steady_simpleName hg) (steady_keywordPrimary hg)

theorem steady_primarySuffix : SteadyExtension (primarySuffix g) := by
  have hindex := (steady_bracketedArguments hg).one
  have hnullable : Cursor.Uniform fun c =>
      c.sees "?" && c.seesAt 1 "[" && c.current.adjacent (c.nth 1) :=
    uniform_glued fun t u ht hu => by simp [Token.gapMatters, ht, hu]
  have hasserts : Cursor.Uniform fun c =>
      c.sees "!" && ((c.nth 1).kind == .endOfFile || assertionFollowers.any (c.nth 1).is) :=
    fun c d h => by
      have hfun : (c.nth 1).is = (d.nth 1).is := funext (h.nth 1).is_eq
      simp only [uniform_sees "!" c d h, (h.nth 1).kind_eq, hfun]
  refine sameExtension_ite (uniform_seesAny _) (agree_token.append (steady_simpleName hg).one) ?_
  refine sameExtension_ite (uniform_sees _) (steady_argumentList hg).one ?_
  refine sameExtension_ite (uniform_sees _) hindex ?_
  refine sameExtension_ite hnullable (agree_token.append hindex) ?_
  refine sameExtension_ite (uniform_seesAny _) agree_token ?_
  refine sameExtension_ite hasserts agree_token ?_
  refine sameExtension_ite (by simp) (agree_token.append steady_rawGroup.one) ?_
  exact sameExtension_ite (by simp) (agree_token.append (steady_initializerOf hg).one)
    steadyExtension_none

/-! ## Operators -/

omit hg in
@[simp] theorem uniform_atAwait : Cursor.Uniform atAwait := fun c d h => by
  simp only [atAwait, h.current.isName_eq, (h.nth 1).kind_eq, (h.nth 1).is_eq]

omit hg in
theorem uniform_castOperandFollows (predefined : Bool) :
    Cursor.Uniform (castOperandFollows predefined) := fun c d h => by
  simp only [castOperandFollows, h.current.kind_eq, uniform_seesAny _ c d h]

theorem steady_cast : Steady (cast g) := by
  have hcast := fun predefined => ((((agree_mark "(").append hg.type.one).append (agree_mark ")")).append
    (agree_check (uniform_castOperandFollows predefined) "cast operand")).append hg.operand.one
  intro c d hlike
  simp only [cast, uniform_isPredefinedType 1 c d hlike, uniform_seesAt 2 ")" c d hlike]
  exact (hcast _).build c d hlike

theorem steady_unary : Steady (unary g) := by
  have hplain := (steady_primarySuffix hg).grow (steady_primary hg)
  have hprefix := agree_token.append hg.operand.one
  refine agree_ite (uniform_seesAny _) hprefix.build ?_
  refine agree_ite uniform_atAwait hprefix.build ?_
  refine agree_ite (uniform_sees _) (agree_token.append hg.expression.one).build ?_
  exact agree_ite (uniform_sees _) ((steady_cast hg).orElse hplain) hplain

omit hg in
/-- Two marks that close angle brackets, without a gap. -/
theorem uniform_closing {y : String} (h : y = ">" ∨ y = ">=") :
    Cursor.Uniform fun c => c.sees ">" && c.seesAt 1 y && c.current.adjacent (c.nth 1) :=
  uniform_glued fun t u ht hu => by rcases h with rfl | rfl <;> simp [Token.gapMatters, ht, hu]

omit hg in
theorem uniform_binaryOperator? : Cursor.Uniform binaryOperator? := fun c d h => by
  have hshift := uniform_closing (.inl rfl) c d h
  have hassign := uniform_closing (.inr rfl) c d h
  have hany := fun texts => uniform_seesAny texts c d h
  have hsees := uniform_sees ">" c d h
  simp only [binaryOperator?, hany, hsees]
  rcases hangle : d.sees ">" with _ | _
  · rfl
  · simp only [hsees, hangle, Bool.true_and, Bool.and_comm (_ : Bool) (Token.adjacent _ _)] at hshift hassign
    simp only [hshift, hassign]

omit hg in
theorem uniform_assignmentWidth? : Cursor.Uniform assignmentWidth? := fun c d h => by
  have hshift := uniform_closing (.inr rfl) c d h
  simp only [assignmentWidth?, uniform_seesAny _ c d h, hshift]

omit hg in
@[simp] theorem uniform_atPatternJoin : Cursor.Uniform atPatternJoin := by
  unfold atPatternJoin
  simp

theorem agree_simplePattern : AgreeParts (simplePattern g) (simplePattern g) := by
  have hnames : Cursor.Uniform fun c => c.atName && !atPatternJoin c && !c.sees "when" :=
    uniform_and (uniform_and uniform_atName (uniform_not uniform_atPatternJoin))
      (uniform_not (uniform_sees _))
  refine ((Agree.append (agree_token.repeatWhile (uniform_isName _)) ?_).append
    (steady_rawGroup.one.whenAt (uniform_sees _))).append (agree_token.whenAt hnames)
  refine agree_ite uniform_atBracket steady_rawGroup.one ?_
  refine agree_ite (uniform_seesAny _) (agree_token.append hg.operand.one) ?_
  exact ((steady_typeOf hg).followedBy (by simp)).one.orElse hg.operand.one

theorem agree_morePatterns (bound : Nat) : AgreeParts (morePatterns g bound) (morePatterns g bound) := by
  induction bound with
  | zero => exact agree_given rfl
  | succ bound ih =>
    exact ((agree_token.append (agree_simplePattern hg)).append ih).whenAt uniform_atPatternJoin

theorem agree_pattern : AgreeParts (pattern g) (pattern g) :=
  agree_bounded fun bound => (agree_simplePattern hg).append (agree_morePatterns hg bound)

theorem agree_rightOperand (operator : String) (precedence : Nat) :
    AgreeParts (rightOperand g operator precedence) (rightOperand g operator precedence) := by
  rw [rightOperand]
  split
  · exact agree_pattern hg
  · split
    · exact (steady_typeOf hg).one
    · exact (hg.binary _).one

theorem steady_binaryOf (least : Nat) : Steady (binaryOf g least) := by
  refine SteadyExtension.grow (fun c d hlike => ?_) (steady_unary hg)
  rw [uniform_binaryOperator? c d hlike, hlike.current.text_eq]
  split
  · exact .none
  · split
    · exact .none
    · exact .some ((agree_take _).append (agree_rightOperand hg _ _))

theorem steady_conditional : Steady (conditional g) := by
  have hrest := ((agree_token.append hg.expression.one).append (agree_mark ":")).append
    hg.expression.one
  exact SteadyExtension.growOnce
    (sameExtension_ite (uniform_sees _) hrest steadyExtension_none) (steady_binaryOf hg _)

theorem steady_assignment : Steady (assignment g) := by
  refine SteadyExtension.growOnce (fun c d hlike => ?_) (steady_conditional hg)
  rw [uniform_assignmentWidth? c d hlike]
  cases assignmentWidth? d with
  | none => exact .none
  | some width => exact .some ((agree_take _).append (agree_value hg))

theorem steady_expressionOf : Steady (expressionOf g) := by
  intro c d hlike
  rw [expressionOf, expressionOf, uniform_lambdaHead? c d hlike]
  split
  · exact steady_lambda hg _ c d hlike
  · exact steady_assignment hg c d hlike

/-! ## Parts of declarations -/

theorem steady_typeParameters : Steady (typeParameters g) := by
  have hitem : Steady (build .typeParameter
      (attributeLists g ++ whenAt (seesAny ["in", "out"]) token ++ name)) :=
    (((agree_attributeLists hg).append (agree_token.whenAt (uniform_seesAny _))).append
      agree_name).build
  exact (((agree_mark _).append hitem.one.commaList).append (agree_mark _)).build

theorem steady_baseList : Steady (baseList g) := by
  have hitem : Steady (build .baseType (one g.type ++ whenAt (sees "(") (one (argumentList g)))) :=
    (hg.type.one.append ((steady_argumentList hg).one.whenAt (uniform_sees _))).build
  exact ((agree_mark _).append hitem.one.commaList).build

omit hg in
theorem steady_constraints : Steady constraints :=
  (((agree_group.orElse agree_token).ifAt agree_token (uniform_sees _)).repeatWhile (by simp)).build

theorem steady_arrowClause : Steady (arrowClause g) :=
  ((agree_mark _).append hg.expression.one).build

theorem agree_memberBody : AgreeParts (memberBody g) (memberBody g) :=
  (steady_block hg).one.ifAt (((steady_arrowClause hg).one.append (agree_mark _)).ifAt (agree_mark _)
    (uniform_sees _)) (uniform_sees _)

theorem agree_declaratorAfter {xs ys : List Element}
    (h : Element.shapesIn xs = Element.shapesIn ys) :
    AgreeNode (declaratorAfter g xs) (declaratorAfter g ys) :=
  (((agree_given h).append ((steady_bracketedArguments hg).one.whenAt (uniform_sees _))).append
    ((steady_equalsValue hg).one.whenAt (uniform_sees _))).build

theorem steady_declarator : Steady (declarator g) :=
  agree_name.bind fun _ _ h => agree_declaratorAfter hg h

theorem steady_variableDeclaration : Steady (variableDeclaration g) :=
  ((steady_typeOf hg).one.append (steady_declarator hg).one.commaList).build

omit hg in
theorem agree_explicitInterface : AgreeParts explicitInterface explicitInterface :=
  ((agree_token.append agree_token).repeatWhile (uniform_atNameThen _)).build.one.whenAt
    (uniform_atNameThen _)

/-! ## Members -/

omit hg in
@[simp] theorem uniform_atRecord : Cursor.Uniform atRecord := fun c d h => by
  simp only [atRecord, uniform_sees _ c d h, (h.nth 1).kind_eq, uniform_seesAt _ _ c d h]

omit hg in
theorem uniform_typeDeclarationKind? : Cursor.Uniform typeDeclarationKind? := fun c d h => by
  simp only [typeDeclarationKind?, uniform_sees _ c d h, uniform_atRecord c d h]

theorem agree_typeBody : AgreeParts (typeBody g) (typeBody g) :=
  agree_token.ifAt ((((agree_mark _).append (hg.member.one.repeatWhile (by simp))).append
    (agree_mark _)).append (agree_token.whenAt (uniform_sees _))) (uniform_sees _)

section Heads

variable {xs ys : List Element} (h : Element.shapesIn xs = Element.shapesIn ys)

include h

theorem agree_typeDeclaration (kind : Kind) :
    AgreeNode (typeDeclaration g kind xs) (typeDeclaration g kind ys) := by
  have hhead := ((agree_given h).append agree_token).append (agree_token.whenAt
    (uniform_and (uniform_const (kind == .recordDeclaration)) (uniform_seesAny ["class", "struct"])))
  have hname := (hhead.append agree_name).append
    ((steady_typeParameters hg).one.whenAt (uniform_sees "<"))
  have hlists := (hname.append ((steady_parameterList hg).one.whenAt (uniform_sees "("))).append
    ((steady_baseList hg).one.whenAt (uniform_sees ":"))
  exact ((hlists.append (steady_constraints.one.whenAt (uniform_sees "where"))).append
    (agree_typeBody hg)).build

theorem agree_enumDeclaration : AgreeNode (enumDeclaration g xs) (enumDeclaration g ys) := by
  have hhead := (((agree_given h).append (agree_mark "enum")).append agree_name).append
    ((steady_baseList hg).one.whenAt (uniform_sees ":"))
  exact (((hhead.append (agree_check (uniform_sees _) _)).append steady_rawGroup.one).append
    (agree_token.whenAt (uniform_sees _))).build

omit h in
theorem steady_constructorInitializer : Steady (constructorInitializer g) :=
  (((agree_token.append (agree_check (uniform_seesAny _) _)).append agree_token).append
    (steady_argumentList hg).one).build

theorem agree_constructorDeclaration :
    AgreeNode (constructorDeclaration g xs) (constructorDeclaration g ys) := by
  have hhead := (((agree_given h).append (agree_token.whenAt (uniform_sees "~"))).append
    agree_name).append (steady_parameterList hg).one
  exact ((hhead.append ((steady_constructorInitializer hg).one.whenAt (uniform_sees _))).append
    (agree_memberBody hg)).build

theorem agree_methodDeclaration :
    AgreeNode (methodDeclaration g xs) (methodDeclaration g ys) := by
  have hhead := ((agree_given h).append
    ((steady_typeParameters hg).one.whenAt (uniform_sees "<"))).append (steady_parameterList hg).one
  exact ((hhead.append (steady_constraints.one.whenAt (uniform_sees _))).append
    (agree_memberBody hg)).build

theorem agree_propertyDeclaration :
    AgreeNode (propertyDeclaration g xs) (propertyDeclaration g ys) := by
  have haccessors : Steady (build .accessorList group) := agree_group.build
  have hstart := ((steady_equalsValue hg).one.append (agree_mark ";")).whenAt (uniform_sees "=")
  exact ((agree_given h).append (((steady_arrowClause hg).one.append (agree_mark _)).ifAt
    (haccessors.one.append hstart) (uniform_sees _))).build

theorem agree_fieldDeclaration {n m : Node} {us vs : List Element} (hnm : n.shape = m.shape)
    (huv : Element.shapesIn us = Element.shapesIn vs) :
    AgreeNode (fieldDeclaration g xs n us) (fieldDeclaration g ys m vs) := by
  have htype : AgreeParts (given [.node n]) (given [.node m]) := agree_given (by simp [hnm])
  have hmore := (agree_token.append (steady_declarator hg).one).repeatWhile (uniform_sees ",")
  exact (((agree_given h).append
    ((htype.append (agree_declaratorAfter hg huv).one).append hmore).build.one).append
    (agree_mark _)).build

theorem agree_typedMember : AgreeNode (typedMember g xs) (typedMember g ys) := by
  refine (steady_typeOf hg).bind fun type type' htype => ?_
  refine agree_explicitInterface.bind fun qualifier qualifier' hqualifier => ?_
  refine agree_get fun c d hlike => ?_
  rw [uniform_seesAny _ c d hlike]
  split
  · exact .refused _ _
  · refine agree_name.bind (fun own own' hown => agree_get fun c d hlike => ?_) c d hlike
    have hwhole : Element.shapesIn (xs ++ [.node type] ++ qualifier ++ own) =
        Element.shapesIn (ys ++ [.node type'] ++ qualifier' ++ own') := by
      simp [h, htype, hqualifier, hown]
    have hempty : qualifier.isEmpty = qualifier'.isEmpty := by
      have hlength := congrArg List.length hqualifier
      rw [Element.length_shapesIn, Element.length_shapesIn] at hlength
      rw [Bool.eq_iff_iff, List.isEmpty_iff_length_eq_zero, List.isEmpty_iff_length_eq_zero, hlength]
    simp only [uniform_seesAny _ c d hlike, hempty]
    split
    · exact agree_methodDeclaration hg hwhole c d hlike
    · split
      · exact agree_propertyDeclaration hg hwhole c d hlike
      · split
        · exact .refused _ _
        · exact agree_fieldDeclaration hg h htype hown c d hlike

end Heads

theorem steady_knownMember : Steady (knownMember g) := by
  have hhead := (agree_attributeLists hg).append
    (steady_modifiers memberModifiers contextualModifiers).one
  refine hhead.bind fun head head' h => agree_get fun c d hlike => ?_
  simp only [uniform_typeDeclarationKind? c d hlike, uniform_sees _ c d hlike,
    uniform_seesAny _ c d hlike, uniform_atNameThen _ c d hlike]
  cases typeDeclarationKind? d with
  | some kind => exact agree_typeDeclaration hg h kind c d hlike
  | none =>
    dsimp only
    split
    · exact agree_enumDeclaration hg h c d hlike
    · split
      · exact .refused _ _
      · split
        · exact agree_constructorDeclaration hg h c d hlike
        · exact agree_typedMember hg h c d hlike

theorem steady_memberOf : Steady (memberOf g) :=
  (steady_knownMember hg).recover (steady_rawRun _)

/-! ## Statements -/

omit hg in
theorem sameWriting_dropLocalModifiers {ts us : List Token} (h : Token.SameWriting ts us) :
    Token.SameWriting (dropLocalModifiers ts) (dropLocalModifiers us) := by
  induction h with
  | nil => exact .nil
  | single word => exact .single word
  | @cons t t' u u' ts us word gap rest ih =>
    have hnext := rest.head
    simp only [dropLocalModifiers, word.isWord_eq, word.text_eq, hnext.isWord_eq]
    split
    · exact ih
    · exact .cons word gap rest

theorem uniform_atLocalFunction : Cursor.Uniform (atLocalFunction g) := fun c d h => by
  have hstart := h.withAhead (sameWriting_dropLocalModifiers h.ahead)
  have hleads := (steady_typeOf hg).leadsTo (uniform_atNameThen "(") _ _ hstart
  simp only [atLocalFunction, uniform_atAwait c d h, uniform_sees "await" _ _ hstart, hleads]

theorem uniform_atLocalDeclaration : Cursor.Uniform (atLocalDeclaration g) := fun c d h => by
  have hfollows : Cursor.Uniform fun d => d.atName &&
      (d.seesAt 1 "=" || d.seesAt 1 ";" || d.seesAt 1 "," || d.seesAt 1 ")") := fun c d h => by
    simp only [uniform_atName c d h, uniform_seesAt _ _ c d h]
  have hleads := (steady_typeOf hg).leadsTo hfollows c d h
  simp only [atLocalDeclaration, uniform_atAwait c d h, hleads]

theorem agree_condition : AgreeParts (condition g) (condition g) :=
  ((agree_mark _).append hg.expression.one).append (agree_mark _)

omit hg in
theorem agree_rawParentheses : AgreeParts rawParentheses rawParentheses :=
  (agree_check (uniform_sees _) _).append steady_rawGroup.one

theorem steady_ifStatement : Steady (ifStatement g) := by
  have hotherwise : Steady (build .elseClause (token ++ one g.statement)) :=
    (agree_token.append hg.statement.one).build
  exact ((((agree_mark _).append (agree_condition hg)).append hg.statement.one).append
    (hotherwise.one.whenAt (uniform_sees _))).build

theorem steady_whileStatement : Steady (whileStatement g) :=
  ((agree_token.append (agree_condition hg)).append hg.statement.one).build

theorem steady_doStatement : Steady (doStatement g) :=
  ((((agree_token.append hg.statement.one).append (agree_mark _)).append (agree_condition hg)).append
    (agree_mark _)).build

theorem steady_forStatement : Steady (forStatement g) :=
  ((agree_token.append agree_rawParentheses).append hg.statement.one).build

theorem steady_forEachStatement (lead : Nat) : Steady (forEachStatement g lead) := by
  have hheader := (((((agree_mark "(").append hg.type.one).append agree_name).append
    (agree_mark "in")).append hg.expression.one).append (agree_mark ")")
  exact ((((agree_take _).append (agree_mark _)).append (hheader.orElse agree_rawParentheses)).append
    hg.statement.one).build

theorem steady_catchClause : Steady (catchClause g) := by
  have hdeclaration : Steady (build .catchDeclaration
      (token ++ one g.type ++ whenAt atName token ++ mark ")")) :=
    (((agree_token.append hg.type.one).append (agree_token.whenAt uniform_atName)).append
      (agree_mark _)).build
  have hfilter : Steady (build .catchFilter (token ++ condition g)) :=
    (agree_token.append (agree_condition hg)).build
  exact (((agree_token.append (hdeclaration.one.whenAt (uniform_sees _))).append
    (hfilter.one.whenAt (uniform_isName _))).append (steady_block hg).one).build

theorem steady_tryStatement : Steady (tryStatement g) := by
  have hfinally : Steady (build .finallyClause (token ++ one (block g))) :=
    (agree_token.append (steady_block hg).one).build
  exact ((((agree_mark _).append (steady_block hg).one).append
    ((steady_catchClause hg).one.repeatWhile (uniform_sees _))).append
    (hfinally.one.whenAt (uniform_sees _))).build

omit hg in
@[simp] theorem uniform_atSwitchLabel : Cursor.Uniform atSwitchLabel := fun c d h => by
  simp only [atSwitchLabel, uniform_sees _ c d h, uniform_seesAt _ _ c d h]

omit hg in
theorem steady_switchLabel : Steady switchLabel := by
  have hpart := (agree_fail Element.shapesIn "':'").ifAt (agree_group.ifAt agree_token uniform_atBracket)
    uniform_atBodyEnd
  exact ((agree_token.append (hpart.repeatWhile (by simp))).append agree_token).build

theorem steady_switchSection : Steady (switchSection g) :=
  (((agree_check uniform_atSwitchLabel _).append
    (steady_switchLabel.one.repeatWhile uniform_atSwitchLabel)).append
    (hg.statement.one.repeatWhile (by simp))).build

theorem steady_switchStatement : Steady (switchStatement g) :=
  (((((agree_mark _).append (agree_condition hg)).append (agree_mark _)).append
    ((steady_switchSection hg).one.repeatWhile (by simp))).append (agree_mark _)).build

theorem steady_exitStatement (kind : Kind) : Steady (exitStatement g kind) :=
  ((agree_token.append (hg.expression.one.whenAt (by simp))).append (agree_mark _)).build

omit hg in
theorem steady_jumpStatement : Steady jumpStatement :=
  ((agree_token.repeatWhile (by simp)).append (agree_mark _)).build

theorem steady_yieldStatement : Steady (yieldStatement g) :=
  ((agree_token.append ((agree_token.append hg.expression.one).ifAt agree_token
    (uniform_sees _))).append (agree_mark _)).build

theorem steady_localDeclaration (lead : Nat) : Steady (localDeclaration g lead) :=
  (((agree_take _).append (steady_variableDeclaration hg).one).append (agree_mark _)).build

theorem steady_usingStatement (lead : Nat) : Steady (usingStatement g lead) := by
  have hresource := (steady_variableDeclaration hg).one.ifAt hg.expression.one
    (uniform_atLocalDeclaration hg)
  exact ((((agree_take _).append hresource).append (agree_mark _)).append
    hg.statement.one).build.ifAt (steady_localDeclaration hg _) (uniform_seesAt _ _)

theorem steady_plainStatement : Steady (plainStatement g) :=
  agree_ite (uniform_atLocalFunction hg) (steady_memberOf hg) <|
    agree_ite (uniform_atLocalDeclaration hg) (steady_localDeclaration hg _)
      ((steady_expressionOf hg).one.append (agree_mark _)).build

theorem steady_knownStatement : Steady (knownStatement g) := by
  have hlocked := (agree_token.append agree_rawParentheses).append hg.statement.one
  refine agree_ite (uniform_sees _) (steady_block hg) ?_
  refine agree_ite (uniform_sees _) agree_token.build ?_
  refine agree_ite (uniform_sees _) (steady_ifStatement hg) ?_
  refine agree_ite (uniform_sees _) (steady_whileStatement hg) ?_
  refine agree_ite (uniform_sees _) (steady_doStatement hg) ?_
  refine agree_ite (uniform_sees _) (steady_forStatement hg) ?_
  refine agree_ite (uniform_sees _) (steady_forEachStatement hg _) ?_
  refine agree_ite (uniform_sees _) (steady_tryStatement hg) ?_
  refine agree_ite (uniform_sees _) (steady_switchStatement hg) ?_
  refine agree_ite (uniform_sees _) (steady_exitStatement hg _) ?_
  refine agree_ite (uniform_sees _) (steady_exitStatement hg _) ?_
  refine agree_ite (uniform_seesAny _) steady_jumpStatement ?_
  refine agree_ite (by simp) (steady_yieldStatement hg) ?_
  refine agree_ite (uniform_seesAny _) hlocked.build ?_
  refine agree_ite (uniform_sees _) (steady_usingStatement hg _) ?_
  refine agree_ite (by simp) (steady_usingStatement hg _) ?_
  refine agree_ite (by simp) (steady_forEachStatement hg _) ?_
  refine agree_ite (by simp) (agree_token.append (steady_block hg).one).build ?_
  exact agree_ite (uniform_sees _) (steady_localDeclaration hg _) (steady_plainStatement hg)

theorem steady_statementOf : Steady (statementOf g) :=
  (steady_knownStatement hg).recover (steady_rawRun _)

/-! ## Files and namespaces -/

theorem steady_usingDirective : Steady (usingDirective g) := by
  have hhead := ((agree_token.whenAt (uniform_sees "global")).append (agree_mark "using")).append
    (agree_token.whenAt (uniform_sees "static"))
  exact (((hhead.append ((agree_token.append agree_token).whenAt (uniform_atNameThen _))).append
    (steady_typeOf hg).one).append (agree_mark _)).build

theorem steady_namespaceDeclaration : Steady (namespaceDeclaration g) := by
  have hhead := (agree_mark "namespace").append (steady_typeName hg).one
  have hmembers := hg.scopeMember.one
  refine hhead.bind fun head head' h => agree_get fun c d hlike => ?_
  rw [uniform_sees _ c d hlike]
  split
  · exact (((agree_given h).append agree_token).append
      (hmembers.repeatWhile (by simp))).build c d hlike
  · exact (((((agree_given h).append (agree_mark _)).append (hmembers.repeatWhile (by simp))).append
      (agree_mark _)).append (agree_token.whenAt (uniform_sees _))).build c d hlike

omit hg in
theorem uniform_atGlobalAttribute : Cursor.Uniform atGlobalAttribute := fun c d h => by
  simp only [atGlobalAttribute, uniform_sees _ c d h, uniform_seesAt _ _ c d h, (h.nth 1).isWord_eq,
    (h.nth 1).text_eq]

theorem steady_scopeMemberOf : Steady (scopeMemberOf g) := by
  refine agree_ite (by simp) (steady_usingDirective hg) ?_
  refine agree_ite (uniform_sees _) (steady_namespaceDeclaration hg) ?_
  exact agree_ite uniform_atGlobalAttribute (steady_attributeList hg) (steady_memberOf hg)

theorem steady_compilationUnit : Steady (compilationUnit g) :=
  ((hg.scopeMember.one.repeatWhile (by simp)).append agree_token).build

theorem Uniform.deepen : (deepen g).Uniform where
  type := steady_typeOf hg
  expression := steady_expressionOf hg
  operand := steady_unary hg
  binary := steady_binaryOf hg
  initializer := steady_initializerOf hg
  statement := steady_statementOf hg
  member := steady_memberOf hg
  scopeMember := steady_scopeMemberOf hg

end Productions

theorem uniform_nothing : nothing.Uniform where
  type := agree_fail _ _
  expression := agree_fail _ _
  operand := agree_fail _ _
  binary _ := agree_fail _ _
  initializer := agree_fail _ _
  statement := agree_fail _ _
  member := agree_fail _ _
  scopeMember := agree_fail _ _

/-- Formatting does not lead the grammar astray, however deep constructs nest. -/
theorem uniform_nesting (n : Nat) : (nesting n).Uniform := by
  induction n with
  | zero => exact uniform_nothing
  | succ n ih => exact ih.deepen

end Recast.Grammar
