-- SUMMARY: A production is the same below one token more than the constructs in it, so a grammar of every depth does what one of any greater depth does.
import Recast.Proofs.Grammar.Declarations
import Recast.Proofs.Grammar.Depth

/-! # Nesting

A production enters another construct only after it has taken a token. So what the constructs in it
are below `m`, the production is below `m + 1`, and the grammar nested `n` deep is the same below
`n` whatever grammar stands at its bottom. The few productions that enter a construct at once, as an
argument does, are only used behind a bracket or a mark. -/

namespace Recast.Grammar

open Recast.Parser Recast.Cursor

/-- Grammars whose entry points do the same with fewer than `m` tokens ahead. -/
structure AlikeBelow (m : Nat) (g h : Grammar) : Prop where
  type : SameBelow 0 m 0 g.type h.type
  expression : SameBelow 0 m 0 g.expression h.expression
  operand : SameBelow 0 m 0 g.operand h.operand
  binary : ∀ least, SameBelow 0 m 0 (g.binary least) (h.binary least)
  initializer : SameBelow 0 m 0 g.initializer h.initializer
  statement : SameBelow 0 m 0 g.statement h.statement
  member : SameBelow 0 m 0 g.member h.member
  scopeMember : SameBelow 0 m 0 g.scopeMember h.scopeMember

section Productions

variable {m : Nat} {g h : Grammar} (hg : AlikeBelow m g h)

include hg

/-! ## Names and types -/

theorem same_typeArguments : SameBelow 0 (m + 1) 0 (typeArguments g) (typeArguments h) :=
  (((same_mark _ "<").follow (hg.type.one.whenAt (needs_zero _)).commaList).follow
    (same_mark _ ">")).build

theorem same_simpleTypeName : SameBelow 0 (m + 1) 0 (simpleTypeName g) (simpleTypeName h) :=
  ((same_name _).append (same_typeArguments hg).one).build.ifAt (needs_zero _) (same_name _).build

theorem same_typeName : SameBelow 0 (m + 1) 0 (typeName g) (typeName h) := by
  have hsimple := same_simpleTypeName hg
  have halias := ((same_token _).append (same_tokenIfAny _)).append hsimple.one
  refine SameExtensionBelow.grow ?_
    (halias.build.ifAt ((needs_atNameThen "::").mono (by decide)) hsimple)
  exact sameExtension_ite (needs_sees ".").and_left ((same_token _).append hsimple.one)
    (sameExtension_none _)

theorem same_tupleType : SameBelow 0 (m + 1) 0 (tupleType g) (tupleType h) := by
  have helement : SameBelow 0 m 0 (build .tupleElement (one g.type ++ whenAt atName token)) _ :=
    (hg.type.one.append ((same_token m).whenAt needs_atName)).build
  exact (((same_mark _ "(").follow helement.one.commaList).follow (same_mark _ ")")).build

omit hg in
theorem same_typeSuffix : SameExtensionBelow m typeSuffix typeSuffix :=
  sameExtension_ite (needs_sees "?") (same_token m) <|
    sameExtension_ite (needs_zero _)
      ((makes_rank.one.same m).repeatWhile (needs_atRank.mono (by decide))) (sameExtension_none m)

theorem same_typeOf : SameBelow 0 (m + 1) 0 (typeOf g) (typeOf h) := by
  refine same_typeSuffix.grow ?_
  refine SameBelow.ite (needs_zero _) (same_tupleType hg) ?_
  exact SameBelow.ite needs_isPredefinedType (same_token _).build (same_typeName hg)

theorem same_simpleName : SameBelow 0 (m + 1) 0 (simpleName g) (simpleName h) :=
  (((same_name _).append (same_typeArguments hg).one).build.followedBy).orElse (same_name _).build

/-! ## Blocks, arguments, values -/

theorem same_block : SameBelow 0 (m + 1) 0 (block g) (block h) :=
  (((same_mark _ _).follow (hg.statement.one.repeatWhile (needs_zero _))).follow
    (same_mark _ _)).build

theorem same_initializerOf : SameBelow 0 (m + 1) 0 (initializerOf g) (initializerOf h) := by
  have hitem := hg.initializer.one.ifAt (needs_zero (sees Token.openBrace)) hg.expression.one
  exact (((same_mark _ _).follow (hitem.openList _)).follow (same_mark _ _)).build

theorem same_value : SameBelow 0 m 0 (value g) (value h) :=
  (same_initializerOf hg).lower.one.ifAt (needs_zero _) hg.expression.one

theorem same_equalsValue : SameBelow 0 (m + 1) 0 (equalsValue g) (equalsValue h) :=
  ((same_mark _ "=").follow (same_value hg)).build

theorem same_declarationArgument :
    SameBelow 0 m 0 (declarationArgument g) (declarationArgument h) :=
  ((hg.type.one.append (same_name m)).append (same_check m _ _)).build

theorem same_argument : SameBelow 0 m 0 (argument g) (argument h) := by
  have hplain := hg.expression.one
  have hlabel := ((same_token m).append (same_tokenIfAny m)).whenAt
    ((needs_atNameThen ":").mono (by decide))
  have hpassed := (same_token m).append ((same_declarationArgument hg).one.orElse hplain)
  exact (hlabel.append (hpassed.ifAt (needs_seesAny ["ref", "out", "in"]) hplain)).build

theorem same_argumentList : SameBelow 0 (m + 1) 0 (argumentList g) (argumentList h) :=
  ((same_argument hg).one.bracketed "(" ")").build

theorem same_bracketedArguments :
    SameBelow 0 (m + 1) 0 (bracketedArguments g) (bracketedArguments h) :=
  ((same_argument hg).one.bracketed "[" "]").build

/-! ## Attributes and parameters -/

theorem same_attributeArgument : SameBelow 0 m 0 (attributeArgument g) (attributeArgument h) := by
  have hlabel := ((same_token m).append (same_tokenIfAny m)).whenAt
    (((needs_atNameThen "=").or (needs_atNameThen ":")).mono (by decide))
  exact (hlabel.append hg.expression.one).build

theorem same_attributeArguments :
    SameBelow 0 (m + 1) 0 (attributeArguments g) (attributeArguments h) :=
  ((same_attributeArgument hg).one.bracketed "(" ")").build

theorem same_attributeOf : SameBelow 0 (m + 1) 0 (attributeOf g) (attributeOf h) :=
  ((same_typeName hg).one.append
    ((same_attributeArguments hg).one.whenAt (needs_zero (sees "(")))).build

theorem same_attributeList : SameBelow 0 (m + 1) 0 (attributeList g) (attributeList h) := by
  have hitem := (same_attributeOf hg).one
  have hcolon : Needs (fun c => c.current.isWord && c.seesAt 1 ":") 1 :=
    ((needs_seesAt 1 ":").mono (by decide)).and_right
  have htarget : SameBelow 1 (m + 1) 0 (build .attributeTargetSpecifier (token ++ token)) _ :=
    ((same_token _).append (same_tokenIfAny _)).build
  have hmore := ((same_token _).append (hitem.openList "]")).whenAt (needs_sees ",")
  exact (((((same_mark _ "[").append (htarget.one.whenAt hcolon)).append hitem).append hmore).append
    (same_mark _ "]")).build

theorem same_attributeLists : SameBelow 0 (m + 1) 0 (attributeLists g) (attributeLists h) :=
  (same_attributeList hg).one.repeatWhile (needs_zero _)

theorem same_parameter : SameBelow 0 m 0 (parameter g) (parameter h) := by
  have hhead := (same_attributeLists hg).lower.append
    ((makes_modifiers parameterModifiers ["scoped"]).one.same m)
  have hvalue := (same_equalsValue hg).lower.one.whenAt (needs_zero (sees "="))
  exact (((hhead.append hg.type.one).append (same_name m)).append hvalue).build

theorem same_parameterList : SameBelow 0 (m + 1) 0 (parameterList g) (parameterList h) :=
  ((same_parameter hg).one.bracketed "(" ")").build

/-! ## Lambdas -/

theorem same_lambdaParameters :
    SameBelow 0 (m + 1) 0 (lambdaParameters g) (lambdaParameters h) := by
  have hmodes : SameBelow 0 m 0
      (build .modifiers (repeatWhile (seesAny ["ref", "out", "in", "params"]) token)) _ :=
    ((same_token m).repeatWhile (needs_seesAny _)).build
  have hparameter (typed : Cursor → Bool) : SameBelow 0 m 0 (build .parameter _) _ :=
    ((hmodes.one.append (hg.type.one.whenAt (needs_zero typed))).append (same_name m)).build
  exact (((same_mark _ "(").follow ((hparameter _).one.openList ")")).follow (same_mark _ ")")).build

/-- The arrow is a token in front of the body. -/
theorem same_lambda (head : LambdaHead) :
    SameBelow (if head.isAsync then 1 else 0) (m + 1) 0 (lambda g head) (lambda h head) := by
  have hbody := (same_block hg).lower.one.ifAt (needs_zero (sees Token.openBrace)) hg.expression.one
  have hbare : SameBelow 0 (m + 1) 0 (build .parameter (one (build .modifiers (given [])) ++ token)) _ :=
    ((same_given _ []).build.one.append (same_tokenIfAny _)).build
  have hparameters : SameBelow 0 (m + 1) 0
      (if head.isSimple then build .parameter (one (build .modifiers (given [])) ++ token)
        else lambdaParameters g)
      (if head.isSimple then build .parameter (one (build .modifiers (given [])) ++ token)
        else lambdaParameters h) := by
    split
    · exact hbare
    · exact same_lambdaParameters hg
  exact ((((takes_take _).same (m + 1)).append hparameters.one).reach (same_mark _ "=>")).follow hbody
    |>.build

/-! ## Primary expressions -/

theorem same_keywordOperand (kind : Kind) :
    SameBelow 1 (m + 1) 0 (keywordOperand g kind) (keywordOperand h kind) :=
  ((((same_token _).append (same_mark _ "(")).follow hg.type.one).follow (same_mark _ ")")).build

theorem same_parenthesized : SameBelow 0 (m + 1) 0 (parenthesized g) (parenthesized h) := by
  refine ((same_mark _ "(").bind_after fun opening => ?_).stay
  refine (same_argument hg).bind fun first => SameBelow.get fun c => ?_
  split
  · have hmore := ((same_token m).append (same_argument hg).one).repeatWhile (needs_sees ",")
    exact ((hmore.given_append _).append (same_mark _ ")")).build
  · split
    · exact ((same_mark m ")").given_append _).build
    · exact same_fail 0 m 0 _

theorem same_collection : SameBelow 0 (m + 1) 0 (collection g) (collection h) := by
  have hspread : SameBelow 1 m 0 (build .prefixUnaryExpression (token ++ one g.expression)) _ :=
    ((same_token m).append hg.expression.one).build
  have hitem := hspread.one.ifAt (needs_sees "..") hg.expression.one
  exact (((same_mark _ "[").follow (hitem.openList "]")).follow (same_mark _ "]")).build

theorem same_sizes : SameBelow 1 (m + 1) 0 (sizes g) (sizes h) :=
  (((same_token _).follow ((hg.expression.one.whenAt (needs_zero _)).openList "]")).follow
    (same_mark _ "]")).build

theorem same_arrayCreation (head : List Element) :
    SameBelow 0 (m + 1) 0 (arrayCreation g head) (arrayCreation h head) := by
  have hsizes := (same_sizes hg).one.repeatWhile (needs_sees "[")
  have hvalues := (same_initializerOf hg).one.whenAt (needs_zero (sees Token.openBrace))
  exact ((hsizes.given_append head).append hvalues).build

theorem same_tupleArrayType : SameBelow 0 m 0 (tupleArrayType g) (tupleArrayType h) := by
  refine hg.type.bind fun type => SameBelow.get fun c => ?_
  split
  · exact same_pure m type
  · exact same_fail 0 m 0 _

theorem same_creationTail : SameBelow 0 (m + 1) 0 (creationTail g) (creationTail h) := by
  have hvalues := (same_initializerOf hg).one
  have hcall := (same_argumentList hg).one.append
    (hvalues.whenAt (needs_zero (sees Token.openBrace)))
  exact hcall.ifAt (needs_zero _) (hvalues.ifAt (needs_zero _) (same_fail 0 (m + 1) 0 _))

theorem same_creation : SameBelow 0 (m + 1) 0 (creation g) (creation h) := by
  have hvalues := (same_initializerOf hg).lower.one
  refine ((same_mark _ "new").bind_after fun head => SameBelow.get fun c => ?_).stay
  split
  · have hsome := (same_tupleArrayType hg).map (f := some)
    refine (hsome.orElse (same_pure m none)).bind fun result => ?_
    cases result with
    | some type => exact (same_arrayCreation hg _).lower
    | none =>
      have hcall := (same_argumentList hg).lower.one.given_append head
      exact (hcall.append (hvalues.whenAt (needs_zero (sees Token.openBrace)))).build
  split
  · have hcommas := (same_token m).repeatWhile (needs_sees ",")
    exact (((((same_tokenIfAny m).given_append head).append hcommas).append (same_mark _ "]")).append
      hvalues).build
  split
  · exact (hvalues.given_append head).build
  · refine hg.type.bind fun type => SameBelow.get fun c => ?_
    split
    · exact (same_arrayCreation hg _).lower
    · exact ((same_creationTail hg).lower.given_append _).build

theorem same_keywordPrimary : SameBelow 0 (m + 1) 0 (keywordPrimary g) (keywordPrimary h) := by
  have hchecked := (((same_token (m + 1)).append (same_mark _ "(")).follow hg.expression.one).follow
    (same_mark _ ")")
  have hdelegate := ((same_token (m + 1)).append
    ((same_parameterList hg).one.whenAt (needs_zero (sees "(")))).append (same_block hg).one
  have hsingle (kind : Kind) : SameBelow 1 (m + 1) 0 (build kind token) (build kind token) :=
    (same_token _).build
  refine SameBelow.ite (needs_seesAny _) (hsingle _) ?_
  refine SameBelow.ite (needs_sees _)
    (SameBelow.ite ((needs_seesAt 1 _).mono (by decide)) (same_keywordOperand hg _) (hsingle _)) ?_
  refine SameBelow.ite (needs_seesAny _) (same_keywordOperand hg _) ?_
  refine SameBelow.ite (needs_seesAny _) hchecked.build ?_
  refine SameBelow.ite (needs_sees _) (hsingle _) ?_
  refine SameBelow.ite (needs_sees _) (hsingle _) ?_
  refine SameBelow.ite (needs_zero _) (same_parenthesized hg) ?_
  refine SameBelow.ite (needs_zero _) (same_collection hg) ?_
  refine SameBelow.ite (needs_zero _) (same_initializerOf hg) ?_
  refine SameBelow.ite (needs_zero _) (same_creation hg) ?_
  refine SameBelow.ite (needs_sees _) hdelegate.build ?_
  exact SameBelow.ite needs_isPredefinedType (hsingle _) (same_fail 0 (m + 1) 0 _)

theorem same_primary : SameBelow 0 (m + 1) 0 (primary g) (primary h) := by
  refine SameBelow.ite (needs_zero _) (same_tokenIfAny _).build ?_
  exact SameBelow.ite (needs_zero _) (same_simpleName hg) (same_keywordPrimary hg)

theorem same_primarySuffix : SameExtensionBelow (m + 1) (primarySuffix g) (primarySuffix h) := by
  have hindex := (same_bracketedArguments hg).one
  refine sameExtension_ite (needs_seesAny _) ((same_token _).append (same_simpleName hg).one) ?_
  refine sameExtension_ite (needs_zero _) (same_argumentList hg).one ?_
  refine sameExtension_ite (needs_zero _) hindex ?_
  refine sameExtension_ite (needs_zero _) ((same_tokenIfAny _).append hindex) ?_
  refine sameExtension_ite (needs_zero _) (same_tokenIfAny _) ?_
  refine sameExtension_ite (needs_zero _) (same_tokenIfAny _) ?_
  refine sameExtension_ite (needs_zero _) ((same_tokenIfAny _).append (makes_rawGroup.one.same _)) ?_
  exact sameExtension_ite (needs_zero _) ((same_tokenIfAny _).append (same_initializerOf hg).one)
    (sameExtension_none _)

/-! ## Operators -/

theorem same_cast : SameBelow 0 (m + 1) 0 (cast g) (cast h) := by
  intro c hc hready hless
  have hparts := (((same_mark (m + 1) "(").follow hg.type.one).append (same_mark _ ")")).append
    (same_check _ (castOperandFollows (isPredefinedType (c.nth 1) && c.seesAt 2 ")"))
      "cast operand")
  have hbuild : SameBelow 0 (m + 1) 0 (build .castExpression _) _ :=
    (hparts.follow hg.operand.one).build
  exact hbuild hc hready hless

theorem same_unary : SameBelow 0 (m + 1) 0 (unary g) (unary h) := by
  have hplain := (same_primarySuffix hg).grow (same_primary hg)
  have hoperand := (same_token _).follow hg.operand.one
  refine SameBelow.ite (needs_seesAny _) hoperand.build ?_
  refine SameBelow.ite needs_atAwait hoperand.build ?_
  refine SameBelow.ite (needs_sees _) ((same_token _).follow hg.expression.one).build ?_
  exact SameBelow.ite (needs_zero _) ((same_cast hg).orElse hplain) hplain

theorem same_simplePattern : SameBelow 0 m 0 (simplePattern g) (simplePattern h) := by
  have hnot := (same_token m).repeatWhile (needs_isName "not")
  have hgroup := makes_rawGroup.one.same m
  have htype : SameBelow 0 m 0
      ((typeOf g).followedBy (fun c => !c.seesAny ["(", "."]) "type pattern") _ :=
    (same_typeOf hg).lower.followedBy
  have hbound := SameBelow.ite (needs_seesAny ["<", "<=", ">", ">="])
    ((same_token m).append hg.operand.one) (htype.one.orElse hg.operand.one)
  have hcore := SameBelow.ite (needs_zero atBracket) hgroup hbound
  have hname : Needs (fun c => c.atName && !atPatternJoin c && !c.sees "when") 1 :=
    needs_atName.and_left.and_left
  exact ((hnot.append hcore).append (hgroup.whenAt (needs_zero _))).append
    ((same_token m).whenAt hname)

theorem same_morePatterns (bound : Nat) :
    SameBelow 0 m 0 (morePatterns g bound) (morePatterns h bound) := by
  induction bound with
  | zero => exact same_given m []
  | succ bound ih =>
    exact (((same_token m).append (same_simplePattern hg)).append ih).whenAt
      ((needs_isName "and").or (needs_isName "or"))

theorem same_pattern : SameBelow 0 m 0 (pattern g) (pattern h) :=
  SameBelow.bounded fun bound => (same_simplePattern hg).append (same_morePatterns hg bound)

theorem same_rightOperand (operator : String) (precedence : Nat) :
    SameBelow 0 m 0 (rightOperand g operator precedence) (rightOperand h operator precedence) := by
  unfold rightOperand
  split
  · exact same_pattern hg
  · split
    · exact (same_typeOf hg).lower.one
    · exact (hg.binary _).one

omit hg in
/-- An operator is made of tokens. -/
theorem binaryOperator_width_pos {c : Cursor} {precedence width : Nat}
    (h : binaryOperator? c = some (precedence, width)) : 1 ≤ width := by
  simp only [binaryOperator?] at h
  split at h
  · split at h
    · cases h
    · split at h
      · obtain ⟨-, rfl⟩ := Prod.mk.inj (Option.some.inj h)
        decide
      · obtain ⟨-, rfl⟩ := Prod.mk.inj (Option.some.inj h)
        decide
  · obtain ⟨_, -, heq⟩ := Option.map_eq_some_iff.1 h
    obtain ⟨-, rfl⟩ := Prod.mk.inj heq
    decide

omit hg in
/-- At least one token, and as many as are ahead. -/
theorem same_take {width : Nat} (hwidth : 1 ≤ width) :
    SameBelow width (m + 1) 1 (take width) (take width) :=
  ((takes_take width).same (m + 1)).mono (Nat.le_refl _) (Nat.le_refl _) (by omega)

theorem same_binaryOf (least : Nat) : SameBelow 0 (m + 1) 0 (binaryOf g least) (binaryOf h least) := by
  refine SameExtensionBelow.grow ?_ (same_unary hg)
  intro c hc hless
  dsimp only
  cases hoperator : binaryOperator? c with
  | none => exact .none
  | some operator =>
    obtain ⟨precedence, width⟩ := operator
    dsimp only
    split
    · exact .none
    · exact .some (binaryOperator_width_le hc hoperator)
        ((same_take (binaryOperator_width_pos hoperator)).follow (same_rightOperand hg _ _))

theorem same_conditional : SameBelow 0 (m + 1) 0 (conditional g) (conditional h) := by
  refine SameExtensionBelow.growOnce ?_ (same_binaryOf hg coalescing)
  have hrest := (((same_token _).follow hg.expression.one).follow (same_mark _ ":")).follow
    hg.expression.one
  exact sameExtension_ite (needs_sees "?") hrest (sameExtension_none _)

omit hg in
theorem assignmentWidth_pos {c : Cursor} {width : Nat} (h : assignmentWidth? c = some width) :
    1 ≤ width := by
  simp only [assignmentWidth?] at h
  split at h
  · obtain rfl := Option.some.inj h
    decide
  · split at h
    · obtain rfl := Option.some.inj h
      decide
    · cases h

theorem same_assignment : SameBelow 0 (m + 1) 0 (assignment g) (assignment h) := by
  refine SameExtensionBelow.growOnce ?_ (same_conditional hg)
  intro c hc hless
  dsimp only
  cases hwidth : assignmentWidth? c with
  | none => exact .none
  | some width =>
    exact .some (assignmentWidth_le hc hwidth)
      ((same_take (assignmentWidth_pos hwidth)).follow (same_value hg))

theorem same_expressionOf : SameBelow 0 (m + 1) 0 (expressionOf g) (expressionOf h) := by
  intro c hc hready hless
  simp only [expressionOf]
  cases hhead : lambdaHead? c with
  | none => exact same_assignment hg hc hready hless
  | some head =>
    have hneeds := needs_lambdaHead hc hhead
    exact same_lambda hg head hc (by omega) hless

/-! ## Parts of declarations -/

theorem same_typeParameters : SameBelow 0 (m + 1) 0 (typeParameters g) (typeParameters h) := by
  have hvariance := (same_token (m + 1)).whenAt (needs_seesAny ["in", "out"])
  have hitem : SameBelow 0 (m + 1) 0 (build .typeParameter _) _ :=
    (((same_attributeLists hg).append hvariance).append (same_name _)).build
  exact (((same_mark _ "<").append hitem.one.commaList).append (same_mark _ ">")).build

theorem same_baseList : SameBelow 0 (m + 1) 0 (baseList g) (baseList h) := by
  have hcall := (same_argumentList hg).lower.one.whenAt (needs_zero (sees "("))
  have hitem : SameBelow 0 m 0 (build .baseType _) _ := (hg.type.one.append hcall).build
  exact ((same_mark _ ":").follow hitem.one.commaList).build

theorem same_arrowClause : SameBelow 0 (m + 1) 0 (arrowClause g) (arrowClause h) :=
  ((same_mark _ "=>").follow hg.expression.one).build

theorem same_memberBody : SameBelow 0 (m + 1) 0 (memberBody g) (memberBody h) :=
  (same_block hg).one.ifAt (needs_zero _)
    (((same_arrowClause hg).one.append (same_mark _ ";")).ifAt (needs_zero _) (same_mark _ ";"))

theorem same_declaratorAfter (head : List Element) :
    SameBelow 0 (m + 1) 0 (declaratorAfter g head) (declaratorAfter h head) := by
  have hindex := (same_bracketedArguments hg).one.whenAt (needs_zero (sees "["))
  have hvalue := (same_equalsValue hg).one.whenAt (needs_zero (sees "="))
  exact ((hindex.given_append head).append hvalue).build

theorem same_declarator : SameBelow 0 (m + 1) 0 (declarator g) (declarator h) :=
  ((same_name _).bind fun head => same_declaratorAfter hg head).stay

theorem same_variableDeclaration :
    SameBelow 0 (m + 1) 0 (variableDeclaration g) (variableDeclaration h) :=
  ((same_typeOf hg).one.append (same_declarator hg).one.commaList).build

/-! ## Members -/

theorem same_typeBody : SameBelow 0 (m + 1) 0 (typeBody g) (typeBody h) := by
  have hmembers := hg.member.one.repeatWhile (needs_zero fun c => !c.atBodyEnd)
  have hend := (same_token m).whenAt (needs_sees ";")
  exact (same_token _).ifAt (needs_sees ";")
    ((((same_mark _ _).follow hmembers).follow (same_mark _ _)).follow hend)

theorem same_typeDeclaration (kind : Kind) (head : List Element) :
    SameBelow 0 (m + 1) 0 (typeDeclaration g kind head) (typeDeclaration h kind head) := by
  have hflavor : Needs (fun c => kind == .recordDeclaration && c.seesAny ["class", "struct"]) 1 :=
    (needs_seesAny _).and_right
  have hstart := (((same_tokenIfAny (m + 1)).given_append head).append
    ((same_token _).whenAt hflavor)).append (same_name _)
  have hlists := ((hstart.append ((same_typeParameters hg).one.whenAt (needs_zero (sees "<")))).append
    ((same_parameterList hg).one.whenAt (needs_zero (sees "(")))).append
    ((same_baseList hg).one.whenAt (needs_zero (sees ":")))
  exact ((hlists.append ((makes_constraints.one.same _).whenAt (needs_zero (sees "where")))).append
    (same_typeBody hg)).build

theorem same_enumDeclaration (head : List Element) :
    SameBelow 0 (m + 1) 0 (enumDeclaration g head) (enumDeclaration h head) := by
  have hbases := (same_baseList hg).one.whenAt (needs_zero (sees ":"))
  have hstart := (((same_mark (m + 1) "enum").given_append head).append (same_name _)).append hbases
  exact (((hstart.append (same_check _ _ _)).append (makes_rawGroup.one.same _)).append
    ((same_token _).whenAt (needs_sees ";"))).build

theorem same_constructorInitializer :
    SameBelow 0 (m + 1) 0 (constructorInitializer g) (constructorInitializer h) :=
  ((((same_tokenIfAny _).append (same_check _ _ _)).append (same_tokenIfAny _)).append
    (same_argumentList hg).one).build

theorem same_constructorDeclaration (head : List Element) :
    SameBelow 0 (m + 1) 0 (constructorDeclaration g head) (constructorDeclaration h head) := by
  have hother := (same_constructorInitializer hg).one.whenAt (needs_zero (sees ":"))
  have hstart := ((((same_token (m + 1)).whenAt (needs_sees "~")).given_append head).append
    (same_name _)).append (same_parameterList hg).one
  exact ((hstart.append hother).append (same_memberBody hg)).build

theorem same_methodDeclaration (head : List Element) :
    SameBelow 0 (m + 1) 0 (methodDeclaration g head) (methodDeclaration h head) := by
  have hgenerics := (same_typeParameters hg).one.whenAt (needs_zero (sees "<"))
  have hconstraints := (makes_constraints.one.same (m + 1)).whenAt (needs_zero (sees "where"))
  exact ((((hgenerics.given_append head).append (same_parameterList hg).one).append
    hconstraints).append (same_memberBody hg)).build

theorem same_propertyDeclaration (head : List Element) :
    SameBelow 0 (m + 1) 0 (propertyDeclaration g head) (propertyDeclaration h head) := by
  have harrow := (same_arrowClause hg).one.append (same_mark _ ";")
  have haccessors : SameBelow 0 (m + 1) 0 (build .accessorList group) _ := (takes_group.same _).build
  have hvalue := ((same_equalsValue hg).one.append (same_mark _ ";")).whenAt (needs_zero (sees "="))
  exact ((harrow.ifAt (needs_zero _) (haccessors.one.append hvalue)).given_append head).build

theorem same_fieldDeclaration (head : List Element) (type : Node) (first : List Element) :
    SameBelow 0 (m + 1) 0 (fieldDeclaration g head type first)
      (fieldDeclaration h head type first) := by
  have hmore := ((same_token _).append (same_declarator hg).one).repeatWhile (needs_sees ",")
  have hdeclaration : SameBelow 0 (m + 1) 0 (build .variableDeclaration _) _ :=
    (((same_declaratorAfter hg first).one.given_append [.node type]).append hmore).build
  exact ((hdeclaration.one.given_append head).append (same_mark _ ";")).build

theorem same_typedMember (head : List Element) :
    SameBelow 0 (m + 1) 0 (typedMember g head) (typedMember h head) := by
  refine (same_typeOf hg).bind fun type => ?_
  refine ((takes_explicitInterface.same _).bind fun qualifier => SameBelow.get fun c => ?_).stay
  split
  · exact same_fail 0 (m + 1) 0 _
  refine ((same_name _).bind fun own => SameBelow.get fun c => ?_).stay
  dsimp only
  split
  · exact same_methodDeclaration hg _
  split
  · exact same_propertyDeclaration hg _
  split
  · exact same_fail 0 (m + 1) 0 _
  · exact same_fieldDeclaration hg head type own

theorem same_knownMember : SameBelow 0 (m + 1) 0 (knownMember g) (knownMember h) := by
  have hhead := (same_attributeLists hg).append
    ((makes_modifiers memberModifiers contextualModifiers).one.same (m + 1))
  refine hhead.bind fun head => SameBelow.get fun c => ?_
  cases typeDeclarationKind? c with
  | some kind => exact same_typeDeclaration hg kind head
  | none =>
    dsimp only
    split
    · exact same_enumDeclaration hg head
    split
    · exact same_fail 0 (m + 1) 0 _
    split
    · exact same_constructorDeclaration hg head
    · exact same_typedMember hg head

theorem same_memberOf : SameBelow 0 (m + 1) 0 (memberOf g) (memberOf h) :=
  (same_knownMember hg).recover ((makes_rawRun rfl rfl).same _)

/-! ## Statements -/

omit hg in
theorem length_dropLocalModifiers_le (ts : List Token) :
    (dropLocalModifiers ts).length ≤ ts.length := by
  fun_induction dropLocalModifiers ts with
  | case1 t u ts _ ih => exact Nat.le_succ_of_le ih
  | case2 | case3 => exact Nat.le_refl _

theorem sameTest_atLocalFunction : SameTest (m + 1) (atLocalFunction g) (atLocalFunction h) := by
  intro c hc hless
  have hle := length_dropLocalModifiers_le c.ahead
  have hleads : SameTest (m + 1) ((typeOf g).leadsTo (atNameThen "("))
      ((typeOf h).leadsTo (atNameThen "(")) := (same_typeOf hg).leadsTo
  have hstart := @hleads { c with ahead := dropLocalModifiers c.ahead } hc
    (Nat.lt_of_le_of_lt hle hless)
  simp only [atLocalFunction, hstart]

theorem sameTest_atLocalDeclaration :
    SameTest (m + 1) (atLocalDeclaration g) (atLocalDeclaration h) := by
  intro c hc hless
  simp only [atLocalDeclaration, (same_typeOf hg).leadsTo hc hless]

theorem same_condition : SameBelow 0 (m + 1) 1 (condition g) (condition h) :=
  ((same_mark _ "(").follow hg.expression.one).follow (same_mark _ ")")

omit hg in
theorem same_rawParentheses : SameBelow 0 m 0 rawParentheses rawParentheses :=
  (takes_rawParentheses.same m).stay

theorem same_ifStatement : SameBelow 0 (m + 1) 0 (ifStatement g) (ifStatement h) := by
  have hotherwise : SameBelow 1 (m + 1) 0 (build .elseClause (token ++ one g.statement)) _ :=
    ((same_token _).follow hg.statement.one).build
  exact ((((same_mark _ "if").append (same_condition hg)).follow hg.statement.one).append
    (hotherwise.one.whenAt (needs_sees "else"))).build

theorem same_whileStatement : SameBelow 1 (m + 1) 0 (whileStatement g) (whileStatement h) :=
  (((same_token _).append (same_condition hg)).follow hg.statement.one).build

theorem same_doStatement : SameBelow 1 (m + 1) 0 (doStatement g) (doStatement h) :=
  (((((same_token _).follow hg.statement.one).append (same_mark _ "while")).append
    (same_condition hg)).append (same_mark _ ";")).build

theorem same_forStatement : SameBelow 1 (m + 1) 0 (forStatement g) (forStatement h) :=
  (((same_token _).append same_rawParentheses).follow hg.statement.one).build

theorem same_forEachStatement (lead : Nat) :
    SameBelow lead (m + 1) 0 (forEachStatement g lead) (forEachStatement h lead) := by
  have hfront := ((takes_take lead).same (m + 1)).reach (same_mark _ "foreach")
  have hheader := (((((same_mark (m + 1) "(").follow hg.type.one).append (same_name _)).append
    (same_mark _ "in")).follow hg.expression.one).append (same_mark _ ")")
  exact ((hfront.append (hheader.orElse same_rawParentheses)).follow hg.statement.one).build

theorem same_catchClause : SameBelow 1 (m + 1) 0 (catchClause g) (catchClause h) := by
  have hname := (same_token (m + 1)).whenAt needs_atName
  have hdeclaration : SameBelow 1 (m + 1) 0 (build .catchDeclaration _) _ :=
    ((((same_token _).follow hg.type.one).append hname).append (same_mark _ ")")).build
  have hfilter : SameBelow 1 (m + 1) 0 (build .catchFilter (token ++ condition g)) _ :=
    ((same_token _).append (same_condition hg)).build
  exact ((((same_token _).append (hdeclaration.one.whenAt (needs_sees "("))).append
    (hfilter.one.whenAt (needs_isName "when"))).append (same_block hg).one).build

theorem same_tryStatement : SameBelow 0 (m + 1) 0 (tryStatement g) (tryStatement h) := by
  have hfinally : SameBelow 1 (m + 1) 0 (build .finallyClause (token ++ one (block g))) _ :=
    ((same_token _).append (same_block hg).one).build
  have hcatches := (same_catchClause hg).one.repeatWhile (needs_sees "catch")
  exact ((((same_mark _ "try").append (same_block hg).one).append hcatches).append
    (hfinally.one.whenAt (needs_sees "finally"))).build

theorem same_switchSection : SameBelow 0 m 0 (switchSection g) (switchSection h) := by
  have hlabels := (makes_switchLabel.one.same m).repeatWhile needs_atSwitchLabel
  exact (((same_check m _ _).append hlabels).append
    (hg.statement.one.repeatWhile (needs_zero _))).build

theorem same_switchStatement : SameBelow 0 (m + 1) 0 (switchStatement g) (switchStatement h) := by
  have hsections := (same_switchSection hg).one.repeatWhile (needs_zero fun c => !c.atBodyEnd)
  exact (((((same_mark _ "switch").append (same_condition hg)).append (same_mark _ _)).follow
    hsections).append (same_mark _ _)).build

theorem same_exitStatement (kind : Kind) :
    SameBelow 1 (m + 1) 0 (exitStatement g kind) (exitStatement h kind) :=
  (((same_token _).follow (hg.expression.one.whenAt (needs_zero _))).append (same_mark _ ";")).build

theorem same_yieldStatement : SameBelow 1 (m + 1) 0 (yieldStatement g) (yieldStatement h) := by
  have hreturn := ((same_token m).append hg.expression.one).ifAt (needs_sees "return")
    (same_tokenIfAny m)
  exact (((same_token _).follow hreturn).append (same_mark _ ";")).build

theorem same_localDeclaration (lead : Nat) :
    SameBelow lead (m + 1) 0 (localDeclaration g lead) (localDeclaration h lead) :=
  ((((takes_take lead).same _).append (same_variableDeclaration hg).one).append
    (same_mark _ ";")).build

theorem same_usingStatement (lead : Nat) :
    SameBelow (lead + 1) (m + 1) 0 (usingStatement g lead) (usingStatement h lead) := by
  have hlocal : SameTest m (atLocalDeclaration g) (atLocalDeclaration h) :=
    fun _ hc hless => sameTest_atLocalDeclaration hg hc (Nat.lt_succ_of_lt hless)
  have hresource := SameBelow.choose hlocal (needs_zero _)
    (same_variableDeclaration hg).lower.one hg.expression.one
  have hgroup := (((same_take (Nat.le_add_left 1 (lead + 1))).follow hresource).append
    (same_mark _ ")")).follow hg.statement.one
  exact hgroup.build.ifAt (needs_seesAt (lead + 1) "(") (same_localDeclaration hg (lead + 1))

theorem same_plainStatement : SameBelow 0 (m + 1) 0 (plainStatement g) (plainStatement h) := by
  refine SameBelow.choose (sameTest_atLocalFunction hg) (needs_zero _) (same_memberOf hg) ?_
  refine SameBelow.choose (sameTest_atLocalDeclaration hg) (needs_zero _)
    (same_localDeclaration hg 0) ?_
  exact ((same_expressionOf hg).one.append (same_mark _ ";")).build

theorem same_knownStatement : SameBelow 0 (m + 1) 0 (knownStatement g) (knownStatement h) := by
  have hguarded := ((same_token (m + 1)).append same_rawParentheses).follow hg.statement.one
  have hchecked := (same_token (m + 1)).append (same_block hg).one
  refine SameBelow.ite (needs_zero _) (same_block hg) ?_
  refine SameBelow.ite (needs_sees _) (same_token _).build ?_
  refine SameBelow.ite (needs_zero _) (same_ifStatement hg) ?_
  refine SameBelow.ite (needs_sees _) (same_whileStatement hg) ?_
  refine SameBelow.ite (needs_sees _) (same_doStatement hg) ?_
  refine SameBelow.ite (needs_sees _) (same_forStatement hg) ?_
  refine SameBelow.ite (needs_zero _) (same_forEachStatement hg 0) ?_
  refine SameBelow.ite (needs_zero _) (same_tryStatement hg) ?_
  refine SameBelow.ite (needs_zero _) (same_switchStatement hg) ?_
  refine SameBelow.ite (needs_sees _) (same_exitStatement hg _) ?_
  refine SameBelow.ite (needs_sees _) (same_exitStatement hg _) ?_
  refine SameBelow.ite (needs_zero _) (makes_jumpStatement.same _) ?_
  refine SameBelow.ite (needs_sees _).and_left (same_yieldStatement hg) ?_
  refine SameBelow.ite (needs_seesAny _) hguarded.build ?_
  refine SameBelow.ite (needs_sees _) (same_usingStatement hg 0) ?_
  refine SameBelow.ite (needs_seesAt 1 _).and_right (same_usingStatement hg 1) ?_
  refine SameBelow.ite (needs_sees _).and_left (same_forEachStatement hg 1) ?_
  refine SameBelow.ite (needs_seesAny _).and_left hchecked.build ?_
  exact SameBelow.ite (needs_sees _) (same_localDeclaration hg 1) (same_plainStatement hg)

theorem same_statementOf : SameBelow 0 (m + 1) 0 (statementOf g) (statementOf h) :=
  (same_knownStatement hg).recover ((makes_rawRun rfl rfl).same _)

/-! ## Files and namespaces -/

theorem same_usingDirective : SameBelow 0 (m + 1) 0 (usingDirective g) (usingDirective h) := by
  have hglobal := (same_token (m + 1)).whenAt (needs_sees "global")
  have hstatic := (same_token (m + 1)).whenAt (needs_sees "static")
  have halias := ((same_token (m + 1)).append (same_tokenIfAny _)).whenAt
    ((needs_atNameThen "=").mono (by decide))
  exact (((((hglobal.append (same_mark _ "using")).append hstatic).append halias).append
    (same_typeOf hg).one).append (same_mark _ ";")).build

theorem same_namespaceDeclaration :
    SameBelow 0 (m + 1) 0 (namespaceDeclaration g) (namespaceDeclaration h) := by
  have hhead := (same_mark (m + 1) "namespace").append (same_typeName hg).one
  have hmembers (test : Cursor → Bool) := hg.scopeMember.one.repeatWhile (needs_zero test)
  refine (hhead.bind_after fun head => SameBelow.get fun c => ?_).stay
  split
  · exact (((same_tokenIfAny m).given_append head).append (hmembers _)).build
  · exact (((((same_mark m _).given_append head).append (hmembers _)).append (same_mark m _)).append
      ((same_token m).whenAt (needs_sees ";"))).build

theorem same_scopeMemberOf : SameBelow 0 (m + 1) 0 (scopeMemberOf g) (scopeMemberOf h) := by
  refine SameBelow.ite (needs_zero _) (same_usingDirective hg) ?_
  refine SameBelow.ite (needs_zero _) (same_namespaceDeclaration hg) ?_
  exact SameBelow.ite (needs_zero _) (same_attributeList hg) (same_memberOf hg)

theorem same_compilationUnit : SameBelow 0 m 0 (compilationUnit g) (compilationUnit h) :=
  ((hg.scopeMember.one.repeatWhile (needs_zero _)).append (same_tokenIfAny m)).build

/-! ## Grammars of every depth -/

theorem AlikeBelow.deepen : AlikeBelow (m + 1) (deepen g) (deepen h) where
  type := same_typeOf hg
  expression := same_expressionOf hg
  operand := same_unary hg
  binary := same_binaryOf hg
  initializer := same_initializerOf hg
  statement := same_statementOf hg
  member := same_memberOf hg
  scopeMember := same_scopeMemberOf hg

end Productions

/-- Without a token less than none ahead there is nothing to do. -/
theorem alikeBelow_zero (g h : Grammar) : AlikeBelow 0 g h where
  type _ _ _ hless := absurd hless (Nat.not_lt_zero _)
  expression _ _ _ hless := absurd hless (Nat.not_lt_zero _)
  operand _ _ _ hless := absurd hless (Nat.not_lt_zero _)
  binary _ _ _ _ hless := absurd hless (Nat.not_lt_zero _)
  initializer _ _ _ hless := absurd hless (Nat.not_lt_zero _)
  statement _ _ _ hless := absurd hless (Nat.not_lt_zero _)
  member _ _ _ hless := absurd hless (Nat.not_lt_zero _)
  scopeMember _ _ _ hless := absurd hless (Nat.not_lt_zero _)

/-- Constructs nested up to `n` deep, with those of a given grammar at the bottom. -/
def nestingOver (bottom : Grammar) : Nat → Grammar
  | 0 => bottom
  | n + 1 => deepen (nestingOver bottom n)

/-- Whatever stands at the bottom, it is not reached with fewer tokens ahead than the depth. -/
theorem alikeBelow_nestingOver (bottom : Grammar) (n : Nat) :
    AlikeBelow n (nestingOver bottom n) (nesting n) := by
  induction n with
  | zero => exact alikeBelow_zero _ _
  | succ n ih => exact ih.deepen

end Recast.Grammar
