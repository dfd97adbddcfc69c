-- SUMMARY: The productions for names, types and expressions return the tokens that they take, each once and in order, in nodes whose parts fit.
import Mathlib.Logic.Basic
import Recast.Grammar.Expression
import Recast.Proofs.Grammar.Reading

/-! # Reading expressions

One fact for each production, in the order of the grammar: given entry points that return what
they take, the production does too. The proofs follow the productions part by part, so a change
of a production is a change of one proof. -/

namespace Recast.Grammar

open Recast.Parser Recast.Cursor

/-- No binary operator of at least this precedence comes next. -/
def Below (least : Nat) (c : Cursor) : Prop :=
  ∀ precedence width, binaryOperator? c = some (precedence, width) → precedence < least

/-- The least precedence in the right operand of an operator. -/
def rightLeast (precedence : Nat) : Nat :=
  if precedence = coalescing then precedence else precedence + 1

/-- All entry points return what they take, in a node that has tokens and wraps nothing. A chain of
    operators holds only what binds as tight as asked, and leaves none of it. -/
structure Sound (g : Grammar) : Prop where
  type : Makes 0 1 1 g.type
  expression : Makes 0 1 1 g.expression
  operand : Makes 0 1 1 g.operand
  binary : ∀ least, Makes 0 1 1 (g.binary least)
  bounds : ∀ least ⦃c n d⦄, c.Closed → g.binary least c = .ok (n, d) →
    (∀ precedence width, n.operator? = some (precedence, width) → least ≤ precedence) ∧
      Below least d
  initializer : Makes 0 1 1 g.initializer
  statement : Makes 0 1 1 g.statement
  member : Makes 0 1 1 g.member
  scopeMember : Makes 0 1 1 g.scopeMember

variable {g : Grammar} (hg : g.Sound)

include hg

/-! ## Names and types -/

theorem makes_typeArguments : Makes 0 1 1 (typeArguments g) :=
  (((takes_mark "<").append (hg.type.one.whenAt (needs_zero _)).commaList).append
    (takes_mark ">")).build (by decide) (by decide) rfl

theorem makes_simpleTypeName : Makes 0 1 1 (simpleTypeName g) := by
  have hgeneric : Makes 0 1 1 (build .genericName (name ++ one (typeArguments g))) :=
    (takes_name.append (makes_typeArguments hg).one).build (by decide) (by decide) rfl
  have hplain : Makes 0 1 1 (build .identifierName name) :=
    takes_name.build (by decide) (by decide) rfl
  exact hgeneric.ifAt (needs_zero _) hplain

theorem extends_qualifiedName : Extends (fun _ _ => True) fun c =>
    if c.sees "." && (c.nth 1).kind == .identifier then
      some (.qualifiedName, token ++ one (simpleTypeName g))
    else none := by
  refine extends_plain fun c kind rest hc h => ?_
  split at h
  · rename_i hdot
    obtain ⟨rfl, rfl⟩ := Prod.mk.inj (Option.some.inj h)
    simp only [Bool.and_eq_true] at hdot
    refine ⟨?_, rfl, rfl⟩
    exact ((takes_token.append (makes_simpleTypeName hg).one) hc (needs_sees "." hc hdot.1)).mono
      (by decide) (by decide)
  · cases h

theorem makes_typeName : Makes 0 1 1 (typeName g) := by
  have halias : Makes 2 1 1
      (build .aliasQualifiedName (token ++ token ++ one (simpleTypeName g))) :=
    (takes_token.token_append.append (makes_simpleTypeName hg).one).build
      (by decide) (by decide) rfl
  have hfirst := halias.ifAt (needs_atNameThen "::") (makes_simpleTypeName hg)
  exact ((extends_qualifiedName hg).grow hfirst.first).makes

theorem makes_tupleElement :
    Makes 0 1 2 (build .tupleElement (one g.type ++ whenAt atName token)) :=
  (hg.type.one.append (takes_token.whenAt needs_atName)).build (by decide) (by decide) rfl

theorem makes_tupleType : Makes 0 1 1 (tupleType g) :=
  (((takes_mark "(").append (makes_tupleElement hg).one.commaList).append (takes_mark ")")).build
    (by decide) (by decide) rfl

omit hg in
theorem needs_atRank : Needs atRank 2 := by
  intro c hc h
  simp only [atRank, Bool.and_eq_true, Bool.or_eq_true] at h
  rcases h.2 with h | h
  · exact needs_seesAt 1 "]" hc h
  · exact needs_seesAt 1 "," hc h

omit hg in
theorem makes_rank : Makes 1 1 1 rank :=
  ((takes_token.append (takes_token.repeatWhile (needs_sees ","))).append
    (takes_mark "]")).build (by decide) (by decide) rfl

omit hg in
theorem extends_typeSuffix : Extends (fun _ _ => True) typeSuffix := by
  refine extends_plain fun c kind rest hc h => ?_
  simp only [typeSuffix] at h
  split at h
  · rename_i hmark
    obtain ⟨rfl, rfl⟩ := Prod.mk.inj (Option.some.inj h)
    exact ⟨(takes_token hc (needs_sees "?" hc hmark)).mono (by decide) (by decide), rfl, rfl⟩
  · split at h
    · rename_i hrank
      obtain ⟨rfl, rfl⟩ := Prod.mk.inj (Option.some.inj h)
      have hranks := makes_rank.one.repeatWhile_of_test (needs_atRank.mono (by decide)) hc hrank
      exact ⟨hranks.mono (by decide) (by decide), rfl, rfl⟩
    · cases h

omit hg in
theorem needs_isPredefinedType : Needs (fun c => isPredefinedType c.current) 1 := by
  intro c hc h
  refine pos_of_current hc fun hend => ?_
  simp [isPredefinedType, hend] at h

omit hg in
/-- A node over the next token. -/
theorem makes_build_token {kind : Kind} (hplain : kind.isGrown = false) :
    Makes 1 1 (kind.level + 1) (build kind token) :=
  takes_token.build (.inr (by decide)) (by decide) hplain

theorem makes_typeOf : Makes 0 1 1 (typeOf g) := by
  refine (extends_typeSuffix.grow (Makes.first ?_)).makes
  intro c hc hready n d h
  simp only at h
  split at h
  · exact makes_tupleType hg hc hready h
  · split at h
    · rename_i hpredefined
      exact makes_build_token rfl hc (needs_isPredefinedType hc hpredefined) h
    · exact makes_typeName hg hc hready h

/-! ## Blocks, arguments, values -/

theorem makes_block : Makes 0 1 1 (block g) :=
  (((takes_mark _).append (hg.statement.one.repeatWhile (needs_zero _))).append
    (takes_mark _)).build (by decide) (by decide) rfl

theorem takes_initializerItem :
    Takes 0 1 1 (ifAt (sees Token.openBrace) (one g.initializer) (one g.expression)) :=
  hg.initializer.one.ifAt (needs_zero _) hg.expression.one

theorem makes_initializerOf : Makes 0 1 1 (initializerOf g) :=
  (((takes_mark _).append ((takes_initializerItem hg).openList _)).append (takes_mark _)).build
    (by decide) (by decide) rfl

theorem takes_value : Takes 0 1 1 (value g) :=
  (makes_initializerOf hg).one.ifAt (needs_zero _) hg.expression.one

theorem makes_equalsValue : Makes 0 1 1 (equalsValue g) :=
  ((takes_mark "=").append (takes_value hg)).build (by decide) (by decide) rfl

theorem makes_declarationArgument : Makes 0 1 1 (declarationArgument g) :=
  ((hg.type.one.append takes_name).append (takes_check _ _)).build (by decide) (by decide) rfl

theorem makes_argument : Makes 0 1 2 (argument g) := by
  have hlabel : Takes 0 0 0 (whenAt (atNameThen ":") (token ++ token)) :=
    takes_token.token_append.whenAt (needs_atNameThen ":")
  have hpassed : Takes 1 3 1
      (token ++ orElse (one (declarationArgument g)) (one g.expression)) :=
    ((makes_declarationArgument hg).one.orElse hg.expression.one).token_append
  have hvalue := hpassed.ifAt (needs_seesAny ["ref", "out", "in"]) hg.expression.one
  exact (hlabel.append hvalue).build (by decide) (by decide) rfl

theorem makes_argumentList : Makes 0 1 1 (argumentList g) :=
  ((makes_argument hg).one.bracketed "(" ")").build (by decide) (by decide) rfl

theorem makes_bracketedArguments : Makes 0 1 1 (bracketedArguments g) :=
  ((makes_argument hg).one.bracketed "[" "]").build (by decide) (by decide) rfl

/-! ## Attributes and parameters -/

theorem makes_attributeArgument : Makes 0 1 2 (attributeArgument g) := by
  have hlabel := takes_token.token_append.whenAt
    ((needs_atNameThen "=").or (needs_atNameThen ":"))
  exact (hlabel.append hg.expression.one).build (by decide) (by decide) rfl

theorem makes_attributeArguments : Makes 0 1 1 (attributeArguments g) :=
  ((makes_attributeArgument hg).one.bracketed "(" ")").build (by decide) (by decide) rfl

theorem makes_attributeOf : Makes 0 1 2 (attributeOf g) :=
  ((makes_typeName hg).one.append
    ((makes_attributeArguments hg).one.whenAt (needs_zero _))).build (by decide) (by decide) rfl

theorem makes_attributeList : Makes 0 1 1 (attributeList g) := by
  have htarget : Makes 2 1 1 (build .attributeTargetSpecifier (token ++ token)) :=
    takes_token.token_append.build (by decide) (by decide) rfl
  have hitem := (makes_attributeOf hg).one
  have hmore := (hitem.openList "]").token_append.whenAt (needs_sees ",")
  exact (((((takes_mark "[").append (htarget.one.whenAt (needs_seesAt 1 ":").and_right)).append
    hitem).append hmore).append (takes_mark "]")).build (by decide) (by decide) rfl

theorem takes_attributeLists : Takes 0 0 1 (attributeLists g) :=
  (makes_attributeList hg).one.repeatWhile (needs_zero _)

omit hg in
theorem needs_atModifier (reserved contextual : List String) :
    Needs (atModifier reserved contextual) 1 := by
  intro c hc h
  refine pos_of_current hc fun hend => ?_
  simp [atModifier, hend] at h

omit hg in
/-- The modifiers may be none, so their node may be without tokens. -/
theorem makes_modifiers (reserved contextual : List String) :
    Makes 0 0 1 (modifiers reserved contextual) :=
  (takes_token.repeatWhile (needs_atModifier reserved contextual)).build
    (by decide) (by decide) rfl

theorem makes_parameter : Makes 0 1 1 (parameter g) :=
  (((((takes_attributeLists hg).append (makes_modifiers _ _).one).append hg.type.one).append
    takes_name).append ((makes_equalsValue hg).one.whenAt (needs_zero _))).build
    (by decide) (by decide) rfl

theorem makes_parameterList : Makes 0 1 1 (parameterList g) :=
  ((makes_parameter hg).one.bracketed "(" ")").build (by decide) (by decide) rfl

/-! ## Lambdas -/

omit hg in
/-- The tokens in front of the parameters of a lambda, and the first one of these. -/
theorem needs_lambdaHead {c : Cursor} (hc : c.Closed) {head : LambdaHead}
    (h : lambdaHead? c = some head) :
    (if head.isAsync then 1 else 0) + 1 ≤ c.ahead.length := by
  have hsimple : ∀ n, ((c.nth n).kind == .identifier && c.seesAt (n + 1) "=>") = true →
      n + 1 ≤ c.ahead.length := by
    intro n hn
    have := needs_seesAt (n + 1) "=>" hc (Bool.and_eq_true_iff.1 hn).2
    omega
  have hlist : ∀ n, (c.seesAt n "(" && arrowAfter 0 (c.ahead.drop n)) = true →
      n + 1 ≤ c.ahead.length :=
    fun n hn => needs_seesAt n "(" hc (Bool.and_eq_true_iff.1 hn).1
  simp only [lambdaHead?] at h
  generalize (c.current.isName "async" && _) = isAsync at h
  generalize hstart : (if isAsync = true then 1 else 0) = start at h
  split at h
  · rename_i htest
    obtain rfl := Option.some.inj h
    exact hstart ▸ hsimple start htest
  · split at h
    · rename_i htest
      obtain rfl := Option.some.inj h
      exact hstart ▸ hlist start htest
    · cases h

theorem makes_lambdaParameter (typed : Cursor → Bool) : Makes 0 1 1
    (build .parameter (one (build .modifiers
      (repeatWhile (seesAny ["ref", "out", "in", "params"]) token)) ++ whenAt typed (one g.type)
      ++ name)) := by
  have hmodes : Makes 0 0 1
      (build .modifiers (repeatWhile (seesAny ["ref", "out", "in", "params"]) token)) :=
    (takes_token.repeatWhile (needs_seesAny _)).build (by decide) (by decide) rfl
  exact ((hmodes.one.append (hg.type.one.whenAt (needs_zero typed))).append takes_name).build
    (by decide) (by decide) rfl

theorem makes_lambdaParameters : Makes 0 1 1 (lambdaParameters g) :=
  (((takes_mark "(").append ((makes_lambdaParameter hg _).one.openList ")")).append
    (takes_mark ")")).build (by decide) (by decide) rfl

omit hg in
/-- A parameter of which only the name is written; its modifiers are empty. -/
theorem makes_bareParameter :
    Makes 1 1 1 (build .parameter (one (build .modifiers (given [])) ++ token)) := by
  have hnone : Makes 0 0 1 (build .modifiers (given [])) :=
    takes_nil.build (by decide) (by decide) rfl
  have hparts : Takes 1 2 1 (one (build .modifiers (given [])) ++ token) := by
    intro c hc hready
    refine (hnone.one hc (Nat.zero_le _)).append_of hc ?_ takes_token
    intro parts d h
    obtain ⟨rfl, rfl⟩ := Prod.mk.inj (Except.ok.inj h)
    exact hready
  exact hparts.build (by decide) (by decide) rfl

theorem makes_lambda (head : LambdaHead) :
    Makes ((if head.isAsync then 1 else 0) + 1) 1 1 (lambda g head) := by
  have hbody := (makes_block hg).one.ifAt (needs_zero (sees Token.openBrace)) hg.expression.one
  obtain ⟨isAsync, isSimple⟩ := head
  cases isSimple with
  | true =>
    have hparts := ((makes_bareParameter.one.take_append (if isAsync then 1 else 0)).append
      (takes_mark "=>")).append hbody
    exact (hparts.build (.inr (by omega)) (by decide) rfl).mono (by simp; omega) (by omega)
      (Nat.le_refl _)
  | false =>
    have hparts := (((makes_lambdaParameters hg).one.take_append (if isAsync then 1 else 0)).append
      (takes_mark "=>")).append hbody
    exact (hparts.build (.inr (by omega)) (by decide) rfl).mono (by simp) (by omega)
      (Nat.le_refl _)

/-! ## Primary expressions -/

/-- A primary expression, which a suffix may follow. None is an operator with two operands. -/
abbrev IsPrimary (n : Node) (_ : Cursor) : Prop :=
  n.kind.isPrimary = true ∧ n.operator? = none

abbrev MakesPrimary (p : Parser Node) : Prop :=
  MakesFirst IsPrimary p

omit hg in
theorem isPrimary_ofChildren {kind : Kind} (hprimary : kind.isPrimary = true)
    (hplain : kind.isGrown = false) {c : Cursor} (parts : List Element) :
    IsPrimary (.ofChildren kind parts) c :=
  ⟨hprimary, Kind.operator?_of_isGrown hplain parts⟩

theorem makes_simpleName : MakesPrimary (simpleName g) := by
  intro c n d hc h
  have hname := takes_name hc (Nat.zero_le _)
  rcases orElse_eq_ok h with h | h
  · obtain ⟨m, e, hm, hrest⟩ := bind_eq_ok h
    obtain ⟨parts, e', hcheck, hpure⟩ := bind_eq_ok hrest
    obtain ⟨-, -, rfl⟩ := check_eq_ok hcheck
    obtain ⟨rfl, rfl⟩ := Prod.mk.inj (Except.ok.inj hpure)
    exact (hname.append hc (makes_typeArguments hg).one).extensible (by decide) (by decide)
      rfl rfl (isPrimary_ofChildren rfl rfl) hm
  · exact hname.extensible (by decide) (by decide) rfl rfl (isPrimary_ofChildren rfl rfl) h

theorem makes_keywordOperand {kind : Kind} (hplain : kind.isGrown = false) :
    Makes 1 1 (kind.level + 1) (keywordOperand g kind) :=
  (((takes_token.append (takes_mark "(")).append hg.type.one).append (takes_mark ")")).build
    (.inr (by decide)) (by decide) hplain

omit hg in
/-- The only part of an argument that has neither label nor mode, in the argument's place. -/
theorem headed_unwrap {start c : Cursor} {opening : List Element} {first : Node} {inner : Element}
    (h : Headed start c (opening ++ [.node first])) (hinner : first.children = [inner]) :
    Headed start c (opening ++ [inner]) := by
  have hbuilt : first.Built := h.reads.built first (by simp)
  have htokens : first.tokens = inner.tokens := by
    obtain ⟨kind, children, span, tags⟩ := first
    obtain rfl : children = [inner] := hinner
    exact List.append_nil _
  refine ⟨⟨?_, h.reads.finish, ?_⟩, ?_⟩
  · simpa [htokens] using h.reads.ahead
  · intro n hn
    rcases List.mem_append.1 hn with hn | hn
    · exact h.reads.built n (List.mem_append_left _ hn)
    · exact hbuilt.child (hinner ▸ hn)
  · intro n hn
    rcases List.mem_append.1 hn with hn | hn
    · exact h.level n (List.mem_append_left _ hn)
    · exact hbuilt.fits.noFile n (hinner ▸ hn)

theorem makes_parenthesized : MakesPrimary (parenthesized g) := by
  intro c n d hc h
  obtain ⟨opening, c₁, hopening, h⟩ := bind_eq_ok h
  obtain ⟨first, c₂, hfirst, h⟩ := bind_eq_ok h
  obtain ⟨_, _, hget, h⟩ := bind_eq_ok h
  obtain ⟨rfl, rfl⟩ := Prod.mk.inj (Except.ok.inj hget)
  have hmark := takes_mark "(" hc (Nat.zero_le _)
  have hargument := makes_argument hg ((hmark hopening).1.closed hc) (Nat.zero_le _)
  have hhead := (hmark.headed (by decide) hopening).append_node hargument (by decide) hfirst
  split at h
  · have hmore := (makes_argument hg).one.token_append.repeatWhile (needs_sees ",")
    have hparts := (hhead.given.append hc hmore).append hc (takes_mark ")")
    exact hparts.extensible (by omega) (by decide) rfl rfl (isPrimary_ofChildren rfl rfl) h
  · rcases hchildren : first.children with _ | ⟨inner, _ | ⟨next, more⟩⟩
    · rw [hchildren] at h
      cases h
    · rw [hchildren] at h
      have hparts := (headed_unwrap hhead hchildren).given.append hc (takes_mark ")")
      exact hparts.extensible (by omega) (by decide) rfl rfl (isPrimary_ofChildren rfl rfl) h
    · rw [hchildren] at h
      cases h

theorem takes_collectionItem : Takes 0 1 1
    (ifAt (sees "..") (one (build .prefixUnaryExpression (token ++ one g.expression)))
      (one g.expression)) := by
  have hspread : Makes 1 1 1 (build .prefixUnaryExpression (token ++ one g.expression)) :=
    (takes_token.append hg.expression.one).build (by decide) (by decide) rfl
  exact hspread.one.ifAt (needs_sees "..") hg.expression.one

theorem makes_collection : Makes 0 1 1 (collection g) :=
  (((takes_mark "[").append ((takes_collectionItem hg).openList "]")).append (takes_mark "]")).build
    (by decide) (by decide) rfl

theorem makes_sizes : Makes 1 1 1 (sizes g) :=
  ((takes_token.append ((hg.expression.one.whenAt (needs_zero _)).openList "]")).append
    (takes_mark "]")).build (by decide) (by decide) rfl

theorem makes_arrayCreation {start c : Cursor} {head : List Element} (hc : start.Closed)
    (hhead : Headed start c head) (hweight : 2 ≤ Element.weightIn head) :
    MakesFrom start c 1 1 (arrayCreation g head) := by
  have hsizes := (makes_sizes hg).one.repeatWhile (needs_sees "[")
  have hvalues := (makes_initializerOf hg).one.whenAt (needs_zero (sees Token.openBrace))
  exact ((hhead.given.append hc hsizes).append hc hvalues).build_heavy (by omega) (by decide) rfl rfl

theorem makes_tupleArrayType : Makes 0 1 1 (tupleArrayType g) := by
  intro c hc hready n d h
  obtain ⟨type, c₁, htype, h⟩ := bind_eq_ok h
  obtain ⟨_, _, hget, h⟩ := bind_eq_ok h
  obtain ⟨rfl, rfl⟩ := Prod.mk.inj (Except.ok.inj hget)
  split at h
  · obtain ⟨rfl, rfl⟩ := Prod.mk.inj (Except.ok.inj h)
    exact hg.type hc hready htype
  · cases h

theorem takes_creationTail : Takes 0 1 1 (creationTail g) := by
  have hvalues := (makes_initializerOf hg).one
  have hcall := (makes_argumentList hg).one.append
    (hvalues.whenAt (needs_zero (sees Token.openBrace)))
  exact hcall.ifAt (needs_zero _) (hvalues.ifAt (needs_zero _) (takes_fail 0 1 1 _))

theorem makes_creation : MakesPrimary (creation g) := by
  intro c n d hc h
  obtain ⟨head, c₁, hhead, h⟩ := bind_eq_ok h
  obtain ⟨_, _, hget, h⟩ := bind_eq_ok h
  obtain ⟨rfl, rfl⟩ := Prod.mk.inj (Except.ok.inj hget)
  have hmark := takes_mark "new" hc (Nat.zero_le _)
  have hclosed := (hmark hhead).1.closed hc
  have hweight := (hmark hhead).2.1
  have hheaded := hmark.headed (by decide) hhead
  have hvalues := (makes_initializerOf hg).one
  -- Both forms with a written type and brackets go on as the creation of an array.
  have harray : ∀ {type : Node} {c₂ : Cursor} {p : Parser Node}, Makes 0 1 1 p →
      p c₁ = .ok (type, c₂) → arrayCreation g (head ++ [.node type]) c₂ = .ok (n, d) →
      Extensible IsPrimary c d n := by
    intro type c₂ p hp htype h
    have htyped := hheaded.append_node (hp hclosed (Nat.zero_le _)) (by decide) htype
    have hheavy : 2 ≤ Element.weightIn (head ++ [.node type]) := by
      rw [Element.weightIn_append]
      omega
    exact (makes_arrayCreation hg hc htyped hheavy).extensible (isPrimary_ofChildren rfl rfl) h
  split at h
  · obtain ⟨result, c₂, hresult, h⟩ := bind_eq_ok h
    -- A parenthesis opens a tuple type, or arguments without a type.
    rcases orElse_eq_ok hresult with hresult | hresult
    · rw [map_eq_pure_bind] at hresult
      obtain ⟨type, c₃, htype, hresult⟩ := bind_eq_ok hresult
      obtain ⟨rfl, rfl⟩ := Prod.mk.inj (Except.ok.inj hresult)
      exact harray (makes_tupleArrayType hg) htype h
    · obtain ⟨rfl, rfl⟩ := Prod.mk.inj (Except.ok.inj hresult)
      have hparts := (hheaded.given.append hc (makes_argumentList hg).one).append hc
        (hvalues.whenAt (needs_zero (sees Token.openBrace)))
      exact hparts.extensible (by omega) (by decide) rfl rfl (isPrimary_ofChildren rfl rfl) h
  · split at h
    · rename_i hbracket
      have hopening := hheaded.given_append (takes_token hclosed (needs_sees "[" hclosed hbracket))
      have hparts := ((hopening.append hc (takes_token.repeatWhile (needs_sees ","))).append hc
        (takes_mark "]")).append hc hvalues
      exact hparts.extensible (by omega) (by decide) rfl rfl (isPrimary_ofChildren rfl rfl) h
    · split at h
      · have hparts := hheaded.given.append hc hvalues
        exact hparts.extensible (by omega) (by decide) rfl rfl (isPrimary_ofChildren rfl rfl) h
      · obtain ⟨type, c₂, htype, h⟩ := bind_eq_ok h
        obtain ⟨_, _, hget, h⟩ := bind_eq_ok h
        obtain ⟨rfl, rfl⟩ := Prod.mk.inj (Except.ok.inj hget)
        split at h
        · exact harray hg.type htype h
        · have htyped := hheaded.append_node (hg.type hclosed (Nat.zero_le _)) (by decide) htype
          have hparts := htyped.given.append hc (takes_creationTail hg)
          have hheavy : 2 ≤ Element.weightIn (head ++ [.node type]) := by
            rw [Element.weightIn_append]
            omega
          exact hparts.extensible (by omega) (by decide) rfl rfl (isPrimary_ofChildren rfl rfl) h

theorem makes_keywordPrimary : MakesPrimary (keywordPrimary g) := by
  intro c n d hc h
  -- A primary expression that is the next token, which the test has seen.
  have hsingle : ∀ {kind : Kind}, kind.level = 0 → kind.isGrown = false →
      kind.isPrimary = true → 1 ≤ c.ahead.length → build kind token c = .ok (n, d) →
      Extensible IsPrimary c d n :=
    fun hlevel hplain hprimary hready h => (takes_token hc hready).extensible (by decide) (by decide)
      hlevel hplain (isPrimary_ofChildren hprimary hplain) h
  have hcheap := Nat.zero_le c.ahead.length
  simp only [keywordPrimary] at h
  rcases ite_eq_iff.1 h with ⟨htest, h⟩ | ⟨-, h⟩
  · exact hsingle rfl rfl rfl (needs_seesAny _ hc htest) h
  rcases ite_eq_iff.1 h with ⟨htest, h⟩ | ⟨-, h⟩
  · have hready := needs_sees _ hc htest
    rcases ite_eq_iff.1 h with ⟨-, h⟩ | ⟨-, h⟩
    · exact (makes_keywordOperand hg rfl hc hready).extensible (isPrimary_ofChildren rfl rfl) h
    · exact hsingle rfl rfl rfl hready h
  rcases ite_eq_iff.1 h with ⟨htest, h⟩ | ⟨-, h⟩
  · exact (makes_keywordOperand hg rfl hc (needs_seesAny _ hc htest)).extensible
      (isPrimary_ofChildren rfl rfl) h
  rcases ite_eq_iff.1 h with ⟨htest, h⟩ | ⟨-, h⟩
  · have hparts := ((takes_token.append (takes_mark "(")).append hg.expression.one).append
      (takes_mark ")")
    exact (hparts hc (needs_seesAny _ hc htest)).extensible (by decide) (by decide) rfl rfl (isPrimary_ofChildren rfl rfl) h
  rcases ite_eq_iff.1 h with ⟨htest, h⟩ | ⟨-, h⟩
  · exact hsingle rfl rfl rfl (needs_sees _ hc htest) h
  rcases ite_eq_iff.1 h with ⟨htest, h⟩ | ⟨-, h⟩
  · exact hsingle rfl rfl rfl (needs_sees _ hc htest) h
  rcases ite_eq_iff.1 h with ⟨-, h⟩ | ⟨-, h⟩
  · exact makes_parenthesized hg hc h
  rcases ite_eq_iff.1 h with ⟨-, h⟩ | ⟨-, h⟩
  · exact (makes_collection hg hc hcheap).extensible (isPrimary_ofChildren rfl rfl) h
  rcases ite_eq_iff.1 h with ⟨-, h⟩ | ⟨-, h⟩
  · exact (makes_initializerOf hg hc hcheap).extensible (isPrimary_ofChildren rfl rfl) h
  rcases ite_eq_iff.1 h with ⟨-, h⟩ | ⟨-, h⟩
  · exact makes_creation hg hc h
  rcases ite_eq_iff.1 h with ⟨htest, h⟩ | ⟨-, h⟩
  · have hparts := (takes_token.append
      ((makes_parameterList hg).one.whenAt (needs_zero (sees "(")))).append (makes_block hg).one
    exact (hparts hc (needs_sees _ hc htest)).extensible (by decide) (by decide) rfl rfl (isPrimary_ofChildren rfl rfl) h
  rcases ite_eq_iff.1 h with ⟨htest, h⟩ | ⟨-, h⟩
  · exact hsingle rfl rfl rfl (needs_isPredefinedType hc htest) h
  · cases h

theorem makes_primary : MakesPrimary (primary g) := by
  intro c n d hc h
  simp only [primary] at h
  rcases ite_eq_iff.1 h with ⟨htest, h⟩ | ⟨-, h⟩
  · have hready : 1 ≤ c.ahead.length :=
      pos_of_current hc fun hend => by simp [Token.isLiteral, hend] at htest
    exact (takes_token hc hready).extensible (by decide) (by decide) rfl rfl (isPrimary_ofChildren rfl rfl) h
  rcases ite_eq_iff.1 h with ⟨-, h⟩ | ⟨-, h⟩
  · exact makes_simpleName hg hc h
  · exact makes_keywordPrimary hg hc h

omit hg in
/-- What ends in an initializer after `with` has no operator of the table. -/
theorem operator?_with {c d : Cursor} (hready : 1 ≤ c.ahead.length)
    (hwith : c.current.isName "with" = true) {p : Parser Node} {parts : List Element}
    (h : (token ++ one p) c = .ok (parts, d)) (left : Node) :
    Kind.operator? .binaryExpression (.node left :: parts) = none := by
  obtain ⟨xs, e, ys, hxs, hys, rfl⟩ := append_eq_ok h
  obtain ⟨t, rfl, hahead, -⟩ := token_eq_ok hready hxs
  obtain ⟨n, e', -, hys⟩ := bind_eq_ok hys
  obtain ⟨rfl, -⟩ := Prod.mk.inj (Except.ok.inj hys)
  have hcurrent : c.current = t := by simp [Cursor.current, Cursor.nth, hahead]
  rw [hcurrent, Token.isName, Bool.and_eq_true, beq_iff_eq, beq_iff_eq] at hwith
  simp [Kind.operator?, Element.leadingTokens, binaryOperator?, sees, seesAny, Cursor.current,
    Cursor.nth, Token.is, hwith.2]

theorem extends_primarySuffix : Extends IsPrimary (primarySuffix g) := by
  intro c kind rest hc h
  -- All suffixes are alike in what they leave: a primary expression that is no operator.
  have hsuffix : ∀ {kind' : Kind} {rest' : Piece} {w l : Nat}, some (kind', rest') = some (kind, rest) →
      TakesFrom c c w l rest' → 1 ≤ w → l ≤ 2 → kind'.level = 0 → kind'.isPrimary = true →
      (∀ left parts d, rest' c = .ok (parts, d) → kind'.operator? (.node left :: parts) = none) →
      TakesFrom c c 1 2 rest ∧ kind.level = 0 ∧ ∀ left, IsPrimary left c →
        (kind.isSuffixed = true → left.kind.isPrimary = true) ∧
        ∀ parts d, rest c = .ok (parts, d) → IsPrimary (.ofChildren kind (.node left :: parts)) d ∧
          ∀ precedence width, kind.operator? (.node left :: parts) = some (precedence, width) →
            Element.testsType (.node left :: parts) = false →
            Element.Ranked precedence width (.node left :: parts) := by
    intro kind' rest' w l heq htakes hw hl hlevel hprimary hnone
    obtain ⟨rfl, rfl⟩ := Prod.mk.inj (Option.some.inj heq)
    refine ⟨htakes.mono hw hl, hlevel, fun left hleft => ⟨fun _ => hleft.1, fun parts d hparts => ?_⟩⟩
    have hno := hnone left parts d hparts
    exact ⟨⟨hprimary, hno⟩, fun precedence width hsome => absurd (hno.symm.trans hsome) nofun⟩
  have hother : ∀ {kind' : Kind} {rest' : Piece}, kind' ≠ .binaryExpression →
      ∀ left parts d, rest' c = .ok (parts, d) → kind'.operator? (.node left :: parts) = none :=
    fun hne _ _ _ _ => Kind.operator?_of_ne hne _
  have hcheap := Nat.zero_le c.ahead.length
  simp only [primarySuffix] at h
  rcases ite_eq_iff.1 h with ⟨htest, h⟩ | ⟨-, h⟩
  · exact hsuffix h ((takes_token.append (makes_simpleName hg).makes.one) hc
      (needs_seesAny _ hc htest)) (by decide) (by decide) rfl rfl (hother nofun)
  rcases ite_eq_iff.1 h with ⟨-, h⟩ | ⟨-, h⟩
  · exact hsuffix h ((makes_argumentList hg).one hc hcheap) (by decide) (by decide) rfl rfl
      (hother nofun)
  rcases ite_eq_iff.1 h with ⟨-, h⟩ | ⟨-, h⟩
  · exact hsuffix h ((makes_bracketedArguments hg).one hc hcheap) (by decide) (by decide) rfl rfl
      (hother nofun)
  rcases ite_eq_iff.1 h with ⟨htest, h⟩ | ⟨-, h⟩
  · simp only [Bool.and_eq_true] at htest
    exact hsuffix h ((takes_token.append (makes_bracketedArguments hg).one) hc
      (needs_sees _ hc htest.1.1)) (by decide) (by decide) rfl rfl (hother nofun)
  rcases ite_eq_iff.1 h with ⟨htest, h⟩ | ⟨-, h⟩
  · exact hsuffix h (takes_token hc (needs_seesAny _ hc htest)) (by decide) (by decide) rfl rfl
      (hother nofun)
  rcases ite_eq_iff.1 h with ⟨htest, h⟩ | ⟨-, h⟩
  · exact hsuffix h (takes_token hc (needs_sees _ hc (Bool.and_eq_true_iff.1 htest).1))
      (by decide) (by decide) rfl rfl (hother nofun)
  rcases ite_eq_iff.1 h with ⟨htest, h⟩ | ⟨-, h⟩
  · exact hsuffix h ((takes_token.append makes_rawGroup.one) hc
      (needs_sees _ hc (Bool.and_eq_true_iff.1 htest).1)) (by decide) (by decide) rfl rfl
      (hother nofun)
  rcases ite_eq_iff.1 h with ⟨htest, h⟩ | ⟨-, h⟩
  · have hwith := (Bool.and_eq_true_iff.1 htest).1
    have hready := needs_isName _ hc hwith
    exact hsuffix h ((takes_token.append (makes_initializerOf hg).one) hc hready) (by decide)
      (by decide) rfl rfl fun left parts d hparts => operator?_with hready hwith hparts left
  · cases h

/-! ## Operators -/

omit hg in
theorem needs_atAwait : Needs atAwait 1 :=
  (needs_isName "await").and_left

/-- An expression that is no operator with two operands. -/
abbrev MakesOperand (p : Parser Node) : Prop :=
  MakesFirst (fun n _ => n.operator? = none) p

theorem makes_cast : MakesOperand (cast g) := by
  intro c n d hc h
  have hparts := ((((takes_mark "(").append hg.type.one).append (takes_mark ")")).append
    (takes_check (castOperandFollows (isPredefinedType (c.nth 1) && c.seesAt 2 ")"))
      "cast operand")).append hg.operand.one
  exact (hparts hc (Nat.zero_le _)).extensible (by decide) (by decide) rfl rfl
    (Kind.operator?_of_isGrown rfl) h

theorem makesOperand_unary : MakesOperand (unary g) := by
  have hplain : MakesOperand (grow (primarySuffix g) (primary g)) := fun c n d hc h =>
    let hn := (extends_primarySuffix hg).grow (makes_primary hg) hc h
    ⟨hn.reads, hn.full, hn.level, hn.first.2⟩
  -- An operator in front of its operand, which the test has seen.
  have hprefix : ∀ {kind : Kind} {p : Parser Node} {c d : Cursor} {n : Node}, c.Closed →
      1 ≤ c.ahead.length → kind.level = 0 → kind.isGrown = false → Makes 0 1 1 p →
      build kind (token ++ one p) c = .ok (n, d) →
      Extensible (fun n _ => n.operator? = none) c d n :=
    fun hc hready hlevel hplain hp h => ((takes_token.append hp.one) hc hready).extensible
      (by decide) (by decide) hlevel hplain (Kind.operator?_of_isGrown hplain) h
  intro c n d hc h
  simp only [unary] at h
  rcases ite_eq_iff.1 h with ⟨htest, h⟩ | ⟨-, h⟩
  · exact hprefix hc (needs_seesAny _ hc htest) rfl rfl hg.operand h
  rcases ite_eq_iff.1 h with ⟨htest, h⟩ | ⟨-, h⟩
  · exact hprefix hc (needs_atAwait hc htest) rfl rfl hg.operand h
  rcases ite_eq_iff.1 h with ⟨htest, h⟩ | ⟨-, h⟩
  · exact hprefix hc (needs_sees _ hc htest) rfl rfl hg.expression h
  rcases ite_eq_iff.1 h with ⟨-, h⟩ | ⟨-, h⟩
  · rcases orElse_eq_ok h with h | h
    · exact makes_cast hg hc h
    · exact hplain hc h
  · exact hplain hc h

theorem makes_unary : Makes 0 1 1 (unary g) :=
  (makesOperand_unary hg).makes

omit hg in
theorem binaryOperator_width_le {c : Cursor} (hc : c.Closed) {precedence width : Nat}
    (h : binaryOperator? c = some (precedence, width)) : width ≤ c.ahead.length := by
  simp only [binaryOperator?] at h
  split at h
  · rename_i hfirst
    have hready := needs_sees ">" hc hfirst
    split at h
    · cases h
    · split at h
      · rename_i hsecond
        obtain ⟨rfl, rfl⟩ := Prod.mk.inj (Option.some.inj h)
        exact needs_seesAt 1 ">" hc (Bool.and_eq_true_iff.1 hsecond).2
      · obtain ⟨rfl, rfl⟩ := Prod.mk.inj (Option.some.inj h)
        exact hready
  · obtain ⟨⟨texts, precedence'⟩, hfound, heq⟩ := Option.map_eq_some_iff.1 h
    obtain ⟨rfl, rfl⟩ := Prod.mk.inj heq
    have hsees := List.find?_some hfound
    exact needs_seesAny texts hc hsees

theorem takes_simplePattern : Takes 0 1 1 (simplePattern g) := by
  have htype := ((makes_typeOf hg).followedBy (fun c => !c.seesAny ["(", "."]) "type pattern").one
  have hnot := takes_token.repeatWhile (needs_isName "not")
  have hproperties := makes_rawGroup.one.whenAt (needs_zero (sees Token.openBrace))
  have hname : Takes 0 0 0
      (whenAt (fun c => c.atName && !atPatternJoin c && !c.sees "when") token) :=
    takes_token.whenAt needs_atName.and_left.and_left
  have hcore : Takes 0 1 1 fun c =>
      if c.atBracket then one rawGroup c
      else if c.seesAny ["<", "<=", ">", ">="] then (token ++ one g.operand) c
      else orElse (one ((typeOf g).followedBy (fun c => !c.seesAny ["(", "."]) "type pattern"))
        (one g.operand) c := by
    intro c hc hready parts d h
    rcases ite_eq_iff.1 h with ⟨-, h⟩ | ⟨-, h⟩
    · exact makes_rawGroup.one hc hready h
    rcases ite_eq_iff.1 h with ⟨htest, h⟩ | ⟨-, h⟩
    · have hbound := (takes_token.append hg.operand.one) hc (needs_seesAny _ hc htest)
      exact hbound.mono (by decide) (by decide) h
    · exact (htype.orElse hg.operand.one) hc hready h
  exact ((hnot.append hcore).append hproperties).append hname

theorem takes_morePatterns (bound : Nat) : Takes 0 0 1 (morePatterns g bound) := by
  induction bound with
  | zero => exact takes_nil.mono (Nat.le_refl _) (Nat.le_refl _) (by decide)
  | succ bound ih =>
    have hround := (takes_token.append (takes_simplePattern hg)).append ih
    exact hround.whenAt ((needs_isName "and").or (needs_isName "or"))

theorem takes_pattern : Takes 0 1 1 (pattern g) :=
  fun _ hc hready => ((takes_simplePattern hg).append (takes_morePatterns hg _)) hc hready

theorem takes_rightOperand (operator : String) (precedence : Nat) :
    Takes 0 1 1 (rightOperand g operator precedence) := by
  rw [rightOperand]
  split
  · exact takes_pattern hg
  · split
    · exact (makes_typeOf hg).one
    · exact (hg.binary _).one

section Operators

omit hg

theorem take_eq_ok {n : Nat} {c d : Cursor} {parts : List Element} (hready : n ≤ c.ahead.length)
    (h : take n c = .ok (parts, d)) : parts = (c.ahead.take n).map .token := by
  induction n generalizing c parts with
  | zero =>
    obtain ⟨rfl, -⟩ := Prod.mk.inj (Except.ok.inj h)
    rfl
  | succ n ih =>
    obtain ⟨xs, e, ys, hxs, hys, rfl⟩ := append_eq_ok h
    obtain ⟨t, rfl, hahead, -⟩ := token_eq_ok (by omega) hxs
    rw [hahead, List.length_cons] at hready
    rw [ih (by omega) hys, hahead]
    rfl

theorem leadingTokens_append (ts : List Token) (parts : List Element) :
    Element.leadingTokens (ts.map .token ++ parts) = ts ++ Element.leadingTokens parts := by
  induction ts with
  | nil => rfl
  | cons t ts ih => simp [Element.leadingTokens, ih]

/-- An operator is a word or a mark, and it is told by its own tokens. -/
theorem binaryOperator?_alone {c : Cursor} (hc : c.Closed) {precedence width : Nat}
    (h : binaryOperator? c = some (precedence, width)) :
    ∃ t ts, c.ahead.take width = t :: ts ∧ c.current = t ∧ t.is t.text = true ∧
      ∀ more, (more = [] ∨ t.is ">" = false) →
        binaryOperator? ⟨t :: (ts ++ more), .endOfText [] 0⟩ = some (precedence, width) := by
  have hself : ∀ {t : Token} {text : String}, t.is text = true → t.is t.text = true := by
    intro t text his
    simp only [Token.is, Bool.and_eq_true, beq_iff_eq] at his ⊢
    exact ⟨trivial, his.2⟩
  simp only [binaryOperator?] at h
  split at h
  · rename_i hfirst
    obtain ⟨t, ts, hahead⟩ := List.exists_cons_of_length_pos (needs_sees ">" hc hfirst)
    have hcurrent : c.current = t := by simp [Cursor.current, Cursor.nth, hahead]
    have hangle : t.is ">" = true := hcurrent ▸ hfirst
    split at h
    · cases h
    · rename_i hassigns
      split at h
      · rename_i hsecond
        obtain ⟨rfl, rfl⟩ := Prod.mk.inj (Option.some.inj h)
        have hlength := needs_seesAt 1 ">" hc (Bool.and_eq_true_iff.1 hsecond).2
        rw [hahead, List.length_cons] at hlength
        obtain ⟨u, us, rfl⟩ := List.exists_cons_of_length_pos (Nat.lt_of_succ_lt_succ hlength)
        have hnext : c.nth 1 = u := by simp [Cursor.nth, hahead]
        rw [hcurrent, hnext] at hassigns hsecond
        refine ⟨t, [u], by rw [hahead]; rfl, hcurrent, hself hangle, fun more _ => ?_⟩
        simp only [seesAt, hnext] at hassigns hsecond
        simp only [binaryOperator?, sees, seesAt, Cursor.current, Cursor.nth, List.getD_cons_zero,
          List.getD_cons_succ, List.singleton_append, hangle, hassigns, hsecond, if_true]
        rfl
      · obtain ⟨rfl, rfl⟩ := Prod.mk.inj (Option.some.inj h)
        refine ⟨t, [], by rw [hahead]; rfl, hcurrent, hself hangle, fun more hmore => ?_⟩
        obtain rfl := hmore.resolve_right (by rw [hangle]; decide)
        simp only [binaryOperator?, sees, seesAt, Cursor.current, Cursor.nth, List.getD_cons_zero,
          List.nil_append, hangle, if_true]
        simp [Token.is, Token.endOfText, Token.isWord]
  · rename_i hfirst
    obtain ⟨⟨texts, precedence'⟩, hfound, heq⟩ := Option.map_eq_some_iff.1 h
    obtain ⟨rfl, rfl⟩ := Prod.mk.inj heq
    have hsees := List.find?_some hfound
    obtain ⟨t, ts, hahead⟩ := List.exists_cons_of_length_pos (needs_seesAny texts hc hsees)
    have hcurrent : c.current = t := by simp [Cursor.current, Cursor.nth, hahead]
    obtain ⟨text, -, htext⟩ := List.any_eq_true.1 hsees
    rw [hcurrent] at htext
    refine ⟨t, [], by rw [hahead]; rfl, hcurrent, hself htext, fun more _ => ?_⟩
    have hcurrent' : (⟨t :: ([] ++ more), .endOfText [] 0⟩ : Cursor).current = t := rfl
    have hno : ¬t.is ">" = true := hcurrent ▸ hfirst
    simp only [seesAny, hcurrent] at hfound
    simp only [binaryOperator?, sees, seesAny, hcurrent', if_neg hno, hfound, Option.map_some]

/-- The operator of a binary expression is the one that stood at the cursor behind its first part. -/
theorem operator?_of_read {c d : Cursor} (hc : c.Closed) {precedence width : Nat}
    (h : binaryOperator? c = some (precedence, width)) {parts : List Element}
    (hparts : (take width ++ rightOperand g c.current.text precedence) c = .ok (parts, d))
    (left : Node) :
    Kind.operator? .binaryExpression (.node left :: parts) = some (precedence, width) ∧
      Element.testsType (.node left :: parts) =
        (c.current.text == "is" || c.current.text == "as") := by
  obtain ⟨t, ts, htake, hcurrent, hself, halone⟩ := binaryOperator?_alone hc h
  obtain ⟨xs, e, ys, hxs, hys, rfl⟩ := append_eq_ok hparts
  have hleading : Element.leadingTokens (xs ++ ys) = t :: (ts ++ Element.leadingTokens ys) := by
    rw [take_eq_ok (binaryOperator_width_le hc h) hxs, leadingTokens_append, htake]
    rfl
  have hsame : ∀ text, t.is text = (t.text == text) := by
    intro text
    simp only [Token.is, Bool.and_eq_true] at hself
    rw [Token.is, hself.2, Bool.and_true]
  rw [hcurrent] at hys ⊢
  constructor
  · rw [Kind.operator?, if_pos rfl, List.tail_cons, hleading]
    refine halone _ ?_
    -- Behind an angle bracket comes an operand, of which no token can be taken for the operator.
    unfold rightOperand at hys
    split at hys
    · rename_i his
      rw [hsame, eq_of_beq his]
      exact .inr (by decide)
    · split at hys
      · rename_i has
        rw [hsame, eq_of_beq has]
        exact .inr (by decide)
      · obtain ⟨right, e', -, hys⟩ := bind_eq_ok hys
        obtain ⟨rfl, -⟩ := Prod.mk.inj (Except.ok.inj hys)
        exact .inl rfl
  · rw [Element.testsType, List.tail_cons, hleading, List.head?_cons, Option.any_some, hsame, hsame]

end Operators

/-- The invariant of a chain: the operator of what was read so far binds as tight as asked, and one
    that comes next does not bind tighter than it, unless a pattern was what ended. -/
def Chained (least : Nat) (n : Node) (c : Cursor) : Prop :=
  ∀ precedence width, n.operator? = some (precedence, width) →
    least ≤ precedence ∧ (n.testsType = false → Below (rightLeast precedence) c)

theorem extends_operator (least : Nat) : Extends (Chained least) fun c =>
    match binaryOperator? c with
    | none => none
    | some (precedence, width) =>
      if precedence < least then none
      else some (.binaryExpression, take width ++ rightOperand g c.current.text precedence) := by
  intro c kind rest hc h
  simp only at h
  split at h
  · cases h
  · rename_i precedence width hoperator
    split at h
    · cases h
    · rename_i hleast
      obtain ⟨rfl, rfl⟩ := Prod.mk.inj (Option.some.inj h)
      have hready := binaryOperator_width_le hc hoperator
      have hrest := (takes_rightOperand hg c.current.text precedence).take_append width
      refine ⟨(hrest hc (by omega)).mono (by omega) (by decide), rfl, fun left hleft =>
        ⟨nofun, fun parts d hparts => ?_⟩⟩
      obtain ⟨hoperator', htests⟩ := operator?_of_read hc hoperator hparts left
      have hright : Element.testsType (.node left :: parts) = false → ∃ right,
          parts = (c.ahead.take width).map .token ++ [.node right] ∧
            (∀ inner v, right.operator? = some (inner, v) → rightLeast precedence ≤ inner) ∧
            Below (rightLeast precedence) d := by
        intro hplain
        obtain ⟨xs, e, ys, hxs, hys, rfl⟩ := append_eq_ok hparts
        have hclosed := ((takes_take width hc hready) hxs).1.closed hc
        rw [take_eq_ok hready hxs]
        obtain ⟨his, has⟩ := Bool.or_eq_false_iff.1 (htests ▸ hplain)
        simp only [rightOperand, his, has, Bool.false_eq_true, if_false] at hys
        obtain ⟨right, e', hbinary, hys⟩ := bind_eq_ok hys
        obtain ⟨rfl, rfl⟩ := Prod.mk.inj (Except.ok.inj hys)
        obtain ⟨hbinds, hbelow⟩ := hg.bounds _ hclosed hbinary
        exact ⟨right, rfl, hbinds, hbelow⟩
      constructor
      · intro precedence' width' hsome
        obtain ⟨rfl, rfl⟩ := Prod.mk.inj (Option.some.inj (hoperator'.symm.trans hsome))
        refine ⟨Nat.le_of_not_lt hleast, fun hplain => ?_⟩
        obtain ⟨right, -, -, hbelow⟩ := hright hplain
        exact hbelow
      · intro precedence' width' hsome hplain
        obtain ⟨rfl, rfl⟩ := Prod.mk.inj (Option.some.inj (hoperator'.symm.trans hsome))
        obtain ⟨right, rfl, hbinds, -⟩ := hright hplain
        refine ⟨left, c.ahead.take width, right, rfl, by simp [hready], ?_, ?_⟩
        · intro inner v hinner htests'
          have hbelow := (hleft inner v hinner).2 htests' precedence width hoperator
          unfold rightLeast at hbelow
          unfold coalescing at hbelow ⊢
          split at hbelow <;> omega
        · intro inner v hinner
          have hle := hbinds inner v hinner
          unfold rightLeast at hle
          split at hle <;> rename_i hcoalescing <;> simp only [hcoalescing, if_true, if_false] <;> omega

theorem makesFirst_operand (least : Nat) : MakesFirst (Chained least) (unary g) := by
  intro c n d hc h
  have hn := makesOperand_unary hg hc h
  exact ⟨hn.reads, hn.full, hn.level, fun _ _ hsome => absurd (hn.first.symm.trans hsome) nofun⟩

theorem makesFirst_binaryOf (least : Nat) : MakesFirst (Chained least) (binaryOf g least) :=
  (extends_operator hg least).grow (makesFirst_operand hg least)

theorem makes_binaryOf (least : Nat) : Makes 0 1 1 (binaryOf g least) :=
  (makesFirst_binaryOf hg least).makes

theorem bounds_binaryOf (least : Nat) {c d : Cursor} {n : Node} (hc : c.Closed)
    (h : binaryOf g least c = .ok (n, d)) :
    (∀ precedence width, n.operator? = some (precedence, width) → least ≤ precedence) ∧
      Below least d := by
  refine ⟨fun precedence width hsome => ((makesFirst_binaryOf hg least hc h).first _ _ hsome).1, ?_⟩
  have hstop := (extends_operator hg least).grow_exit (makesFirst_operand hg least) hc h
  intro precedence width hsome
  simp only [hsome] at hstop
  refine Nat.lt_of_not_le fun hge => ?_
  rw [if_neg (Nat.not_lt.2 hge)] at hstop
  cases hstop

theorem makes_conditional : Makes 0 1 1 (conditional g) := by
  refine ((extends_plain fun c kind rest hc h => ?_).growOnce
    (makes_binaryOf hg coalescing).first).makes
  split at h
  · rename_i hmark
    obtain ⟨rfl, rfl⟩ := Prod.mk.inj (Option.some.inj h)
    have hrest := ((takes_token.append hg.expression.one).append (takes_mark ":")).append
      hg.expression.one
    exact ⟨(hrest hc (needs_sees _ hc hmark)).mono (by decide) (by decide), rfl, rfl⟩
  · cases h

omit hg in
theorem assignmentWidth_le {c : Cursor} (hc : c.Closed) {width : Nat}
    (h : assignmentWidth? c = some width) : width ≤ c.ahead.length := by
  simp only [assignmentWidth?] at h
  split at h
  · rename_i htest
    obtain rfl := Option.some.inj h
    exact needs_seesAny _ hc htest
  · split at h
    · rename_i htest
      obtain rfl := Option.some.inj h
      simp only [Bool.and_eq_true] at htest
      exact needs_seesAt 1 ">=" hc htest.1.2
    · cases h

theorem makes_assignment : Makes 0 1 1 (assignment g) := by
  refine ((extends_plain fun c kind rest hc h => ?_).growOnce (makes_conditional hg).first).makes
  obtain ⟨width, hwidth, heq⟩ := Option.map_eq_some_iff.1 h
  obtain ⟨rfl, rfl⟩ := Prod.mk.inj heq
  have hready := assignmentWidth_le hc hwidth
  have hrest := (takes_value hg).take_append width
  exact ⟨(hrest hc (by omega)).mono (by omega) (by decide), rfl, rfl⟩

theorem makes_expressionOf : Makes 0 1 1 (expressionOf g) := by
  intro c hc hready n d h
  simp only [expressionOf] at h
  split at h
  · rename_i head hhead
    exact makes_lambda hg head hc (needs_lambdaHead hc hhead) h
  · exact makes_assignment hg hc hready h

end Recast.Grammar
