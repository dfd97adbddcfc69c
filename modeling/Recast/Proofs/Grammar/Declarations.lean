-- SUMMARY: The productions for declarations, statements and files return the tokens that they take, and with them the grammar of every depth does.
import Recast.Grammar.Fragment
import Recast.Proofs.Grammar.Expressions

/-! # Reading declarations and statements

The productions that start with attributes, modifiers or a type get these as parts that were read
before, so their facts are about a cursor in the middle of a node (`Headed`). `Grammar.sound_nesting`
ties the knot. -/

namespace Recast.Grammar

open Recast.Parser Recast.Cursor

variable {g : Grammar} (hg : g.Sound)

include hg

/-! ## Parts of declarations -/

theorem makes_typeParameter : Makes 0 1 1
    (build .typeParameter (attributeLists g ++ whenAt (seesAny ["in", "out"]) token ++ name)) :=
  (((takes_attributeLists hg).append (takes_token.whenAt (needs_seesAny _))).append takes_name).build
    (by decide) (by decide) rfl

theorem makes_typeParameters : Makes 0 1 1 (typeParameters g) :=
  (((takes_mark "<").append (makes_typeParameter hg).one.commaList).append (takes_mark ">")).build
    (by decide) (by decide) rfl

theorem makes_baseType : Makes 0 1 2
    (build .baseType (one g.type ++ whenAt (sees "(") (one (argumentList g)))) :=
  (hg.type.one.append ((makes_argumentList hg).one.whenAt (needs_zero _))).build
    (by decide) (by decide) rfl

theorem makes_baseList : Makes 0 1 1 (baseList g) :=
  ((takes_mark ":").append (makes_baseType hg).one.commaList).build (by decide) (by decide) rfl

omit hg in
/-- A test that also asks for the end of the text not to have come. -/
theorem needs_notAtEnd (test : Cursor → Bool) : Needs (fun c => !(test c || c.atEnd)) 1 := by
  intro c _ hholds
  simp only [Bool.not_eq_true', Bool.or_eq_false_iff] at hholds
  exact pos_of_notAtEnd hholds.2

omit hg in
theorem takes_constraintPart : Takes 1 2 0 (ifAt (sees "(") (orElse group token) token) := by
  have hgroup : Takes 1 2 0 (orElse group token) :=
    (takes_group.mono (Nat.zero_le _) (Nat.le_refl _) (Nat.le_refl _)).orElse takes_token
  exact hgroup.ifAt (needs_sees "(") takes_token

omit hg in
theorem makes_constraints : Makes 0 0 1 constraints :=
  (takes_constraintPart.repeatWhile (needs_notAtEnd _)).build (by decide) (by decide) rfl

theorem makes_arrowClause : Makes 0 1 1 (arrowClause g) :=
  ((takes_mark "=>").append hg.expression.one).build (by decide) (by decide) rfl

theorem takes_memberBody : Takes 0 1 1 (memberBody g) :=
  (makes_block hg).one.ifAt (needs_zero _)
    (((makes_arrowClause hg).one.append (takes_mark ";")).ifAt (needs_zero _) (takes_mark ";"))

theorem makes_declaratorAfter {start c : Cursor} {head : List Element} (hc : start.Closed)
    (hhead : Headed start c head) (hweight : 2 ≤ Element.weightIn head) :
    MakesFrom start c 1 1 (declaratorAfter g head) := by
  have hindex := (makes_bracketedArguments hg).one.whenAt (needs_zero (sees "["))
  have hvalue := (makes_equalsValue hg).one.whenAt (needs_zero (sees "="))
  exact ((hhead.given.append hc hindex).append hc hvalue).build_heavy (by omega) (by decide) rfl rfl

theorem makes_declarator : Makes 0 1 1 (declarator g) := by
  intro c hc hready n d h
  obtain ⟨own, c₁, hown, h⟩ := bind_eq_ok h
  have hname := takes_name hc hready
  exact makes_declaratorAfter hg hc (hname.headed (by decide) hown) (hname hown).2.1 h

theorem makes_variableDeclaration : Makes 0 1 1 (variableDeclaration g) :=
  ((makes_typeOf hg).one.append (makes_declarator hg).one.commaList).build
    (by decide) (by decide) rfl

omit hg in
theorem takes_explicitInterface : Takes 0 0 1 explicitInterface := by
  have hpart := takes_token.token_append.repeatWhile (needs_atNameThen ".")
  have hspecifier : Makes 0 0 1 (build .explicitInterfaceSpecifier _) :=
    hpart.build (by decide) (by decide) rfl
  exact hspecifier.one.whenAt (needs_zero _)

omit hg in
theorem explicitInterface_eq_nil {c d : Cursor} (h : explicitInterface c = .ok ([], d)) : d = c := by
  simp only [explicitInterface, whenAt, ifAt] at h
  split at h
  · obtain ⟨n, e, -, h⟩ := bind_eq_ok h
    cases h
  · obtain ⟨-, rfl⟩ := Prod.mk.inj (Except.ok.inj h)
    rfl

/-! ## Members -/

omit hg in
/-- A type declaration starts with a word, and its node is nothing else's wrapping. -/
theorem of_typeDeclarationKind {c : Cursor} (hc : c.Closed) {kind : Kind}
    (h : typeDeclarationKind? c = some kind) :
    1 ≤ c.ahead.length ∧ kind.level = 0 ∧ kind.isGrown = false := by
  simp only [typeDeclarationKind?] at h
  rcases ite_eq_iff.1 h with ⟨htest, h⟩ | ⟨-, h⟩
  · obtain rfl := Option.some.inj h
    exact ⟨needs_sees _ hc htest, rfl, rfl⟩
  rcases ite_eq_iff.1 h with ⟨htest, h⟩ | ⟨-, h⟩
  · obtain rfl := Option.some.inj h
    exact ⟨needs_sees _ hc htest, rfl, rfl⟩
  rcases ite_eq_iff.1 h with ⟨htest, h⟩ | ⟨-, h⟩
  · obtain rfl := Option.some.inj h
    exact ⟨needs_sees _ hc htest, rfl, rfl⟩
  rcases ite_eq_iff.1 h with ⟨htest, h⟩ | ⟨-, h⟩
  · obtain rfl := Option.some.inj h
    exact ⟨needs_sees _ hc (Bool.and_eq_true_iff.1 htest).1, rfl, rfl⟩
  · cases h

theorem takes_typeBody : Takes 0 2 1 (typeBody g) := by
  have hmembers := hg.member.one.repeatWhile (needs_zero fun c => !c.atBodyEnd)
  have hbraces := (((takes_mark Token.openBrace).append hmembers).append
    (takes_mark Token.closeBrace)).append (takes_token.whenAt (needs_sees ";"))
  exact takes_token.ifAt (needs_sees ";") hbraces

section AfterHead

variable {start c : Cursor} {head : List Element} (hc : start.Closed) (hhead : Headed start c head)

include hc hhead

theorem makes_typeDeclaration {kind : Kind} (hready : 1 ≤ c.ahead.length)
    (hlevel : kind.level = 0) (hplain : kind.isGrown = false) :
    MakesFrom start c 1 1 (typeDeclaration g kind head) := by
  have hflavor : Takes 0 0 0
      (whenAt (fun c => kind == .recordDeclaration && c.seesAny ["class", "struct"]) token) :=
    takes_token.whenAt (needs_seesAny _).and_right
  have hgenerics := (makes_typeParameters hg).one.whenAt (needs_zero (sees "<"))
  have hparameters := (makes_parameterList hg).one.whenAt (needs_zero (sees "("))
  have hbases := (makes_baseList hg).one.whenAt (needs_zero (sees ":"))
  have hconstraints := makes_constraints.one.whenAt (needs_zero (sees "where"))
  have hword := hhead.given_append (takes_token (hhead.reads.closed hc) hready)
  have hstart := (hword.append hc hflavor).append hc takes_name
  have hparts := ((((hstart.append hc hgenerics).append hc hparameters).append hc hbases).append hc
    hconstraints).append hc (takes_typeBody hg)
  exact hparts.build_heavy (by omega) (by decide) hlevel hplain

theorem makes_enumDeclaration : MakesFrom start c 1 1 (enumDeclaration g head) := by
  have hbases := (makes_baseList hg).one.whenAt (needs_zero (sees ":"))
  have hstart := ((hhead.given.append hc (takes_mark "enum")).append hc takes_name).append hc hbases
  have hparts := ((hstart.append hc (takes_check (sees Token.openBrace) "'\x7b'")).append hc
    makes_rawGroup.one).append hc (takes_token.whenAt (needs_sees ";"))
  exact hparts.build_heavy (by omega) (by decide) rfl rfl

omit hc hhead in
theorem makes_constructorInitializer : Makes 1 1 1 (constructorInitializer g) := by
  have hcall : Takes 1 3 1 (token ++ one (argumentList g)) :=
    takes_token.append (makes_argumentList hg).one
  have hchecked : Takes 0 3 1 (check (seesAny ["base", "this"]) "'base' or 'this'" ++ _) :=
    hcall.check_append (needs_seesAny _)
  have hparts := takes_token.append hchecked
  rw [← append_assoc, ← append_assoc] at hparts
  exact hparts.build (by decide) (by decide) rfl

theorem makes_constructorDeclaration : MakesFrom start c 1 1 (constructorDeclaration g head) := by
  have hother := (makes_constructorInitializer hg).one.whenAt (needs_sees ":")
  have hstart := ((hhead.given.append hc (takes_token.whenAt (needs_sees "~"))).append hc
    takes_name).append hc (makes_parameterList hg).one
  have hparts := (hstart.append hc hother).append hc (takes_memberBody hg)
  exact hparts.build_heavy (by omega) (by decide) rfl rfl

theorem makes_methodDeclaration : MakesFrom start c 1 1 (methodDeclaration g head) := by
  have hgenerics := (makes_typeParameters hg).one.whenAt (needs_zero (sees "<"))
  have hconstraints := makes_constraints.one.whenAt (needs_zero (sees "where"))
  have hparts := (((hhead.given.append hc hgenerics).append hc (makes_parameterList hg).one).append
    hc hconstraints).append hc (takes_memberBody hg)
  exact hparts.build_heavy (by omega) (by decide) rfl rfl

theorem makes_propertyDeclaration (hweight : 2 ≤ Element.weightIn head) :
    MakesFrom start c 1 1 (propertyDeclaration g head) := by
  have harrow := (makes_arrowClause hg).one.append (takes_mark ";")
  have haccessors : Makes 0 1 1 (build .accessorList group) :=
    takes_group.build (by decide) (by decide) rfl
  have hvalue := ((makes_equalsValue hg).one.append (takes_mark ";")).whenAt (needs_zero (sees "="))
  have hparts := hhead.given.append hc
    (harrow.ifAt (needs_zero (sees "=>")) (haccessors.one.append hvalue))
  exact hparts.build_heavy (by omega) (by decide) rfl rfl

/-- The type and the first name of a field were read after the head, which the declaration of the
    variables leaves out. -/
theorem makes_fieldDeclaration {type : Node} {first : List Element} {c₁ c₂ : Cursor}
    (htype : Headed c c₁ [.node type]) (hfirst : Headed c₁ c₂ first)
    (hweight : 2 ≤ Element.weightIn first) (hfull : 1 ≤ (Element.node type).weight) :
    MakesFrom start c₂ 1 1 (fieldDeclaration g head type first) := by
  have hc₀ := hhead.reads.closed hc
  have hvariable := (makes_declaratorAfter hg (htype.reads.closed hc₀) hfirst hweight).one
  have hmore := (makes_declarator hg).one.token_append.repeatWhile (needs_sees ",")
  have hvariables := (htype.given_append hvariable).append hc₀ hmore
  have hdeclaration : MakesFrom c c₂ 1 1 (build .variableDeclaration _) :=
    hvariables.build_heavy (by simp; omega) (by decide) rfl rfl
  have hparts := (hhead.given_append hdeclaration.one).append hc (takes_mark ";")
  exact hparts.build_heavy (by omega) (by decide) rfl rfl

theorem makes_typedMember : MakesFrom start c 1 1 (typedMember g head) := by
  have hclosed := hhead.reads.closed hc
  intro n d h
  obtain ⟨type, c₁, htype, h⟩ := bind_eq_ok h
  obtain ⟨qualifier, c₂, hqualifier, h⟩ := bind_eq_ok h
  obtain ⟨_, _, hget, h⟩ := bind_eq_ok h
  obtain ⟨rfl, rfl⟩ := Prod.mk.inj (Except.ok.inj hget)
  have hmakes := makes_typeOf hg hclosed (Nat.zero_le _)
  have hclosed₁ := (hmakes htype).1.closed hclosed
  have hspecifier := takes_explicitInterface hclosed₁ (Nat.zero_le _)
  have hclosed₂ := (hspecifier hqualifier).1.closed hclosed₁
  split at h
  · cases h
  obtain ⟨own, c₃, hown, hrest⟩ := bind_eq_ok h
  obtain ⟨_, _, hget, hrest⟩ := bind_eq_ok hrest
  obtain ⟨rfl, rfl⟩ := Prod.mk.inj (Except.ok.inj hget)
  have hname := takes_name hclosed₂ (Nat.zero_le _)
  have hweight := (hname hown).2.1
  have hwhole := ((hhead.append_node hmakes (by decide) htype).append hspecifier (by decide)
    hqualifier).append hname (by decide) hown
  split at hrest
  · exact makes_methodDeclaration hg hc hwhole hrest
  split at hrest
  · exact makes_propertyDeclaration hg hc hwhole (by rw [Element.weightIn_append]; omega) hrest
  split at hrest
  · cases hrest
  -- A field has no qualifier, so its name follows the type.
  rename_i hnone
  obtain rfl : qualifier = [] := by simpa using hnone
  obtain rfl := explicitInterface_eq_nil hqualifier
  obtain ⟨hreads, hfull, hlevel⟩ := hmakes htype
  have hheaded : Headed c c₂ [.node type] := ⟨hreads, by simpa using Nat.lt_succ_of_lt hlevel⟩
  exact makes_fieldDeclaration hg hc hhead hheaded (hname.headed (by decide) hown) hweight hfull hrest

end AfterHead

theorem makes_knownMember : Makes 0 1 1 (knownMember g) := by
  intro c hc hready n d h
  obtain ⟨head, c₁, hhead, h⟩ := bind_eq_ok h
  obtain ⟨_, _, hget, h⟩ := bind_eq_ok h
  obtain ⟨rfl, rfl⟩ := Prod.mk.inj (Except.ok.inj hget)
  have hfront := ((takes_attributeLists hg).append
    (makes_modifiers memberModifiers contextualModifiers).one) hc hready
  have hheaded := hfront.headed (by decide) hhead
  rcases hkind : typeDeclarationKind? c₁ with _ | kind <;> rw [hkind] at h
  case some =>
    obtain ⟨hready, hlevel, hplain⟩ := of_typeDeclarationKind (hheaded.reads.closed hc) hkind
    exact makes_typeDeclaration hg hc hheaded hready hlevel hplain h
  simp only at h
  split at h
  · exact makes_enumDeclaration hg hc hheaded h
  split at h
  · cases h
  split at h
  · exact makes_constructorDeclaration hg hc hheaded h
  · exact makes_typedMember hg hc hheaded h

theorem makes_memberOf : Makes 0 1 1 (memberOf g) :=
  (makes_knownMember hg).recover (makes_rawRun rfl rfl)

/-! ## Statements -/

theorem takes_condition : Takes 0 5 1 (condition g) :=
  ((takes_mark "(").append hg.expression.one).append (takes_mark ")")

omit hg in
theorem takes_rawParentheses : Takes 0 1 1 rawParentheses :=
  (takes_check _ _).append makes_rawGroup.one

theorem makes_ifStatement : Makes 0 1 1 (ifStatement g) := by
  have hotherwise : Makes 1 1 1 (build .elseClause (token ++ one g.statement)) :=
    (takes_token.append hg.statement.one).build (by decide) (by decide) rfl
  exact ((((takes_mark "if").append (takes_condition hg)).append hg.statement.one).append
    (hotherwise.one.whenAt (needs_sees "else"))).build (by decide) (by decide) rfl

theorem makes_whileStatement : Makes 1 1 1 (whileStatement g) :=
  ((takes_token.append (takes_condition hg)).append hg.statement.one).build
    (by decide) (by decide) rfl

theorem makes_doStatement : Makes 1 1 1 (doStatement g) :=
  ((((takes_token.append hg.statement.one).append (takes_mark "while")).append
    (takes_condition hg)).append (takes_mark ";")).build (by decide) (by decide) rfl

theorem makes_forStatement : Makes 1 1 1 (forStatement g) :=
  ((takes_token.append takes_rawParentheses).append hg.statement.one).build
    (by decide) (by decide) rfl

theorem makes_forEachStatement (lead : Nat) : Makes lead 1 1 (forEachStatement g lead) := by
  have hheader := (((((takes_mark "(").append hg.type.one).append takes_name).append
    (takes_mark "in")).append hg.expression.one).append (takes_mark ")")
  have hloop := (((takes_take lead).append (takes_mark "foreach")).append
    (hheader.orElse takes_rawParentheses)).append hg.statement.one
  exact fun c hc hready => (hloop hc hready).build_heavy (by omega) (by decide) rfl rfl

theorem makes_catchClause : Makes 1 1 1 (catchClause g) := by
  have hdeclaration : Makes 1 1 1
      (build .catchDeclaration (token ++ one g.type ++ whenAt atName token ++ mark ")")) :=
    (((takes_token.append hg.type.one).append (takes_token.whenAt needs_atName)).append
      (takes_mark ")")).build (by decide) (by decide) rfl
  have hfilter : Makes 1 1 1 (build .catchFilter (token ++ condition g)) :=
    (takes_token.append (takes_condition hg)).build (by decide) (by decide) rfl
  exact (((takes_token.append (hdeclaration.one.whenAt (needs_sees "("))).append
    (hfilter.one.whenAt (needs_isName "when"))).append (makes_block hg).one).build
    (by decide) (by decide) rfl

theorem makes_tryStatement : Makes 0 1 1 (tryStatement g) := by
  have hfinally : Makes 1 1 1 (build .finallyClause (token ++ one (block g))) :=
    (takes_token.append (makes_block hg).one).build (by decide) (by decide) rfl
  have hcatches := (makes_catchClause hg).one.repeatWhile (needs_sees "catch")
  exact ((((takes_mark "try").append (makes_block hg).one).append hcatches).append
    (hfinally.one.whenAt (needs_sees "finally"))).build (by decide) (by decide) rfl

omit hg in
theorem needs_atSwitchLabel : Needs atSwitchLabel 1 :=
  (needs_sees "case").or (needs_sees "default").and_left

omit hg in
theorem takes_labelPart : Takes 0 2 0 (ifAt atBodyEnd (fail "':'") (ifAt atBracket group token)) := by
  intro c hc hready
  refine .ifAt (fun _ => takes_fail 0 2 0 _ hc hready) fun hbody => ?_
  have hnext := Cursor.pos_of_notAtBodyEnd hbody
  exact .ifAt (fun _ => takes_group hc hready) (fun _ => takes_token hc hnext)

omit hg in
/-- The parts of a label end at a colon, which is what the last token is: every part takes a token,
    so they do not end for want of rounds. -/
theorem makes_switchLabel : Makes 1 1 1 switchLabel := by
  have hpart := takes_labelPart
  have htest : Needs (fun c => !c.sees ":") 0 := needs_zero _
  have hparts : Takes 1 2 0 (token ++ repeatWhile (fun c => !c.sees ":")
      (ifAt atBodyEnd (fail "':'") (ifAt atBracket group token)) ++ token) := by
    intro c hc hready
    have hfront := (takes_token.append (hpart.repeatWhile htest)) hc hready
    refine (hfront.append_of hc ?_ takes_token).mono (by decide) (by decide)
    intro parts d h
    obtain ⟨xs, e, ys, hxs, hys, rfl⟩ := append_eq_ok h
    have hclosed := (takes_token hc hready hxs).1.closed hc
    have hcolon := hpart.repeatWhile_exit htest (by decide) hclosed hys
    have hd := (hfront h).1.closed hc
    exact needs_sees ":" hd (by simpa using hcolon)
  exact hparts.build (by decide) (by decide) rfl

theorem makes_switchSection : Makes 0 1 2 (switchSection g) := by
  have hstatements : Takes 0 0 1
      (repeatWhile (fun c => !c.atBodyEnd && !atSwitchLabel c) (one g.statement)) :=
    hg.statement.one.repeatWhile (needs_zero _)
  have hparts : Takes 0 1 1 (check atSwitchLabel "'case' or 'default'"
      ++ repeatWhile atSwitchLabel (one switchLabel)
      ++ repeatWhile (fun c => !c.atBodyEnd && !atSwitchLabel c) (one g.statement)) := by
    intro c hc hready parts d h
    rw [append_assoc] at h
    obtain ⟨xs, e, ys, hxs, hys, rfl⟩ := append_eq_ok h
    obtain ⟨hlabel, rfl, rfl⟩ := check_eq_ok hxs
    have hlabels := makes_switchLabel.one.repeatWhile_of_test needs_atSwitchLabel hc hlabel
    exact (hlabels.append hc hstatements) hys
  exact hparts.build (by decide) (by decide) rfl

theorem makes_switchStatement : Makes 0 1 1 (switchStatement g) := by
  have hsections := (makes_switchSection hg).one.repeatWhile (needs_zero fun c => !c.atBodyEnd)
  exact (((((takes_mark "switch").append (takes_condition hg)).append
    (takes_mark Token.openBrace)).append hsections).append (takes_mark Token.closeBrace)).build
    (by decide) (by decide) rfl

theorem makes_exitStatement {kind : Kind} (hplain : kind.isGrown = false) :
    Makes 1 1 (kind.level + 1) (exitStatement g kind) :=
  ((takes_token.append (hg.expression.one.whenAt (needs_zero _))).append (takes_mark ";")).build
    (.inr (by decide)) (by decide) hplain

omit hg in
theorem makes_jumpStatement : Makes 0 1 1 jumpStatement :=
  ((takes_token.repeatWhile (needs_notAtEnd _)).append (takes_mark ";")).build
    (by decide) (by decide) rfl

theorem makes_yieldStatement : Makes 2 1 1 (yieldStatement g) := by
  have hreturn := (takes_token.append hg.expression.one).ifAt (needs_sees "return") takes_token
  exact (hreturn.token_append.append (takes_mark ";")).build (by decide) (by decide) rfl

theorem makes_localDeclaration (lead : Nat) : Makes lead 1 1 (localDeclaration g lead) := by
  have hparts := ((takes_take lead).append (makes_variableDeclaration hg).one).append
    (takes_mark ";")
  exact fun c hc hready => (hparts hc hready).build_heavy (by omega) (by decide) rfl rfl

theorem makes_usingStatement (lead : Nat) : Makes (lead + 1) 1 1 (usingStatement g lead) := by
  have hresource := (makes_variableDeclaration hg).one.ifAt (needs_zero (atLocalDeclaration g))
    hg.expression.one
  have hparts := (((takes_take (lead + 2)).append hresource).append (takes_mark ")")).append
    hg.statement.one
  have hgroup : Makes (lead + 2) 1 1 (build .parenthesizedStatement _) :=
    fun c hc hready => (hparts hc hready).build_heavy (by omega) (by decide) rfl rfl
  exact hgroup.ifAt (needs_seesAt (lead + 1) "(") (makes_localDeclaration hg (lead + 1))

theorem makes_plainStatement : Makes 0 1 1 (plainStatement g) := by
  have hexpression : Makes 0 1 1 (build .expressionStatement (one (expressionOf g) ++ mark ";")) :=
    ((makes_expressionOf hg).one.append (takes_mark ";")).build (by decide) (by decide) rfl
  intro c hc hready n d h
  simp only [plainStatement] at h
  rcases ite_eq_iff.1 h with ⟨-, h⟩ | ⟨-, h⟩
  · exact makes_memberOf hg hc hready h
  rcases ite_eq_iff.1 h with ⟨-, h⟩ | ⟨-, h⟩
  · exact makes_localDeclaration hg 0 hc hready h
  · exact hexpression hc hready h

theorem makes_knownStatement : Makes 0 1 1 (knownStatement g) := by
  have hguarded : Makes 1 1 1
      (build .parenthesizedStatement (token ++ rawParentheses ++ one g.statement)) :=
    ((takes_token.append takes_rawParentheses).append hg.statement.one).build
      (by decide) (by decide) rfl
  have hchecked : Makes 1 1 1 (build .checkedStatement (token ++ one (block g))) :=
    (takes_token.append (makes_block hg).one).build (by decide) (by decide) rfl
  intro c hc hready n d h
  simp only [knownStatement] at h
  rcases ite_eq_iff.1 h with ⟨-, h⟩ | ⟨-, h⟩
  · exact makes_block hg hc hready h
  rcases ite_eq_iff.1 h with ⟨htest, h⟩ | ⟨-, h⟩
  · exact makes_build_token rfl hc (needs_sees _ hc htest) h
  rcases ite_eq_iff.1 h with ⟨-, h⟩ | ⟨-, h⟩
  · exact makes_ifStatement hg hc hready h
  rcases ite_eq_iff.1 h with ⟨htest, h⟩ | ⟨-, h⟩
  · exact makes_whileStatement hg hc (needs_sees _ hc htest) h
  rcases ite_eq_iff.1 h with ⟨htest, h⟩ | ⟨-, h⟩
  · exact makes_doStatement hg hc (needs_sees _ hc htest) h
  rcases ite_eq_iff.1 h with ⟨htest, h⟩ | ⟨-, h⟩
  · exact makes_forStatement hg hc (needs_sees _ hc htest) h
  rcases ite_eq_iff.1 h with ⟨-, h⟩ | ⟨-, h⟩
  · exact makes_forEachStatement hg 0 hc hready h
  rcases ite_eq_iff.1 h with ⟨-, h⟩ | ⟨-, h⟩
  · exact makes_tryStatement hg hc hready h
  rcases ite_eq_iff.1 h with ⟨-, h⟩ | ⟨-, h⟩
  · exact makes_switchStatement hg hc hready h
  rcases ite_eq_iff.1 h with ⟨htest, h⟩ | ⟨-, h⟩
  · exact makes_exitStatement hg rfl hc (needs_sees _ hc htest) h
  rcases ite_eq_iff.1 h with ⟨htest, h⟩ | ⟨-, h⟩
  · exact makes_exitStatement hg rfl hc (needs_sees _ hc htest) h
  rcases ite_eq_iff.1 h with ⟨-, h⟩ | ⟨-, h⟩
  · exact makes_jumpStatement hc hready h
  rcases ite_eq_iff.1 h with ⟨htest, h⟩ | ⟨-, h⟩
  · have htwo : 2 ≤ c.ahead.length :=
      ((needs_seesAt 1 "return").or (needs_seesAt 1 "break")).and_right hc htest
    exact makes_yieldStatement hg hc htwo h
  rcases ite_eq_iff.1 h with ⟨htest, h⟩ | ⟨-, h⟩
  · exact hguarded hc (needs_seesAny _ hc htest) h
  rcases ite_eq_iff.1 h with ⟨htest, h⟩ | ⟨-, h⟩
  · exact makes_usingStatement hg 0 hc (needs_sees _ hc htest) h
  rcases ite_eq_iff.1 h with ⟨htest, h⟩ | ⟨-, h⟩
  · exact makes_usingStatement hg 1 hc (needs_seesAt 1 _ hc (Bool.and_eq_true_iff.1 htest).2) h
  rcases ite_eq_iff.1 h with ⟨htest, h⟩ | ⟨-, h⟩
  · exact makes_forEachStatement hg 1 hc (needs_sees _ hc (Bool.and_eq_true_iff.1 htest).1) h
  rcases ite_eq_iff.1 h with ⟨htest, h⟩ | ⟨-, h⟩
  · exact hchecked hc (needs_seesAny _ hc (Bool.and_eq_true_iff.1 htest).1) h
  rcases ite_eq_iff.1 h with ⟨htest, h⟩ | ⟨-, h⟩
  · exact makes_localDeclaration hg 1 hc (needs_sees _ hc htest) h
  · exact makes_plainStatement hg hc hready h

theorem makes_statementOf : Makes 0 1 1 (statementOf g) :=
  (makes_knownStatement hg).recover (makes_rawRun rfl rfl)

/-! ## Files and namespaces -/

theorem makes_usingDirective : Makes 0 1 1 (usingDirective g) := by
  have hglobal := takes_token.whenAt (needs_sees "global")
  have hstatic := takes_token.whenAt (needs_sees "static")
  have halias := takes_token.token_append.whenAt (needs_atNameThen "=")
  exact (((((hglobal.append (takes_mark "using")).append hstatic).append halias).append
    (makes_typeOf hg).one).append (takes_mark ";")).build (by decide) (by decide) rfl

theorem makes_namespaceDeclaration : Makes 0 1 1 (namespaceDeclaration g) := by
  intro c hc hready n d h
  obtain ⟨head, c₁, hhead, h⟩ := bind_eq_ok h
  obtain ⟨_, _, hget, h⟩ := bind_eq_ok h
  obtain ⟨rfl, rfl⟩ := Prod.mk.inj (Except.ok.inj hget)
  have hfront := ((takes_mark "namespace").append (makes_typeName hg).one) hc hready
  have hheaded := hfront.headed (by decide) hhead
  have hclosed := hheaded.reads.closed hc
  split at h
  · rename_i htest
    have hmembers := hg.scopeMember.one.repeatWhile (needs_zero fun c => !c.atEnd)
    have hparts := (hheaded.given_append (takes_token hclosed (needs_sees ";" hclosed htest))).append
      hc hmembers
    exact hparts.build_heavy (by omega) (by decide) rfl rfl h
  · have hmembers := hg.scopeMember.one.repeatWhile (needs_zero fun c => !c.atBodyEnd)
    have hparts := (((hheaded.given.append hc (takes_mark Token.openBrace)).append hc
      hmembers).append hc (takes_mark Token.closeBrace)).append hc
      (takes_token.whenAt (needs_sees ";"))
    exact hparts.build_heavy (by omega) (by decide) rfl rfl h

theorem makes_scopeMemberOf : Makes 0 1 1 (scopeMemberOf g) := by
  intro c hc hready n d h
  simp only [scopeMemberOf] at h
  rcases ite_eq_iff.1 h with ⟨-, h⟩ | ⟨-, h⟩
  · exact makes_usingDirective hg hc hready h
  rcases ite_eq_iff.1 h with ⟨-, h⟩ | ⟨-, h⟩
  · exact makes_namespaceDeclaration hg hc hready h
  rcases ite_eq_iff.1 h with ⟨-, h⟩ | ⟨-, h⟩
  · exact makes_attributeList hg hc hready h
  · exact makes_memberOf hg hc hready h

/-- A file is read to its end, and its last part is the token that ends the text. -/
theorem built_compilationUnit {c d : Cursor} {n : Node} (hc : c.Closed)
    (h : compilationUnit g c = .ok (n, d)) :
    n.Built ∧ n.kind = .compilationUnit ∧ ∃ parts, n.children = parts ++ [.token c.finish] ∧
      Element.tokensIn parts = c.ahead := by
  obtain ⟨parts, hparts, rfl⟩ := build_eq_ok h
  obtain ⟨xs, e, ys, hxs, hys, rfl⟩ := append_eq_ok hparts
  obtain ⟨hreads, -, hlevel⟩ := hg.scopeMember.one.repeatWhile (needs_zero _) hc (Nat.zero_le _) hxs
  have hexit := hg.scopeMember.one.repeatWhile_exit (needs_zero _) (Nat.le_refl _) hc hxs
  -- The members go on until nothing is ahead.
  have hnone : e.ahead = [] := by simpa [atEnd] using hexit
  obtain ⟨t, e', hbump, hys⟩ := bind_eq_ok hys
  rw [bump, hnone] at hbump
  obtain ⟨rfl, rfl⟩ := Prod.mk.inj (Except.ok.inj hbump)
  obtain ⟨rfl, rfl⟩ := Prod.mk.inj (Except.ok.inj hys)
  have hbelow : ∀ m, .node m ∈ xs ++ [.token e.finish] → m.kind.level < 1 :=
    fun m hm => hlevel m (by simpa using hm)
  refine ⟨.ofChildren ⟨.inl ?_, ?_, ?_, ?_⟩ fun m hm => hreads.built m (by simpa using hm), rfl,
    xs, by rw [hreads.finish]; rfl, ?_⟩
  · exact fun m hm => Nat.lt_succ_of_lt (hbelow m hm)
  · exact fun m hm => Nat.lt_succ_of_lt (hbelow m hm)
  · exact fun hsuffixed => Bool.noConfusion hsuffixed
  · intro precedence width hoperator
    cases hoperator
  · rw [hreads.ahead, hnone, List.append_nil]

/-! ## Grammars of every depth -/

omit hg in
theorem sound_nothing : Sound nothing where
  type := makes_fail 0 1 1 _
  expression := makes_fail 0 1 1 _
  operand := makes_fail 0 1 1 _
  binary _ := makes_fail 0 1 1 _
  bounds := nofun
  initializer := makes_fail 0 1 1 _
  statement := makes_fail 0 1 1 _
  member := makes_fail 0 1 1 _
  scopeMember := makes_fail 0 1 1 _

theorem Sound.deepen : (deepen g).Sound where
  type := makes_typeOf hg
  expression := makes_expressionOf hg
  operand := makes_unary hg
  binary := makes_binaryOf hg
  bounds least _ _ _ := bounds_binaryOf hg least
  initializer := makes_initializerOf hg
  statement := makes_statementOf hg
  member := makes_memberOf hg
  scopeMember := makes_scopeMemberOf hg

omit hg in
theorem sound_nesting (n : Nat) : (nesting n).Sound := by
  induction n with
  | zero => exact sound_nothing
  | succ n ih => exact ih.deepen

end Recast.Grammar
