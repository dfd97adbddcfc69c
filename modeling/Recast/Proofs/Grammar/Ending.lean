-- SUMMARY: Reading ends on every text: constructs take tokens, loops end, and nested constructs come to the bottom of the grammar before its depth is used up.
import Recast.Proofs.Grammar.Looping
import Recast.Proofs.Grammar.Lossless
import Recast.Proofs.Grammar.Nesting

/-! # Reading ends

The loops of the grammar have a bound and its recursion has a depth; neither is what ends them. A
construct that is accepted has taken a token, so the loops end by themselves, and constructs nest no
deeper than there are tokens. All this holds of every cursor over the tokens of a text, so of
malformed texts as well. -/

namespace Recast

open Recast.Parser Recast.Cursor

namespace Cursor

/-- A cursor over the tokens of a text: it stands somewhere in front of the last of them, which it
    does not pass. -/
def Over (ts : List Token) (c : Cursor) : Prop :=
  ∃ before, ts = before ++ (c.ahead ++ [c.finish])

variable {ts : List Token} {c d : Cursor}

theorem Over.closed {source : String} (hscan : Token.scan source = .ok ts) (h : c.Over ts) :
    c.Closed := by
  obtain ⟨before, hbefore⟩ := h
  obtain ⟨init, trivia, stop, hlast, -⟩ := (Token.scanned_of_scan hscan).finish
  rw [← List.append_assoc] at hbefore
  obtain ⟨-, hfinish⟩ := List.append_singleton_inj.1 (hbefore.symm.trans hlast)
  rw [Closed, hfinish]
  rfl

theorem over_ofTokens {source : String} (hscan : Token.scan source = .ok ts) :
    (ofTokens ts).Over ts := by
  obtain ⟨trivia, stop, htokens, hfinish⟩ := (Token.scanned_of_scan hscan).cursor_eq
  exact ⟨[], by rw [hfinish]; exact htokens⟩

theorem Over.length_lt (h : c.Over ts) : c.ahead.length < ts.length := by
  obtain ⟨before, rfl⟩ := h
  simp only [List.length_append, List.length_singleton]
  omega

theorem Reads.over {parts : List Element} (h : c.Reads parts d) (hc : c.Over ts) : d.Over ts := by
  obtain ⟨before, rfl⟩ := hc
  refine ⟨before ++ Element.tokensIn parts, ?_⟩
  rw [h.ahead, h.finish, List.append_assoc, List.append_assoc]

end Cursor

/-! ## Progress -/

/-- What the parser accepts takes at least a token, and leaves the cursor over the tokens. -/
def Parser.Moves (ts : List Token) (p : Parser Node) : Prop :=
  ∀ ⦃c n d⦄, c.Over ts → p c = .ok (n, d) → d.Over ts ∧ d.ahead.length < c.ahead.length

/-- Every construct of the grammar moves on. -/
structure Grammar.Moves (ts : List Token) (g : Grammar) : Prop where
  scopeMember : Parser.Moves ts g.scopeMember
  member : Parser.Moves ts g.member
  statement : Parser.Moves ts g.statement
  expression : Parser.Moves ts g.expression
  operand : Parser.Moves ts g.operand
  binary : ∀ least, Parser.Moves ts (g.binary least)
  initializer : Parser.Moves ts g.initializer
  type : Parser.Moves ts g.type
  attributeList : Parser.Moves ts g.attributeList
  argument : Parser.Moves ts g.argument
  parameter : Parser.Moves ts g.parameter

namespace Grammar

variable {ts : List Token} {source : String} {g : Grammar}

theorem moves_of_makes (hscan : Token.scan source = .ok ts) {w l : Nat} {p : Parser Node}
    (hp : Makes 0 w l p) (hw : 1 ≤ w) : Parser.Moves ts p := by
  intro c n d hc h
  obtain ⟨hreads, hweight, -⟩ := hp (hc.closed hscan) (Nat.zero_le _) h
  exact ⟨hreads.over hc, hreads.shorter (by simpa using Nat.le_trans hw hweight)⟩

theorem Sound.moves (hg : g.Sound) (hscan : Token.scan source = .ok ts) : g.Moves ts where
  scopeMember := moves_of_makes hscan hg.scopeMember (Nat.le_refl _)
  member := moves_of_makes hscan hg.member (Nat.le_refl _)
  statement := moves_of_makes hscan hg.statement (Nat.le_refl _)
  expression := moves_of_makes hscan hg.expression (Nat.le_refl _)
  operand := moves_of_makes hscan hg.operand (Nat.le_refl _)
  binary least := moves_of_makes hscan (hg.binary least) (Nat.le_refl _)
  initializer := moves_of_makes hscan hg.initializer (Nat.le_refl _)
  type := moves_of_makes hscan hg.type (Nat.le_refl _)
  attributeList := moves_of_makes hscan (makes_attributeList hg) (Nat.le_refl _)
  argument := moves_of_makes hscan (makes_argument hg) (Nat.le_refl _)
  parameter := moves_of_makes hscan (makes_parameter hg) (Nat.le_refl _)

/-! ## Loops -/

/-- The repetition is the loop that goes on while the test holds. -/
def WhileEnds (ts : List Token) (test : Cursor → Bool) (p : Piece) : Prop :=
  ∀ ⦃c⦄, c.Over ts → (whileTurn test p).Ends [] c (repeatWhile test p c)

/-- The list is the loop that goes on behind every comma. -/
def ItemsEnd (ts : List Token) (close : String) (item : Piece) : Prop :=
  ∀ ⦃c⦄, c.Over ts → (itemTurn close item).Ends [] c (openList close item c)

/-- The growth is the loop that goes on as long as the node is extended. -/
def GrowthEnds (ts : List Token) (next : Extension) : Prop :=
  ∀ ⦃c⦄, c.Over ts → ∀ left, (growTurn next).Ends left c (growths next (c.ahead.length + 1) left c)

/-- Each loop of the grammar ends by itself, in what the bounded loop comes to. -/
structure LoopsEnd (ts : List Token) (g : Grammar) : Prop where
  -- Members and statements
  file : WhileEnds ts (fun c => !c.atEnd) (one g.scopeMember)
  namespaceBody : WhileEnds ts (fun c => !c.atBodyEnd) (one g.scopeMember)
  typeBody : WhileEnds ts (fun c => !c.atBodyEnd) (one g.member)
  block : WhileEnds ts (fun c => !c.atBodyEnd) (one g.statement)
  statements : WhileEnds ts (fun c => !c.atEnd) (one g.statement)
  switchSections : WhileEnds ts (fun c => !c.atBodyEnd) (one (switchSection g))
  switchLabels : WhileEnds ts atSwitchLabel (one switchLabel)
  sectionStatements : WhileEnds ts (fun c => !c.atBodyEnd && !atSwitchLabel c) (one g.statement)
  catches : WhileEnds ts (sees "catch") (one (catchClause g))
  attributeRuns : WhileEnds ts (sees "[") (one (attributeList g))
  -- Lists of items behind a first one
  arguments : WhileEnds ts (sees ",") (token ++ one (argument g))
  attributeArguments : WhileEnds ts (sees ",") (token ++ one (attributeArgument g))
  parameters : WhileEnds ts (sees ",") (token ++ one (parameter g))
  declarators : WhileEnds ts (sees ",") (token ++ one (declarator g))
  typeArguments : WhileEnds ts (sees ",")
    (token ++ whenAt (fun c => !c.seesAny [",", ">"]) (one g.type))
  tupleElements : WhileEnds ts (sees ",")
    (token ++ one (build .tupleElement (one g.type ++ whenAt atName token)))
  typeParameters : WhileEnds ts (sees ",")
    (token ++ one (build .typeParameter
      (attributeLists g ++ whenAt (seesAny ["in", "out"]) token ++ name)))
  baseTypes : WhileEnds ts (sees ",")
    (token ++ one (build .baseType (one g.type ++ whenAt (sees "(") (one (argumentList g)))))
  arraySizes : WhileEnds ts (sees "[") (one (sizes g))
  -- Lists that may be empty
  initializers : ItemsEnd ts Token.closeBrace
    (ifAt (sees Token.openBrace) (one g.initializer) (one g.expression))
  attributes : ItemsEnd ts "]" (one (attributeOf g))
  lambdaParameters : ItemsEnd ts ")"
    (one (build .parameter
      (one (build .modifiers (repeatWhile (seesAny ["ref", "out", "in", "params"]) token))
        ++ whenAt (fun c => !(c.atNameThen "," || c.atNameThen ")")) (one g.type) ++ name)))
  collection : ItemsEnd ts "]"
    (ifAt (sees "..") (one (build .prefixUnaryExpression (token ++ one g.expression)))
      (one g.expression))
  sizes : ItemsEnd ts "]" (whenAt (fun c => !c.sees ",") (one g.expression))
  -- Chains
  qualifiedNames : GrowthEnds ts fun c =>
    if c.sees "." && (c.nth 1).kind == .identifier then
      some (.qualifiedName, token ++ one (simpleTypeName g))
    else none
  typeSuffixes : GrowthEnds ts typeSuffix
  primarySuffixes : GrowthEnds ts (primarySuffix g)
  operators : ∀ least, GrowthEnds ts fun c =>
    match binaryOperator? c with
    | none => none
    | some (precedence, width) =>
      if precedence < least then none
      else some (.binaryExpression, take width ++ rightOperand g c.current.text precedence)
  patterns : ∀ ⦃c bound⦄, c.Over ts → c.ahead.length < bound →
    (whileTurn atPatternJoin (token ++ simplePattern g)).Ends [] c (morePatterns g bound c)
  ranks : WhileEnds ts atRank (one rank)
  explicitInterfaces : WhileEnds ts (atNameThen ".") (token ++ token)
  -- Runs of tokens
  commas : WhileEnds ts (sees ",") token
  negations : WhileEnds ts (fun c => c.current.isName "not") token
  modifiers : ∀ reserved contextual, WhileEnds ts (atModifier reserved contextual) token
  passingModes : ∀ texts, WhileEnds ts (seesAny texts) token
  constraints : WhileEnds ts (fun c => !(c.seesAny [Token.openBrace, ";", "=>"] || c.atEnd))
    (ifAt (sees "(") (orElse group token) token)
  labelTokens : WhileEnds ts (fun c => !c.sees ":")
    (ifAt atBodyEnd (fail "':'") (ifAt atBracket group token))
  jumpTokens : WhileEnds ts (fun c => !(c.sees ";" || c.atEnd)) token
  rawRuns : ∀ ⦃c⦄, c.Over ts → rawTurn.Ends [] c (rawRounds (c.ahead.length + 1) true c)

/-- The joined patterns are a repetition, although each has the next one in it. -/
theorem morePatterns_eq_rounds (bound : Nat) :
    morePatterns g bound = rounds atPatternJoin (token ++ simplePattern g) bound := by
  induction bound with
  | zero => rfl
  | succ bound ih =>
    rw [morePatterns, ih]
    rfl

theorem needs_atPatternJoin : Needs atPatternJoin 1 :=
  (needs_isName "and").or (needs_isName "or")

section

variable (hscan : Token.scan source = .ok ts)

include hscan

theorem whileEnds_of_advances {test : Cursor → Bool} {p : Piece} (hp : Advances test p) :
    WhileEnds ts test p :=
  fun _ hc => ends_repeatWhile hp (hc.closed hscan)

/-- A repetition ends whose rounds take a token. -/
theorem whileEnds {need w l : Nat} {test : Cursor → Bool} {p : Piece} (hp : Takes need w l p)
    (hw : 1 ≤ w) (htest : Needs test need) : WhileEnds ts test p :=
  whileEnds_of_advances hscan (hp.advances hw htest)

/-- Behind a comma the item may be empty. -/
theorem whileEnds_comma {w l : Nat} {item : Piece} (hitem : Takes 0 w l item) :
    WhileEnds ts (sees ",") (token ++ item) :=
  whileEnds hscan hitem.token_append (by omega) (needs_sees ",")

theorem itemsEnd {w l : Nat} {close : String} {item : Piece} (hitem : Takes 0 w l item) :
    ItemsEnd ts close item :=
  fun _ hc => ends_openList hitem.settles (hc.closed hscan)

theorem growthEnds {first : Node → Cursor → Prop} {next : Extension} (hnext : Extends first next) :
    GrowthEnds ts next :=
  fun _ hc left => ends_growths hnext.lengthens (hc.closed hscan) (Nat.lt_succ_self _) left

theorem Sound.loopsEnd (hg : g.Sound) : g.LoopsEnd ts where
  file := whileEnds hscan hg.scopeMember.one (Nat.le_refl _) (needs_zero _)
  namespaceBody := whileEnds hscan hg.scopeMember.one (Nat.le_refl _) (needs_zero _)
  typeBody := whileEnds hscan hg.member.one (Nat.le_refl _) (needs_zero _)
  block := whileEnds hscan hg.statement.one (Nat.le_refl _) (needs_zero _)
  statements := whileEnds hscan hg.statement.one (Nat.le_refl _) (needs_zero _)
  switchSections := whileEnds hscan (makes_switchSection hg).one (Nat.le_refl _) (needs_zero _)
  switchLabels := whileEnds hscan makes_switchLabel.one (Nat.le_refl _) needs_atSwitchLabel
  sectionStatements := whileEnds hscan hg.statement.one (Nat.le_refl _) (needs_zero _)
  catches := whileEnds hscan (makes_catchClause hg).one (Nat.le_refl _) (needs_sees _)
  attributeRuns := whileEnds hscan (makes_attributeList hg).one (Nat.le_refl _) (needs_zero _)
  arguments := whileEnds_comma hscan (makes_argument hg).one
  attributeArguments := whileEnds_comma hscan (makes_attributeArgument hg).one
  parameters := whileEnds_comma hscan (makes_parameter hg).one
  declarators := whileEnds_comma hscan (makes_declarator hg).one
  typeArguments := whileEnds_comma hscan (hg.type.one.whenAt (needs_zero _))
  tupleElements := whileEnds_comma hscan (makes_tupleElement hg).one
  typeParameters := whileEnds_comma hscan (makes_typeParameter hg).one
  baseTypes := whileEnds_comma hscan (makes_baseType hg).one
  arraySizes := whileEnds hscan (makes_sizes hg).one (Nat.le_refl _) (needs_sees _)
  initializers := itemsEnd hscan (takes_initializerItem hg)
  attributes := itemsEnd hscan (makes_attributeOf hg).one
  lambdaParameters := itemsEnd hscan (makes_lambdaParameter hg _).one
  collection := itemsEnd hscan (takes_collectionItem hg)
  sizes := itemsEnd hscan (hg.expression.one.whenAt (needs_zero _))
  qualifiedNames := growthEnds hscan (extends_qualifiedName hg)
  typeSuffixes := growthEnds hscan extends_typeSuffix
  primarySuffixes := growthEnds hscan (extends_primarySuffix hg)
  operators least := growthEnds hscan (extends_operator hg least)
  patterns _ _ hc hbound := by
    have hround := (takes_token.append (takes_simplePattern hg)).advances (by decide) needs_atPatternJoin
    have hends := ends_rounds hround (hc.closed hscan) hbound []
    rwa [resume_nil, ← morePatterns_eq_rounds] at hends
  ranks := whileEnds hscan makes_rank.one (Nat.le_refl _) (needs_atRank.mono (by decide))
  explicitInterfaces := whileEnds hscan takes_token.token_append (by decide) (needs_atNameThen ".")
  commas := whileEnds hscan takes_token (by decide) (needs_sees _)
  negations := whileEnds hscan takes_token (by decide) (needs_isName _)
  modifiers reserved contextual :=
    whileEnds hscan takes_token (by decide) (needs_atModifier reserved contextual)
  passingModes texts := whileEnds hscan takes_token (by decide) (needs_seesAny texts)
  constraints := whileEnds hscan takes_constraintPart (by decide) (needs_notAtEnd _)
  labelTokens := whileEnds hscan takes_labelPart (by decide) (needs_zero _)
  jumpTokens := whileEnds hscan takes_token (by decide) (needs_notAtEnd _)
  rawRuns _ hc := by
    have hends := ends_rawRounds (hc.closed hscan) (Nat.lt_succ_self _) []
    rwa [resume_nil] at hends

end

/-! ## Nesting -/

/-- The same at every cursor over the tokens. -/
def SameOver {α : Type} (ts : List Token) (p q : Parser α) : Prop :=
  ∀ ⦃c⦄, c.Over ts → p c = q c

/-- Grammars that read every construct in the same way at every cursor over the tokens. -/
structure ReadsAlike (ts : List Token) (g h : Grammar) : Prop where
  file : SameOver ts (compilationUnit g) (compilationUnit h)
  scopeMember : SameOver ts g.scopeMember h.scopeMember
  member : SameOver ts g.member h.member
  statement : SameOver ts g.statement h.statement
  statements : SameOver ts (repeatWhile (fun c => !c.atEnd) (one g.statement))
    (repeatWhile (fun c => !c.atEnd) (one h.statement))
  expression : SameOver ts g.expression h.expression
  operand : SameOver ts g.operand h.operand
  binary : ∀ least, SameOver ts (g.binary least) (h.binary least)
  initializer : SameOver ts g.initializer h.initializer
  type : SameOver ts g.type h.type
  typeName : SameOver ts (typeName g) (typeName h)
  attributeOf : SameOver ts (attributeOf g) (attributeOf h)
  attributeList : SameOver ts (attributeList g) (attributeList h)
  attributeArguments : SameOver ts (attributeArguments g) (attributeArguments h)
  argument : SameOver ts (argument g) (argument h)
  parameter : SameOver ts (parameter g) (parameter h)

theorem sameOver_of_sameBelow (hscan : Token.scan source = .ok ts) {α : Type} {n step : Nat}
    {p q : Parser α} (h : SameBelow 0 n step p q) (hn : ts.length ≤ n) : SameOver ts p q :=
  fun _ hc => (h (hc.closed hscan) (Nat.zero_le _) (Nat.lt_of_lt_of_le hc.length_lt hn)).1

theorem AlikeBelow.readsAlike (hscan : Token.scan source = .ok ts) {n : Nat} {h : Grammar}
    (hg : AlikeBelow n g h) (hn : ts.length ≤ n) : ReadsAlike ts g h where
  file := sameOver_of_sameBelow hscan (same_compilationUnit hg) hn
  scopeMember := sameOver_of_sameBelow hscan hg.scopeMember hn
  member := sameOver_of_sameBelow hscan hg.member hn
  statement := sameOver_of_sameBelow hscan hg.statement hn
  statements := sameOver_of_sameBelow hscan (hg.statement.one.repeatWhile (needs_zero _)) hn
  expression := sameOver_of_sameBelow hscan hg.expression hn
  operand := sameOver_of_sameBelow hscan hg.operand hn
  binary least := sameOver_of_sameBelow hscan (hg.binary least) hn
  initializer := sameOver_of_sameBelow hscan hg.initializer hn
  type := sameOver_of_sameBelow hscan hg.type hn
  typeName := sameOver_of_sameBelow hscan (same_typeName hg).lower hn
  attributeOf := sameOver_of_sameBelow hscan (same_attributeOf hg).lower hn
  attributeList := sameOver_of_sameBelow hscan (same_attributeList hg).lower hn
  attributeArguments := sameOver_of_sameBelow hscan (same_attributeArguments hg).lower hn
  argument := sameOver_of_sameBelow hscan (same_argument hg) hn
  parameter := sameOver_of_sameBelow hscan (same_parameter hg) hn

end Grammar

/-! ## The theorem -/

theorem orElse_of_refused {α : Type} {p q : Parser α} {c : Cursor} {e : ParseError}
    (h : p c = .error e) : orElse p q c = q c := by
  rw [orElse, h]

theorem recover_of_refused {α : Type} {p q : Parser α} {c d : Cursor} {a : α} {e : ParseError}
    (h : p c = .error e) (hq : q c = .ok (a, d)) : recover p q c = .ok (a, d) := by
  rw [recover, h, hq]

/-- Reading ends on every text, from its first token on. A construct that is accepted has moved the
    cursor on, and not past the token that ends the text; an attempt that is refused leaves the next
    one the cursor that it found; so every loop ends by itself; and no construct nests deeper than
    the text has tokens, so whatever grammar stands at the bottom is not asked. -/
theorem reading_ends {source : String} {ts : List Token} (hscan : Token.scan source = .ok ts) :
    (Cursor.ofTokens ts).Over ts ∧
    (∀ n, (Grammar.nesting n).Moves ts ∧ (Grammar.nesting n).LoopsEnd ts) ∧
    (∀ {α : Type} (p q : Parser α) (c : Cursor) (e : ParseError), p c = .error e →
      orElse p q c = q c ∧ ∀ a d, q c = .ok (a, d) → recover p q c = .ok (a, d)) ∧
    ∀ (bottom : Grammar) (n : Nat), ts.length ≤ n →
      Grammar.ReadsAlike ts (Grammar.nestingOver bottom n) (Grammar.nesting n) := by
  refine ⟨Cursor.over_ofTokens hscan, fun n => ?_, fun p q c e hrefused => ?_, fun bottom n hn => ?_⟩
  · have hsound := Grammar.sound_nesting n
    exact ⟨hsound.moves hscan, hsound.loopsEnd hscan⟩
  · exact ⟨orElse_of_refused hrefused, fun a d => recover_of_refused hrefused⟩
  · exact (Grammar.alikeBelow_nestingOver bottom n).readsAlike hscan hn

/-- A file that breaks off in a call: its blocks and the runs that it is kept as end, and deeper
    grammars read it in the same way. -/
theorem reading_ends_unclosed : ∃ ts, Token.scan "class C \x7b void M() \x7b x(" = .ok ts ∧
    ts.length = 11 ∧ (Grammar.nesting 11).LoopsEnd ts ∧
    Grammar.compilationUnit (Grammar.nesting 99) (.ofTokens ts) =
      Grammar.compilationUnit (Grammar.nesting 11) (.ofTokens ts) := by
  have hscan : (Token.scan "class C \x7b void M() \x7b x(").toOption.map List.length = some 11 := by
    decide +kernel
  cases hts : Token.scan "class C \x7b void M() \x7b x(" with
  | error e =>
    rw [hts] at hscan
    cases hscan
  | ok ts =>
    rw [hts] at hscan
    have hlength : ts.length = 11 := Option.some.inj hscan
    obtain ⟨hstart, hends, -, hdepth⟩ := reading_ends hts
    exact ⟨ts, rfl, hlength, (hends 11).2,
      (hdepth (Grammar.nesting 88) 11 (Nat.le_of_eq hlength)).file hstart⟩

end Recast
