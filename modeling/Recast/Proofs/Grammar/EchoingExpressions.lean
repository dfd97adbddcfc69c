-- SUMMARY: Types, expressions and the parts of declarations are read of a passage in one place as in another.
import Recast.Proofs.Grammar.Ending
import Recast.Proofs.Grammar.Mirroring

/-! # Productions on passages

What the constructs in a production read of a passage in two places, the production does. Types
never come to the end of a passage, so they are also refused alike, and with them the attempts that
the grammar makes before it reads something else. -/

namespace Recast

open Recast.Parser Recast.Cursor

/-- A cursor at which nothing goes on that a statement or a member may go on with. -/
def Cursor.Calm (c : Cursor) : Prop :=
  c.seesAny ["else", "catch", "finally", ";", "="] = false

theorem Cursor.Calm.sees {c : Cursor} (h : c.Calm) {text : String}
    (htext : text ∈ ["else", "catch", "finally", ";", "="]) : c.sees text = false := by
  cases hsees : c.sees text with
  | false => rfl
  | true => exact absurd (List.any_eq_true.2 ⟨text, htext, hsees⟩) (Bool.eq_false_iff.1 h)

namespace Grammar

/-- Two places where passages are read: neither goes on with what a passage may end in. -/
structure Borders (l r : Cursor) : Prop where
  closed : l.Closed
  calm : l.Calm
  calm' : r.Calm

/-- Grammars the second of which reads of passages in front of `r` what the first one reads of them
    in front of `l`, with fewer than `m` tokens ahead. -/
structure EchoesBelow (l r : Cursor) (m : Nat) (g h : Grammar) : Prop where
  borders : Borders l r
  type : Mirrors l r false m true g.type h.type
  expression : Echoes l r Node.Known false m true g.expression h.expression
  operand : Echoes l r Node.Known false m true g.operand h.operand
  binary : ∀ least, Echoes l r Node.Known false m true (g.binary least) (h.binary least)
  initializer : Echoes l r Node.Known false m true g.initializer h.initializer
  statement : Finishes l r Node.Known m g.statement h.statement
  member : Finishes l r Node.Known m g.member h.member
  scopeMember : Finishes l r Node.Known m g.scopeMember h.scopeMember
  refuses : ∀ ⦃c⦄, operandStarts c = false → ∀ x, h.operand c ≠ .ok x
  casts : ∀ ⦃ts⦄, Passage l ts → (l.facing ts).ahead.length < m + 1 →
    g.startsCast (l.facing ts) = true → (cast g).leadsTo (fun _ => true) (l.facing ts) = true

/-! ## Productions put differently -/

/-- An angle bracket behind something else than a name makes no difference. -/
theorem simpleTypeName_eq (g : Grammar) :
    simpleTypeName g = ifAt (atNameThen "<") (build .genericName (name ++ one (typeArguments g)))
      (build .identifierName name) := by
  funext c
  by_cases hname : c.atName = true
  · have htest : seesAt 1 "<" c = atNameThen "<" c := by simp [atNameThen, hname]
    show (if seesAt 1 "<" c = true then _ else _) = (if atNameThen "<" c = true then _ else _)
    rw [htest]
  · have hrefused : name c = .error (c.refusal "identifier") := if_neg hname
    have hgeneric : build .genericName (name ++ one (typeArguments g)) c =
        .error (c.refusal "identifier") := bind_error (bind_error hrefused)
    have hplain : build .identifierName name c = .error (c.refusal "identifier") :=
      bind_error hrefused
    show (if seesAt 1 "<" c = true then _ else _) = (if atNameThen "<" c = true then _ else _)
    rw [hgeneric, hplain, ite_self, ite_self]

/-- The second of two tokens is the one that was seen. -/
theorem token_token {c : Cursor} {text : String} (h : c.seesAt 1 text = true) :
    (token ++ token : Piece) c = (token ++ mark text) c := by
  have hmark : ∀ d : Cursor, d.sees text = true → mark text d = token d := fun d hd => if_pos hd
  obtain ⟨ahead, finish⟩ := c
  rw [append_apply, append_apply]
  cases ahead with
  | nil =>
    show resume _ (token _) = resume _ (mark text _)
    rw [hmark ⟨[], finish⟩ h]
  | cons t ts =>
    show resume _ (token _) = resume _ (mark text _)
    rw [hmark ⟨ts, finish⟩ h]

theorem typeName_eq (g : Grammar) :
    typeName g = grow (fun c =>
      if c.sees "." && (c.nth 1).kind == .identifier then
        some (.qualifiedName, token ++ one (simpleTypeName g))
      else none)
      (ifAt (atNameThen "::")
        (build .aliasQualifiedName (token ++ mark "::" ++ one (simpleTypeName g)))
        (simpleTypeName g)) := by
  refine congrArg (grow _) (funext fun c => ?_)
  by_cases halias : atNameThen "::" c = true
  · have htokens := token_token (Bool.and_eq_true_iff.1 halias).2
    show (if atNameThen "::" c = true then _ else _) = (if atNameThen "::" c = true then _ else _)
    rw [if_pos halias, if_pos halias]
    exact bind_congr (bind_congr htokens)
  · show (if atNameThen "::" c = true then _ else _) = (if atNameThen "::" c = true then _ else _)
    rw [if_neg halias, if_neg halias]

section Productions

variable {l r : Cursor} {m : Nat} {g h : Grammar} (hg : EchoesBelow l r m g h)

include hg

/-! ## Names and types -/

theorem mirrors_typeArguments :
    Mirrors l r false (m + 1) true (typeArguments g) (typeArguments h) := by
  have hargument := hg.type.one.whenAt (alike_seesAny [",", ">"]).not
  exact (((mirrors_mark (by decide)).follow hargument.commaList).append
    (mirrors_mark (by decide))).build

theorem mirrors_simpleTypeName :
    Mirrors l r false (m + 1) true (simpleTypeName g) (simpleTypeName h) := by
  rw [simpleTypeName_eq, simpleTypeName_eq]
  exact .ite (alike_atNameThen "<") (mirrors_name.append (mirrors_typeArguments hg).one).build
    mirrors_name.build

theorem mirrors_typeName : Mirrors l r false (m + 1) true (typeName g) (typeName h) := by
  have hsimple := mirrors_simpleTypeName hg
  rw [typeName_eq, typeName_eq]
  refine MirrorsNext.grow ?_ ?_
  · exact mirrorsNext_ite_soft
      ((soft_sees (by decide)).alike_and (alike_sees ".") fun _ _ _ => rfl)
      (soft_sees (by decide)).and_left (mirrors_token.append hsimple.one) (mirrorsNext_none l r _)
  · exact .ite_soft (alike_atNameThen "::") (soft_atNameThen "::")
      ((mirrors_token.append (mirrors_mark (by decide))).append hsimple.one).build hsimple

theorem mirrors_tupleType : Mirrors l r false (m + 1) true (tupleType g) (tupleType h) := by
  have helement : Mirrors l r false m true (build .tupleElement (one g.type ++ whenAt atName token))
      (build .tupleElement (one h.type ++ whenAt atName token)) :=
    (hg.type.one.append (mirrors_token.whenAt_soft alike_atName soft_atName)).build
  exact (((mirrors_mark (by decide)).follow helement.one.commaList).append
    (mirrors_mark (by decide))).build

omit hg in
theorem alike_atRank : Alike l r atRank :=
  (soft_sees (by decide)).alike_and (alike_sees "[") fun _ _ _ => rfl

omit hg in
theorem soft_atRank : Soft atRank :=
  (soft_sees (by decide)).and_left

omit hg in
theorem mirrors_typeSuffix : MirrorsNext l r m typeSuffix typeSuffix := by
  have hcommas : Mirrors l r false m false (repeatWhile (sees ",") token) _ :=
    mirrors_token.repeatWhile_soft (alike_sees ",") (soft_sees (by decide))
  have hrank : Mirrors l r true m true rank rank :=
    ((mirrors_token.append hcommas).append (mirrors_mark (by decide))).build
  have hranks := hrank.one.repeatWhile_soft alike_atRank soft_atRank
  refine mirrorsNext_ite_soft (alike_sees "?") (soft_sees (by decide)) mirrors_token ?_
  refine mirrorsNext_ite alike_atRank hranks.onward (fun ts hts hless hholds => ?_)
    (mirrorsNext_none l r m)
  exact hrank.one.repeatWhile_of_test alike_atRank (fun _ => soft_atRank) hts hless hholds

theorem mirrors_typeOf : Mirrors l r false (m + 1) true (typeOf g) (typeOf h) := by
  refine mirrors_typeSuffix.grow ?_
  refine .ite (alike_sees "(") (mirrors_tupleType hg) ?_
  exact .ite_soft (fun _ hts => alike_current isPredefinedType hts) (fun c hc => by
    simp only [isPredefinedType, Bool.and_eq_true, beq_iff_eq] at hc
    exact Token.stops_of_keyword hc.1) mirrors_token.build (mirrors_typeName hg)

/-! ## Attempts -/

theorem echoes_simpleName :
    Echoes l r Node.Known false (m + 1) true (simpleName g) (simpleName h) := by
  have hgeneric : Mirrors l r false (m + 1) true
      (build .genericName (name ++ one (typeArguments g))) _ :=
    (mirrors_name.append (mirrors_typeArguments hg).one).build
  have hfollows : Alike l r fun c => c.current.kind == .endOfFile || c.seesAny genericFollowers :=
    Alike.or (fun _ hts => alike_current (fun t => t.kind == .endOfFile) hts) (alike_seesAny _)
  exact (hgeneric.followedBy hfollows).orElse echoes_name.build

theorem mirrors_declarationArgument :
    Mirrors l r false m true (declarationArgument g) (declarationArgument h) :=
  ((hg.type.one.append mirrors_name).append (mirrors_check (alike_seesAny _) _)).build

/-! ## Blocks, arguments, values -/

theorem finishes_block : Finishes l r Node.Known (m + 1) (block g) (block h) := by
  have hstatements := hg.statement.within.one.repeatWhile alike_atBodyEnd.not
  exact (((echoes_mark _).follow hstatements).ends (finishes_mark hg.borders.closed _)).build

theorem echoes_initializerOf :
    Echoes l r Node.Known false (m + 1) true (initializerOf g) (initializerOf h) := by
  have hitem := hg.initializer.one.ifAt (alike_sees Token.openBrace) hg.expression.one
  exact (((echoes_mark _).follow (hitem.openList _)).follow (echoes_mark _)).build

theorem echoes_value : Echoes l r Element.KnownIn false m true (value g) (value h) :=
  (echoes_initializerOf hg).lower.one.ifAt (alike_sees _) hg.expression.one

theorem echoes_equalsValue :
    Echoes l r Node.Known false (m + 1) true (equalsValue g) (equalsValue h) :=
  ((echoes_mark "=").follow (echoes_value hg)).build

theorem echoes_argument : Echoes l r Node.Known false m true (argument g) (argument h) := by
  have hplain := hg.expression.one
  have hlabel := ((echoes_token l r m).append (echoes_token ..)).whenAt (alike_atNameThen ":")
  have hpassed := (echoes_token l r m).append ((mirrors_declarationArgument hg).one.orElse hplain)
  exact (hlabel.append (hpassed.ifAt (alike_seesAny ["ref", "out", "in"]) hplain)).build

theorem echoes_argumentList :
    Echoes l r Node.Known false (m + 1) true (argumentList g) (argumentList h) :=
  ((echoes_argument hg).one.bracketed "(" ")").build

theorem echoes_bracketedArguments :
    Echoes l r Node.Known false (m + 1) true (bracketedArguments g) (bracketedArguments h) :=
  ((echoes_argument hg).one.bracketed "[" "]").build

/-! ## Attributes and parameters -/

theorem echoes_attributeArgument :
    Echoes l r Node.Known false m true (attributeArgument g) (attributeArgument h) := by
  have hlabel := ((echoes_token l r m).append (echoes_token ..)).whenAt
    ((alike_atNameThen "=").or (alike_atNameThen ":"))
  exact (hlabel.append hg.expression.one).build

theorem echoes_attributeArguments :
    Echoes l r Node.Known false (m + 1) true (attributeArguments g) (attributeArguments h) :=
  ((echoes_attributeArgument hg).one.bracketed "(" ")").build

theorem echoes_attributeOf :
    Echoes l r Node.Known false (m + 1) true (attributeOf g) (attributeOf h) :=
  ((mirrors_typeName hg).one.echoes.append
    ((echoes_attributeArguments hg).one.whenAt (alike_sees "("))).build

theorem finishes_attributeList :
    Finishes l r Node.Known (m + 1) (attributeList g) (attributeList h) := by
  have hitem := (echoes_attributeOf hg).one
  have hcolon : Alike l r fun c => c.current.isWord && c.seesAt 1 ":" :=
    Soft.alike_and (fun _ hword => Token.stops_of_isWord hword)
      (fun _ hts => alike_current Token.isWord hts) fun _ _ _ => rfl
  have htarget : Echoes l r Node.Known false (m + 1) true
      (build .attributeTargetSpecifier (token ++ token)) _ :=
    ((echoes_token l r _).append (echoes_token ..)).build
  have hmore := ((echoes_token l r (m + 1)).append (hitem.openList "]")).whenAt (alike_sees ",")
  exact (((((echoes_mark "[").append (htarget.one.whenAt hcolon)).append hitem).append hmore).ends
    (finishes_mark hg.borders.closed "]")).build

theorem echoes_attributeLists :
    Echoes l r Element.KnownIn false (m + 1) false (attributeLists g) (attributeLists h) :=
  (finishes_attributeList hg).within.one.repeatWhile (alike_sees "[")

omit hg in
theorem alike_atModifier (reserved contextual : List String) :
    Alike l r (atModifier reserved contextual) := by
  intro ts hts
  obtain ⟨t, us, rfl⟩ := List.exists_cons_of_ne_nil hts.ne_nil
  simp only [atModifier, current_facing]
  cases hkind : t.kind with
  | identifier =>
    obtain ⟨u, vs, rfl⟩ :=
      List.exists_cons_of_ne_nil (hts.tail_ne_nil (Token.stops_of_identifier hkind))
    rfl
  | _ => rfl

omit hg in
theorem echoes_modifiers (reserved contextual : List String) :
    Echoes l r Node.Known false m false (modifiers reserved contextual)
      (modifiers reserved contextual) :=
  ((echoes_token ..).repeatWhile (alike_atModifier reserved contextual)).build

theorem echoes_parameter :
    Echoes l r Node.Known false m true (parameter g) (parameter h) := by
  have hhead := (echoes_attributeLists hg).lower.append
    (echoes_modifiers parameterModifiers ["scoped"]).one
  have hvalue := (echoes_equalsValue hg).lower.one.whenAt (alike_sees "=")
  exact (((hhead.append hg.type.one.echoes).append echoes_name).append hvalue).build

theorem echoes_parameterList :
    Echoes l r Node.Known false (m + 1) true (parameterList g) (parameterList h) :=
  ((echoes_parameter hg).one.bracketed "(" ")").build

/-! ## Lambdas -/

theorem echoes_lambdaParameters :
    Echoes l r Node.Known false (m + 1) true (lambdaParameters g) (lambdaParameters h) := by
  have hmodes : Echoes l r Node.Known false m false
      (build .modifiers (repeatWhile (seesAny ["ref", "out", "in", "params"]) token)) _ :=
    ((echoes_token ..).repeatWhile (alike_seesAny _)).build
  have htyped : Alike l r fun c => !(c.atNameThen "," || c.atNameThen ")") :=
    ((alike_atNameThen ",").or (alike_atNameThen ")")).not
  have hparameter : Echoes l r Node.Known false m true (build .parameter _) _ :=
    ((hmodes.one.append (hg.type.one.echoes.whenAt htyped)).append echoes_name).build
  exact (((echoes_mark "(").follow (hparameter.one.openList ")")).follow (echoes_mark ")")).build

omit hg in
theorem echoes_take (n : Nat) : Echoes l r Element.KnownIn false m false (take n) (take n) := by
  induction n with
  | zero => exact echoes_given []
  | succ n ih => exact ((echoes_token l r m).append ih).stay

omit hg in
theorem echoes_take_pos {n : Nat} (hn : 1 ≤ n) :
    Echoes l r Element.KnownIn false m true (take n) (take n) := by
  obtain ⟨n, rfl⟩ : ∃ k, n = k + 1 := ⟨n - 1, by omega⟩
  exact (echoes_token l r m).append (echoes_take n)

/-- Whether a list of parameters starts at the cursor. -/
def startsParameters (c : Cursor) : Bool :=
  c.sees "(" && arrowAfter 0 c.ahead

omit hg in
/-- The parenthesis is closed in the passage, and something of it is left behind. -/
theorem alike_startsParameters : Alike l r startsParameters := by
  intro ts hts
  obtain ⟨t, us, rfl⟩ := List.exists_cons_of_ne_nil hts.ne_nil
  have hsame : (l.facing (t :: us)).sees "(" = (r.facing (t :: us)).sees "(" := alike_sees "(" hts
  simp only [startsParameters, ← hsame]
  cases hopens : (l.facing (t :: us)).sees "(" with
  | false => simp only [Bool.false_and]
  | true =>
    obtain ⟨group, rest, hsplit, hrest⟩ := hts.closes (List.suffix_refl _) hopens
    rw [ahead_facing, ahead_facing, arrowAfter_append _ hsplit hrest,
      arrowAfter_append _ hsplit hrest]

omit hg in
theorem lambdaHead?_cons (c : Cursor) (t : Token) (us : List Token) :
    lambdaHead? (c.facing (t :: us)) =
      let isAsync := t.isName "async" &&
        ((c.facing us).atNameThen "=>" || startsParameters (c.facing us))
      let start := if isAsync then c.facing us else c.facing (t :: us)
      if start.atNameThen "=>" then some ⟨isAsync, true⟩
      else if startsParameters start then some ⟨isAsync, false⟩
      else none := by
  change (let isAsync := t.isName "async" &&
        ((c.facing us).atNameThen "=>" || startsParameters (c.facing us))
      let start := if isAsync then 1 else 0
      if ((c.facing (t :: us)).nth start).kind == .identifier &&
        (c.facing (t :: us)).seesAt (start + 1) "=>" then some (LambdaHead.mk isAsync true)
      else if (c.facing (t :: us)).seesAt start "(" &&
        arrowAfter 0 ((c.facing (t :: us)).ahead.drop start) then some ⟨isAsync, false⟩
      else none) = _
  dsimp only
  cases t.isName "async" && ((c.facing us).atNameThen "=>" || startsParameters (c.facing us)) <;> rfl

omit hg in
theorem lambdaHead?_facing {ts : List Token} (hts : Passage l ts) :
    lambdaHead? (l.facing ts) = lambdaHead? (r.facing ts) := by
  obtain ⟨t, us, rfl⟩ := List.exists_cons_of_ne_nil hts.ne_nil
  have hhere : (l.facing (t :: us)).atNameThen "=>" = (r.facing (t :: us)).atNameThen "=>" :=
    alike_atNameThen "=>" hts
  have hlist : startsParameters (l.facing (t :: us)) = startsParameters (r.facing (t :: us)) :=
    alike_startsParameters hts
  rw [lambdaHead?_cons, lambdaHead?_cons]
  cases hasync : t.isName "async" with
  | false =>
    simp only [Bool.false_and, Bool.false_eq_true, if_false, hhere, hlist]
  | true =>
    have hrest := hts.tail (soft_isName "async" (c := l.facing (t :: us)) hasync)
    have hhere' : (l.facing us).atNameThen "=>" = (r.facing us).atNameThen "=>" :=
      alike_atNameThen "=>" hrest
    have hlist' : startsParameters (l.facing us) = startsParameters (r.facing us) :=
      alike_startsParameters hrest
    simp only [Bool.true_and, hhere', hlist']
    cases (r.facing us).atNameThen "=>" || startsParameters (r.facing us) with
    | false => simp only [Bool.false_eq_true, if_false, hhere, hlist]
    | true => simp only [if_true, hhere', hlist']

theorem echoes_lambda (head : LambdaHead) :
    Echoes l r Node.Known false (m + 1) true (lambda g head) (lambda h head) := by
  have hbody := (finishes_block hg).within.lower.one.ifAt (alike_sees Token.openBrace)
    hg.expression.one
  have hbare : Echoes l r Node.Known false (m + 1) true
      (build .parameter (one (build .modifiers (given [])) ++ token)) _ :=
    ((echoes_given []).build.one.append (echoes_token ..)).build
  have hparameters : Echoes l r Node.Known false (m + 1) true
      (if head.isSimple then build .parameter (one (build .modifiers (given [])) ++ token)
        else lambdaParameters g)
      (if head.isSimple then build .parameter (one (build .modifiers (given [])) ++ token)
        else lambdaParameters h) := by
    split
    · exact hbare
    · exact echoes_lambdaParameters hg
  exact (((echoes_take _).append hparameters.one).append (echoes_mark "=>")).follow hbody |>.build

/-! ## Primary expressions -/

theorem echoes_keywordOperand (kind : Kind) :
    Echoes l r Node.Known false (m + 1) true (keywordOperand g kind) (keywordOperand h kind) :=
  ((((echoes_token ..).append (echoes_mark "(")).follow hg.type.one.echoes).follow
    (echoes_mark ")")).build

/-- What follows the first argument in parentheses. -/
theorem echoes_afterFirst (opening : List Element) (first : Node) :
    Echoes l r Node.Known false m false
      (get >>= fun c => if c.sees "," then
          build .tupleExpression (given (opening ++ [.node first])
            ++ repeatWhile (Cursor.sees ",") (token ++ one (argument g)) ++ mark ")")
        else match first.children with
          | [inner] => build .parenthesizedExpression (given (opening ++ [inner]) ++ mark ")")
          | _ => fail "','")
      (get >>= fun c => if c.sees "," then
          build .tupleExpression (given (opening ++ [.node first])
            ++ repeatWhile (Cursor.sees ",") (token ++ one (argument h)) ++ mark ")")
        else match first.children with
          | [inner] => build .parenthesizedExpression (given (opening ++ [inner]) ++ mark ")")
          | _ => fail "','") := by
  refine .get_ite (alike_sees ",") ?_ (.get_const ?_)
  · have hmore := ((echoes_token l r m).append (echoes_argument hg).one).repeatWhile (alike_sees ",")
    exact ((hmore.given_append _).append (echoes_mark ")")).build.stay
  · split
    · exact ((echoes_given _).append (echoes_mark ")")).build.stay
    · exact echoes_fail _

theorem echoes_parenthesized :
    Echoes l r Node.Known false (m + 1) true (parenthesized g) (parenthesized h) := by
  have hrest (opening : List Element) (first : Node) : Echoes l r Node.Known false m false _ _ :=
    echoes_afterFirst hg opening first
  refine (echoes_mark "(").bind_after fun opening =>
    ((echoes_argument hg).bind_holding (hrest opening) ?_).stay
  -- The first argument is in the tuple, and what is in it is in the parentheses.
  intro c first d n e hfirst hread hknown
  obtain ⟨parts, -, rfl⟩ := build_eq_ok hfirst
  change (if _ then build _ _ else _ : Parser Node) d = _ at hread
  split at hread
  · obtain ⟨parts', hparts', rfl⟩ := build_eq_ok hread
    obtain ⟨xs, e₁, ys, hxs, -, rfl⟩ := append_eq_ok hparts'
    obtain ⟨zs, e₂, ws, hzs, -, rfl⟩ := append_eq_ok hxs
    obtain ⟨rfl, -⟩ := Prod.mk.inj (Except.ok.inj hzs)
    have hhead := (Element.knownIn_append.1 (Element.knownIn_append.1 hknown.parts).1).1
    exact Element.knownIn_single.1 (Element.knownIn_append.1 hhead).2
  · split at hread
    · rename_i inner hinner
      obtain ⟨parts', hparts', rfl⟩ := build_eq_ok hread
      obtain ⟨xs, e₁, ys, hxs, -, rfl⟩ := append_eq_ok hparts'
      obtain ⟨rfl, -⟩ := Prod.mk.inj (Except.ok.inj hxs)
      have hhead := (Element.knownIn_append.1 (Element.knownIn_append.1 hknown.parts).1).2
      obtain rfl : parts = [inner] := hinner
      simpa [Node.Known, Element.KnownIn, Shape.isKnown, Kind.isKnownOver] using hhead
    · cases hread

theorem echoes_collection :
    Echoes l r Node.Known false (m + 1) true (collection g) (collection h) := by
  have hspread : Echoes l r Node.Known false m true
      (build .prefixUnaryExpression (token ++ one g.expression)) _ :=
    ((echoes_token ..).append hg.expression.one).build
  have hitem := hspread.one.ifAt (alike_sees "..") hg.expression.one
  exact (((echoes_mark "[").follow (hitem.openList "]")).follow (echoes_mark "]")).build

theorem echoes_sizes : Echoes l r Node.Known false (m + 1) true (sizes g) (sizes h) :=
  (((echoes_token ..).follow ((hg.expression.one.whenAt (alike_sees ",").not).openList "]")).follow
    (echoes_mark "]")).build

theorem echoes_arrayCreation (head : List Element) :
    Echoes l r Node.Known false (m + 1) false (arrayCreation g head) (arrayCreation h head) := by
  have hsizes := (echoes_sizes hg).one.repeatWhile (alike_sees "[")
  have hvalues := (echoes_initializerOf hg).one.whenAt (alike_sees Token.openBrace)
  exact ((hsizes.given_append head).append hvalues).build

omit hg in
theorem alike_isArrayHead (type : Node) : Alike l r (isArrayHead type) :=
  Alike.or (fun _ _ => rfl) (alike_sees "[")

theorem mirrors_tupleArrayType :
    Mirrors l r false m true (tupleArrayType g) (tupleArrayType h) := by
  have hhead (type : Node) : Mirrors l r false m false
      (get >>= fun c => if isArrayHead type c then pure type else fail "array type")
      (get >>= fun c => if isArrayHead type c then pure type else fail "array type") := by
    rw [get_ite_eq]
    have hrefused : Mirrors l r false m false (fail "array type" : Parser Node) _ :=
      mirrors_fail _
    exact .ite (alike_isArrayHead type) (mirrors_pure type) hrefused
  exact hg.type.bind_of hhead (Nat.le_add_right ..)

theorem echoes_creationTail :
    Echoes l r Element.KnownIn false (m + 1) true (creationTail g) (creationTail h) := by
  have hvalues := (echoes_initializerOf hg).one
  have hcall := (echoes_argumentList hg).one.append (hvalues.whenAt (alike_sees Token.openBrace))
  exact hcall.ifAt (alike_sees "(") (hvalues.ifAt (alike_sees Token.openBrace) (echoes_fail _))

theorem echoes_creation : Echoes l r Node.Known false (m + 1) true (creation g) (creation h) := by
  have hvalues := (echoes_initializerOf hg).lower.one
  refine (echoes_mark "new").bind_after fun head => ?_
  refine .get_ite (alike_sees "(") ?_ (.get_ite (alike_sees "[") ?_ ?_)
  · have hattempt : Echoes l r (fun _ => True) false m false
        (Parser.orElse (some <$> tupleArrayType g) (pure none))
        (Parser.orElse (some <$> tupleArrayType h) (pure none)) := by
      rw [map_eq_pure_bind, map_eq_pure_bind]
      exact ((mirrors_tupleArrayType hg).then_pure some).orElse (echoes_pure none)
    refine Echoes.mono (hattempt.bind fun result => (?_ : Echoes l r Node.Known false m false _ _))
      (Nat.le_refl m) id nofun
    cases result with
    | some type => exact (echoes_arrayCreation hg _).lower
    | none =>
      have hcall := (echoes_argumentList hg).lower.one.given_append head
      exact (hcall.append (hvalues.whenAt (alike_sees Token.openBrace))).build.stay
  · have hcommas := (echoes_token l r m).repeatWhile (alike_sees ",")
    exact (((((echoes_token l r m).given_append head).append hcommas).append (echoes_mark "]")).append
      hvalues).build.stay
  refine .get_ite (alike_sees _) (hvalues.given_append head).build.stay (.get_const ?_)
  · refine (hg.type.echoes.bind fun type => (?_ : Echoes l r Node.Known false m false _ _)).stay
    rw [get_ite_eq, get_ite_eq]
    exact .ite (alike_isArrayHead type) (echoes_arrayCreation hg _).lower
      ((echoes_creationTail hg).lower.given_append _).build.stay

theorem echoes_keywordPrimary :
    Echoes l r Node.Known false (m + 1) true (keywordPrimary g) (keywordPrimary h) := by
  have hopened := (echoes_token l r (m + 1)).append (echoes_mark "(")
  have hchecked := (hopened.follow hg.expression.one).follow (echoes_mark ")")
  have hdelegate := ((echoes_token l r (m + 1)).append
    ((echoes_parameterList hg).one.whenAt (alike_sees "("))).append (finishes_block hg).within.one
  have hsingle (kind : Kind) : Echoes l r Node.Known false (m + 1) true (build kind token) _ :=
    (echoes_token ..).build
  have hdefault : Alike l r fun c => c.sees "default" && c.seesAt 1 "(" :=
    (soft_sees (by decide)).alike_and (alike_sees "default") fun _ _ _ => rfl
  refine .ite (alike_seesAny _) (hsingle _) ?_
  refine .ite_both (alike_sees "default") hdefault (echoes_keywordOperand hg _) (hsingle _) ?_
  refine .ite (alike_seesAny _) (echoes_keywordOperand hg _) ?_
  refine .ite (alike_seesAny _) hchecked.build ?_
  refine .ite (alike_sees "this") (hsingle _) (.ite (alike_sees "base") (hsingle _) ?_)
  refine .ite (alike_sees "(") (echoes_parenthesized hg) ?_
  refine .ite (alike_sees "[") (echoes_collection hg) ?_
  refine .ite (alike_sees _) (echoes_initializerOf hg) ?_
  refine .ite (alike_sees "new") (echoes_creation hg) ?_
  refine .ite (alike_sees "delegate") hdelegate.build ?_
  exact .ite (fun _ hts => alike_current isPredefinedType hts) (hsingle _) (echoes_fail _)

theorem echoes_primary :
    Echoes l r Node.Known false (m + 1) true (primary g) (primary h) :=
  .ite (fun _ hts => alike_current Token.isLiteral hts) (echoes_token ..).build
    (.ite alike_atName (echoes_simpleName hg) (echoes_keywordPrimary hg))

theorem echoes_primarySuffix : EchoesNext l r (m + 1) (primarySuffix g) (primarySuffix h) := by
  have hindexed := (echoes_token l r (m + 1)).append (echoes_bracketedArguments hg).one
  have hnullable : Alike l r fun c =>
      c.sees "?" && c.seesAt 1 "[" && c.current.adjacent (c.nth 1) := by
    simp only [Bool.and_assoc]
    exact (soft_sees (by decide)).alike_and (alike_sees "?") fun _ _ _ => rfl
  have hasserted : Alike l r fun c =>
      c.sees "!" && ((c.nth 1).kind == .endOfFile || assertionFollowers.any (c.nth 1).is) :=
    (soft_sees (by decide)).alike_and (alike_sees "!") fun _ _ _ => rfl
  have hswitch : Alike l r fun c => c.sees "switch" && c.seesAt 1 Token.openBrace :=
    (soft_sees (by decide)).alike_and (alike_sees "switch") fun _ _ _ => rfl
  have hwith : Alike l r fun c => c.current.isName "with" && c.seesAt 1 Token.openBrace :=
    (soft_isName "with").alike_and (alike_isName "with") fun _ _ _ => rfl
  refine echoesNext_ite (alike_seesAny _) ((echoes_token ..).append (echoes_simpleName hg).one) ?_
  refine echoesNext_ite (alike_sees "(") (echoes_argumentList hg).one ?_
  refine echoesNext_ite (alike_sees "[") (echoes_bracketedArguments hg).one ?_
  refine echoesNext_ite hnullable hindexed ?_
  refine echoesNext_ite (alike_seesAny _) (echoes_token ..) ?_
  refine echoesNext_ite hasserted (echoes_token ..) ?_
  refine echoesNext_ite hswitch ((echoes_token ..).append echoes_rawGroup.one) ?_
  exact echoesNext_ite hwith ((echoes_token ..).append (echoes_initializerOf hg).one)
    (echoesNext_none ..)

/-! ## Casts and unary operators -/

omit hg in
theorem alike_atAwait : Alike l r atAwait :=
  (soft_isName "await").alike_and (alike_isName "await") fun _ _ _ => rfl

omit hg in
theorem alike_seesPredefined : Alike l r seesPredefined := by
  intro ts hts
  obtain ⟨t, us, rfl⟩ := List.exists_cons_of_ne_nil hts.ne_nil
  have hsame : (l.facing (t :: us)).sees "(" = (r.facing (t :: us)).sees "(" := alike_sees "(" hts
  simp only [seesPredefined, ← hsame]
  cases hopens : (l.facing (t :: us)).sees "(" with
  | false => simp only [Bool.false_and]
  | true =>
    have hrest := hts.tail (Token.stops_of_is (by decide) hopens)
    obtain ⟨u, vs, rfl⟩ := List.exists_cons_of_ne_nil hrest.ne_nil
    simp only [nth_one_facing]
    cases htype : isPredefinedType u with
    | false => simp only [Bool.false_and]
    | true =>
      simp only [isPredefinedType, Bool.and_eq_true, beq_iff_eq] at htype
      obtain ⟨v, ws, rfl⟩ :=
        List.exists_cons_of_ne_nil (hrest.tail_ne_nil (Token.stops_of_keyword htype.1))
      rfl

omit hg in
theorem alike_castOperandFollows (predefined : Bool) : Alike l r (castOperandFollows predefined) :=
  fun _ hts => alike_current (fun t => castOperandFollows predefined ⟨[t], t⟩) hts

omit hg in
theorem alike_operandStarts : Alike l r operandStarts :=
  fun _ hts => alike_current (fun t => operandStarts ⟨[t], t⟩) hts

/-- A cast, to a predefined type or to another one. -/
def castTo (g : Grammar) (predefined : Bool) : Parser Node :=
  build .castExpression
    (castType g ++ check (castOperandFollows predefined) "cast operand" ++ one g.operand)

omit hg in
theorem cast_eq (g : Grammar) : cast g = fun c => castTo g (seesPredefined c) c := by
  funext c
  cases hopens : c.sees "(" with
  | true => simp only [cast, castTo, castType, seesPredefined, hopens, Bool.true_and]
  | false =>
    have hmark : mark "(" c = .error (c.refusal "'('") := if_neg (by simp [hopens])
    have hbuild (predefined : Bool) : castTo g predefined c = .error (c.refusal "'('") := by
      have htype : castType g c = .error (c.refusal "'('") := bind_error (bind_error hmark)
      exact bind_error (bind_error (bind_error htype))
    exact (hbuild _).trans (hbuild _).symm

theorem mirrors_castType : Mirrors l r false (m + 1) true (castType g) (castType h) :=
  ((mirrors_mark (by decide)).follow hg.type.one).append (mirrors_mark (by decide))

theorem echoes_cast : Echoes l r Node.Known false (m + 1) true (cast g) (cast h) := by
  rw [cast_eq, cast_eq]
  refine .view alike_seesPredefined fun predefined => ?_
  have hfollows : Echoes l r Element.KnownIn false (m + 1) false
      (check (castOperandFollows predefined) "cast operand") _ :=
    echoes_check (alike_castOperandFollows predefined) _
  exact (((mirrors_castType hg).echoes.append hfollows).follow hg.operand.one).build

/-- A primary expression with what follows it. -/
theorem echoes_plain :
    Echoes l r Node.Known false (m + 1) true (grow (primarySuffix g) (primary g))
      (grow (primarySuffix h) (primary h)) :=
  (echoes_primarySuffix hg).grow (echoes_primary hg)

/-- What is refused as a cast in the one place is refused in the other: where a cast starts there is
    one. -/
theorem cast_refused {ts : List Token} {e : ParseError} (hts : Passage l ts)
    (hless : (l.facing ts).ahead.length < m + 1) (hrefused : cast g (l.facing ts) = .error e)
    (x : Node × Cursor) :
    cast h (r.facing ts) ≠ .ok x := by
  intro hread
  rw [cast_eq] at hread
  obtain ⟨parts, hparts, -⟩ := build_eq_ok hread
  obtain ⟨xs, d, ys, hxs, hys, -⟩ := append_eq_ok hparts
  obtain ⟨zs, d', ws, hzs, hcheck, -⟩ := append_eq_ok hxs
  have hmirror := (mirrors_castType hg).mirror hts hless nofun
  rw [hzs] at hmirror
  generalize hx : castType g (l.facing ts) = x at hmirror
  cases hmirror with
  | @read us _ suffix ne_nil shorter =>
    have hus := hts.suffix suffix ne_nil
    simp only [check] at hcheck
    split at hcheck
    · rename_i hfollows
      obtain ⟨-, rfl⟩ := Prod.mk.inj (Except.ok.inj hcheck)
      obtain ⟨n, d, hoperand, -⟩ := bind_eq_ok hys
      have hstarts : operandStarts (r.facing us) = true :=
        Bool.not_eq_false _ ▸ fun hnot => hg.refuses hnot _ hoperand
      have hcast : g.startsCast (l.facing ts) = true := by
        show (castType g).leadsTo _ (l.facing ts) = true
        have hpredefined := alike_seesPredefined (r := r) hts
        have hsame := alike_castOperandFollows (r := r) (seesPredefined (r.facing ts)) hus
        have hsame' := alike_operandStarts (r := r) hus
        simp only [leadsTo, hx, hpredefined, hsame, hsame', hfollows, hstarts, Bool.and_self]
      have hleads := hg.casts hts hless hcast
      simp only [leadsTo, hrefused] at hleads
      cases hleads
    · cases hcheck

theorem echoes_castOr :
    Echoes l r Node.Known false (m + 1) true
      (fun c => if c.sees "(" then orElse (cast g) (grow (primarySuffix g) (primary g)) c
        else grow (primarySuffix g) (primary g) c)
      (fun c => if c.sees "(" then orElse (cast h) (grow (primarySuffix h) (primary h)) c
        else grow (primarySuffix h) (primary h) c) := by
  have hcast := echoes_cast hg
  have hplain := echoes_plain hg
  have horElse : Echoes l r Node.Known false (m + 1) true
      (orElse (cast g) (grow (primarySuffix g) (primary g)))
      (orElse (cast h) (grow (primarySuffix h) (primary h))) := by
    refine ⟨hcast.onward.orElse hplain.onward, fun ts us n hts hless hread hknown hlast => ?_⟩
    simp only [orElse] at hread ⊢
    split at hread
    · rename_i result hresult
      cases hread
      obtain ⟨hq, hshorter⟩ := hcast.echo hts hless hresult hknown hlast
      rw [hq]
      exact ⟨rfl, fun _ => hshorter rfl⟩
    · rename_i e hrefused
      obtain ⟨hq, hshorter⟩ := hplain.echo hts hless hread hknown hlast
      have hnot := cast_refused hg hts hless hrefused
      generalize cast h (r.facing ts) = y at hnot
      cases y with
      | ok x => exact absurd rfl (hnot x)
      | error e => exact ⟨hq, fun _ => hshorter rfl⟩
  exact .ite (alike_sees "(") horElse hplain

theorem echoes_unary :
    Echoes l r Node.Known false (m + 1) true (unary g) (unary h) := by
  have hoperand (kind : Kind) : Echoes l r Node.Known false (m + 1) true
      (build kind (token ++ one g.operand)) (build kind (token ++ one h.operand)) :=
    ((echoes_token ..).follow hg.operand.one).build
  have hthrow : Echoes l r Node.Known false (m + 1) true
      (build .throwExpression (token ++ one g.expression)) _ :=
    ((echoes_token ..).follow hg.expression.one).build
  refine .ite (alike_seesAny _) (hoperand _) (.ite alike_atAwait (hoperand _) ?_)
  exact .ite (alike_sees "throw") hthrow (echoes_castOr hg)

/-! ## Patterns and binary operators -/

theorem echoes_simplePattern :
    Echoes l r Element.KnownIn false m true (simplePattern g) (simplePattern h) := by
  have hfollows : Alike l r fun c => !c.seesAny ["(", "."] := (alike_seesAny _).not
  have htype : Mirrors l r false m true
      (one ((typeOf g).followedBy (fun c => !c.seesAny ["(", "."]) "type pattern")) _ :=
    ((mirrors_typeOf hg).lower.followedBy hfollows).one
  have hcore : Echoes l r Element.KnownIn false m true _ _ := htype.orElse hg.operand.one
  have hcompared := (echoes_token l r m).append hg.operand.one
  have hany : Echoes l r Element.KnownIn false m true _ _ :=
    .ite alike_atBracket echoes_rawGroup.one
      (.ite (alike_seesAny ["<", "<=", ">", ">="]) hcompared hcore)
  have hnot := (echoes_token l r m).repeatWhile (alike_isName "not")
  have hname : Alike l r fun c => c.atName && !atPatternJoin c && !c.sees "when" :=
    (alike_atName.and ((alike_isName "and").or (alike_isName "or")).not).and (alike_sees "when").not
  have hgroup : Echoes l r Element.KnownIn false m false
      (whenAt (sees Token.openBrace) (one rawGroup)) _ :=
    echoes_rawGroup.one.whenAt (alike_sees _)
  exact ((hnot.append hany).append hgroup).append ((echoes_token l r m).whenAt hname)

theorem echoes_pattern : Echoes l r Element.KnownIn false m true (pattern g) (pattern h) := by
  have hfirst := echoes_simplePattern hg
  have hround := (echoes_token l r m).append hfirst
  have hjoin : Alike l r atPatternJoin := (alike_isName "and").or (alike_isName "or")
  have hrounds (bound : Nat) : Onward (morePatterns g bound) := by
    rw [morePatterns_eq_rounds]
    exact Echoes.onward_rounds hround.onward bound
  refine ⟨fun c parts d hread => ?_, fun ts us parts hts hless hread hknown hlast => ?_⟩
  · exact (hfirst.onward.append (hrounds (c.ahead.length + 1))) hread
  · have hus : us ≠ [] := fun hnil => nomatch hlast hnil
    obtain ⟨xs, d, ys, hxs, hys, rfl⟩ := append_eq_ok hread
    obtain ⟨hxsKnown, hysKnown⟩ := Element.knownIn_append.1 hknown
    obtain ⟨vs, rfl⟩ := hrounds _ hys
    rw [facing_facing] at hxs hys
    have hleft : vs ++ us ≠ [] := by simp [hus]
    obtain ⟨hq, hshorter⟩ := hfirst.echo hts hless hxs hxsKnown fun hnil => absurd hnil hleft
    have hshorter := hshorter rfl
    obtain ⟨ws, rfl⟩ := hfirst.onward.split hxs
    simp only [List.length_append] at hshorter
    simp only [ahead_facing, List.length_append] at hless
    rw [morePatterns_eq_rounds] at hys
    have hmore : morePatterns h ((r.facing (ws ++ (vs ++ us))).ahead.length + 1)
        (r.facing (vs ++ us)) = .ok (ys, r.facing us) := by
      rw [morePatterns_eq_rounds]
      refine hround.echo_rounds hjoin nofun (hts.suffix (List.suffix_append ws _) hleft) ?_ ?_ ?_
        hys hysKnown fun hnil => absurd hnil hus
      all_goals
        simp only [ahead_facing, List.length_append]
        omega
    exact ⟨append_eq hq hmore, fun _ => by simp only [List.length_append]; omega⟩

theorem echoes_rightOperand (operator : String) (precedence : Nat) :
    Echoes l r Element.KnownIn false m true (rightOperand g operator precedence)
      (rightOperand h operator precedence) := by
  simp only [rightOperand]
  split
  · exact echoes_pattern hg
  · split
    · exact (mirrors_typeOf hg).lower.echoes.one
    · exact (hg.binary _).one

omit hg in
theorem binaryOperator?_facing {ts : List Token} (hts : Passage l ts) :
    binaryOperator? (l.facing ts) = binaryOperator? (r.facing ts) := by
  obtain ⟨t, us, rfl⟩ := List.exists_cons_of_ne_nil hts.ne_nil
  cases hshift : (l.facing (t :: us)).sees ">" with
  | true =>
    obtain ⟨u, vs, rfl⟩ :=
      List.exists_cons_of_ne_nil (hts.tail_ne_nil (Token.stops_of_is (by decide) hshift))
    rfl
  | false =>
    have hshift' : (r.facing (t :: us)).sees ">" = false := hshift
    simp only [binaryOperator?, hshift, hshift']
    rfl

omit hg in
theorem binaryOperator?_width {c : Cursor} {precedence width : Nat}
    (h : binaryOperator? c = some (precedence, width)) : 1 ≤ width := by
  simp only [binaryOperator?] at h
  split at h
  · split at h
    · cases h
    · split at h <;> cases h <;> decide
  · obtain ⟨entry, -, hentry⟩ := Option.map_eq_some_iff.1 h
    cases hentry
    exact Nat.le_refl 1

/-- The operator ahead, with its text, and the operand on its right. -/
def operatorRest (least : Nat) (g : Grammar) : Option (Nat × Nat) × String → Option (Kind × Piece)
  | (none, _) => none
  | (some (precedence, width), text) =>
    if precedence < least then none
    else some (.binaryExpression, take width ++ rightOperand g text precedence)

theorem echoes_binaryOf (least : Nat) :
    Echoes l r Node.Known false (m + 1) true (binaryOf g least) (binaryOf h least) := by
  have heq (g : Grammar) : binaryOf g least = grow
      (fun c => operatorRest least g (binaryOperator? c, c.current.text)) (unary g) := by
    refine congrArg (grow · (unary g)) (funext fun c => ?_)
    cases binaryOperator? c <;> rfl
  rw [heq, heq]
  refine EchoesNext.grow ?_ (echoes_unary hg)
  refine echoesNext_view (f := fun c => (binaryOperator? c, c.current.text))
    (k := operatorRest least)
    (fun ts hts => Prod.ext (binaryOperator?_facing hts) (alike_current Token.text hts)) fun c => ?_
  cases hoperator : binaryOperator? c with
  | none => exact .none
  | some found =>
    obtain ⟨precedence, width⟩ := found
    simp only [operatorRest]
    split
    · exact .none
    · exact .some ((echoes_take_pos (binaryOperator?_width hoperator)).follow
        (echoes_rightOperand hg _ _))

theorem echoes_conditional :
    Echoes l r Node.Known false (m + 1) true (conditional g) (conditional h) := by
  have hfirst := (echoes_token l r (m + 1)).follow hg.expression.one
  have hrest := (hfirst.append (echoes_mark ":")).follow hg.expression.one
  exact (echoesNext_ite (alike_sees "?") hrest (echoesNext_none ..)).growOnce (echoes_binaryOf hg _)

omit hg in
theorem assignmentWidth?_facing {ts : List Token} (hts : Passage l ts) :
    assignmentWidth? (l.facing ts) = assignmentWidth? (r.facing ts) := by
  obtain ⟨t, us, rfl⟩ := List.exists_cons_of_ne_nil hts.ne_nil
  cases hshift : (l.facing (t :: us)).sees ">" with
  | true =>
    obtain ⟨u, vs, rfl⟩ :=
      List.exists_cons_of_ne_nil (hts.tail_ne_nil (Token.stops_of_is (by decide) hshift))
    rfl
  | false =>
    have hshift' : (r.facing (t :: us)).sees ">" = false := hshift
    simp only [assignmentWidth?, hshift, hshift']
    rfl

omit hg in
theorem assignmentWidth?_pos {c : Cursor} {width : Nat} (h : assignmentWidth? c = some width) :
    1 ≤ width := by
  simp only [assignmentWidth?] at h
  split at h
  · cases h
    decide
  · split at h <;> cases h
    decide

theorem echoes_assignment :
    Echoes l r Node.Known false (m + 1) true (assignment g) (assignment h) := by
  refine EchoesNext.growOnce ?_ (echoes_conditional hg)
  refine echoesNext_view (f := assignmentWidth?)
    (k := fun g x => x.map fun width => (.assignmentExpression, take width ++ value g))
    (fun ts hts => assignmentWidth?_facing hts) fun c => ?_
  cases hwidth : assignmentWidth? c with
  | none => exact .none
  | some width =>
    exact .some ((echoes_take_pos (assignmentWidth?_pos hwidth)).follow (echoes_value hg))

/-- A lambda, or what is no lambda. -/
def lambdaOr (g : Grammar) : Option LambdaHead → Parser Node
  | some head => lambda g head
  | none => assignment g

omit hg in
theorem expressionOf_eq (g : Grammar) : expressionOf g = fun c => lambdaOr g (lambdaHead? c) c := by
  funext c
  simp only [expressionOf]
  cases lambdaHead? c <;> rfl

theorem echoes_expressionOf :
    Echoes l r Node.Known false (m + 1) true (expressionOf g) (expressionOf h) := by
  rw [expressionOf_eq, expressionOf_eq]
  refine .view (fun ts hts => lambdaHead?_facing hts) fun head => ?_
  cases head with
  | some head => exact echoes_lambda hg head
  | none => exact echoes_assignment hg

/-! ## Parts of declarations -/

theorem echoes_typeParameters :
    Echoes l r Node.Known false (m + 1) true (typeParameters g) (typeParameters h) := by
  have hhead := (echoes_attributeLists hg).append
    ((echoes_token ..).whenAt (alike_seesAny ["in", "out"]))
  have hitem : Echoes l r Node.Known false (m + 1) true (build .typeParameter _) _ :=
    (hhead.append echoes_name).build
  exact (((echoes_mark "<").append hitem.one.commaList).append (echoes_mark ">")).build

theorem echoes_baseList : Echoes l r Node.Known false (m + 1) true (baseList g) (baseList h) := by
  have hitem : Echoes l r Node.Known false m true (build .baseType _) _ :=
    (hg.type.echoes.one.append
      ((echoes_argumentList hg).lower.one.whenAt (alike_sees "("))).build
  exact ((echoes_mark ":").follow hitem.one.commaList).build

omit hg in
/-- The parenthesis of a group is closed in the passage. -/
theorem group_closed {ts : List Token} (hts : Passage l ts)
    (hopens : (l.facing ts).sees "(" = true) :
    ∃ x, group (l.facing ts) = .ok x := by
  obtain ⟨t, us, rfl⟩ := List.exists_cons_of_ne_nil hts.ne_nil
  obtain ⟨inside, rest, hsplit, -⟩ := hts.closes (List.suffix_refl _) hopens
  have hmore := splitGroup_append (rest ++ l.ahead) hsplit
  rw [← List.append_assoc, ← (splitGroup_eq_some hsplit).1] at hmore
  exact ⟨(inside.map .token, l.facing rest), by simp only [group, hmore, facing]⟩

omit hg in
theorem echoes_groupOrToken :
    Echoes l r Element.KnownIn false m true (ifAt (sees "(") (orElse group token) token)
      (ifAt (sees "(") (orElse group token) token) := by
  have hgroup : Echoes l r Element.KnownIn false m true group group := echoes_group
  have htoken : Echoes l r Element.KnownIn false m true token token := echoes_token l r m
  refine ⟨(hgroup.onward.orElse htoken.onward).ite htoken.onward,
    fun ts us parts hts hless hread hknown hlast => ?_⟩
  simp only [ifAt, ← alike_sees (l := l) (r := r) "(" hts] at hread ⊢
  split at hread
  · rename_i hopens
    obtain ⟨x, hx⟩ := group_closed hts hopens
    simp only [orElse, hx] at hread
    obtain ⟨hq, hshorter⟩ := hgroup.echo hts hless (hx.trans hread) hknown hlast
    rw [if_pos hopens]
    simp only [orElse, hq]
    exact ⟨trivial, fun _ => hshorter rfl⟩
  · rename_i hopens
    obtain ⟨hq, hshorter⟩ := htoken.echo hts hless hread hknown hlast
    rw [if_neg hopens]
    exact ⟨hq, fun _ => hshorter rfl⟩

omit hg in
theorem echoes_constraints :
    Echoes l r Element.KnownIn false m false (whenAt (sees "where") (one constraints))
      (whenAt (sees "where") (one constraints)) :=
  (echoes_groupOrToken.repeatWhile ((alike_seesAny _).or alike_atEnd).not).build.one.whenAt
    (alike_sees _)

theorem echoes_arrowClause :
    Echoes l r Node.Known false (m + 1) true (arrowClause g) (arrowClause h) :=
  ((echoes_mark "=>").follow hg.expression.one).build

theorem finishes_memberBody :
    Finishes l r Element.KnownIn (m + 1) (memberBody g) (memberBody h) := by
  have hsemicolon (m : Nat) : Finishes l r Element.KnownIn m (mark ";") (mark ";") :=
    finishes_mark hg.borders.closed _
  have harrow := (echoes_arrowClause hg).one.ends (hsemicolon _)
  exact .ite (alike_sees _) (finishes_block hg).one (.ite (alike_sees _) harrow (hsemicolon _))

theorem echoes_declaratorAfter (head : List Element) :
    Echoes l r Node.Known false (m + 1) false (declaratorAfter g head) (declaratorAfter h head) :=
  (((echoes_bracketedArguments hg).one.whenAt (alike_sees "[")).given_append head |>.append
    ((echoes_equalsValue hg).one.whenAt (alike_sees "="))).build

theorem echoes_declarator :
    Echoes l r Node.Known false (m + 1) true (declarator g) (declarator h) :=
  echoes_name.bind fun head => echoes_declaratorAfter hg head

theorem echoes_variableDeclaration :
    Echoes l r Node.Known false (m + 1) true (variableDeclaration g) (variableDeclaration h) :=
  ((mirrors_typeOf hg).echoes.one.append (echoes_declarator hg).one.commaList).build

omit hg in
theorem echoes_explicitInterface :
    Echoes l r Element.KnownIn false m false explicitInterface explicitInterface := by
  have hqualifier := ((echoes_token l r m).append (echoes_token ..)).repeatWhile
    (alike_atNameThen ".")
  exact hqualifier.build.one.whenAt (alike_atNameThen ".")

end Productions

end Grammar

end Recast
