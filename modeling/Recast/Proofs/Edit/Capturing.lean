-- SUMMARY: The statements that capture an exception: the words of their text, and what the first of them declares.
import Recast.Edit.Call
import Recast.Proofs.Grammar.Placement
import Recast.Proofs.Grammar.Spelling
import Recast.Proofs.Source.Resuming

/-! # Captured exceptions

A capture is written as text around the name of a variable and the body of a lambda, and read again
as statements. Whatever the body is, the words in front of it are those of a declaration of that one
variable, and the words behind it those of a clause that assigns what it catches to the variable
(`Edit.scan_captureSource`). What it catches has the same name each time. The declaration is read as
the first of the statements (`Edit.captures_of_read`). -/

namespace Recast

/-! ## Declared variables -/

namespace Node

/-- The variables that a declaration of one type declares. -/
def variableNames (n : Node) : List String :=
  (n.childrenOf .variableDeclarator).filterMap identifier?

/-- The variables that a statement declares. -/
def declared (n : Node) : List String :=
  (n.childrenOf .variableDeclaration).flatMap variableNames

end Node

/-! ## Reading a declaration

A nullable type and a variable without a value are read as a declaration of that variable. -/

namespace Grammar

open Recast.Parser Recast.Cursor Recast.Token

section Combinators

variable {c d : Cursor} {t : Token} {ts : List Token} {finish : Token}

theorem name_eq (h : t.kind = .identifier) :
    Parser.name ⟨t :: ts, finish⟩ = .ok ([.token t], ⟨ts, finish⟩) :=
  if_pos (beq_iff_eq.2 h)

theorem growOnce_of_none {next : Extension} {first : Parser Node} {left : Node}
    (h : first c = .ok (left, d)) (hnone : next d = none) :
    growOnce next first c = .ok (left, d) := by
  simp only [growOnce, bind, StateT.bind, Except.bind, h, extend, hnone]
  rfl

theorem is_of_word {kind : TokenKind} {word : String} (h : t.bare = (kind, word)) (text : String) :
    t.is text = ({ kind, text := word } : Token).is text :=
  is_of_bare h text

end Combinators

section Null

variable (g : Grammar) {value stop : Token} (rest : List Token) (finish : Token)
  (hvalue : value.bare = (.keyword, "null")) (hstop : stop.bare = (.punctuation, ";"))

include hvalue hstop

theorem unary_null : unary g ⟨value :: stop :: rest, finish⟩ =
    .ok (.ofChildren .literalExpression [.token value], ⟨stop :: rest, finish⟩) := by
  obtain ⟨hkind, htext⟩ := Prod.mk.inj hvalue
  obtain ⟨hkind', htext'⟩ := Prod.mk.inj hstop
  have hprimary : primary g ⟨value :: stop :: rest, finish⟩ =
      .ok (.ofChildren .literalExpression [.token value], ⟨stop :: rest, finish⟩) := by
    have hread : Parser.build .literalExpression token ⟨value :: stop :: rest, finish⟩ =
        .ok (.ofChildren .literalExpression [.token value], ⟨stop :: rest, finish⟩) := build_eq rfl
    simp [primary, keywordPrimary, atName, seesAny, current, nth, Token.is, Token.isWord,
      Token.isLiteral, hkind, htext, hread]
  have hgrow : grow (primarySuffix g) (primary g) ⟨value :: stop :: rest, finish⟩ =
      .ok (.ofChildren .literalExpression [.token value], ⟨stop :: rest, finish⟩) := by
    rw [grow_eq hprimary, growths_of_none]
    simp [primarySuffix, seesAny, sees, current, nth, Token.is, Token.isWord, isName, hkind', htext']
  simp [unary, atAwait, seesAny, sees, current, nth, Token.is, Token.isWord, isName, hkind, htext,
    hgrow]

theorem expressionOf_null : expressionOf g ⟨value :: stop :: rest, finish⟩ =
    .ok (.ofChildren .literalExpression [.token value], ⟨stop :: rest, finish⟩) := by
  obtain ⟨hkind, htext⟩ := Prod.mk.inj hvalue
  obtain ⟨hkind', htext'⟩ := Prod.mk.inj hstop
  have hbinary : binaryOf g coalescing ⟨value :: stop :: rest, finish⟩ =
      .ok (.ofChildren .literalExpression [.token value], ⟨stop :: rest, finish⟩) := by
    rw [binaryOf, grow_eq (unary_null g rest finish hvalue hstop), growths_of_none]
    simp [binaryOperator?, seesAny, sees, current, nth, Token.is, Token.isWord, hkind', htext']
  have hconditional : conditional g ⟨value :: stop :: rest, finish⟩ =
      .ok (.ofChildren .literalExpression [.token value], ⟨stop :: rest, finish⟩) := by
    refine growOnce_of_none hbinary ?_
    simp [sees, current, nth, Token.is, Token.isWord, hkind', htext']
  have hassignment : assignment g ⟨value :: stop :: rest, finish⟩ =
      .ok (.ofChildren .literalExpression [.token value], ⟨stop :: rest, finish⟩) := by
    refine growOnce_of_none hconditional ?_
    simp [assignmentWidth?, seesAny, sees, current, nth, Token.is, Token.isWord, hkind', htext']
  have hhead : lambdaHead? ⟨value :: stop :: rest, finish⟩ = none := by
    simp [lambdaHead?, seesAt, current, nth, Token.is, Token.isWord, isName, hkind, htext, hkind']
  rw [expressionOf, hhead]
  exact hassignment

end Null

section Declaration

variable (g : Grammar) {type question name equals value stop : Token} (rest : List Token)
  (finish : Token) (hname : name.kind = .identifier) (hequals : equals.bare = (.punctuation, "="))
  (hvalue : value.bare = (.keyword, "null")) (hstop : stop.bare = (.punctuation, ";"))

include hequals hvalue hstop in
theorem equalsValue_null : equalsValue (deepen g) ⟨equals :: value :: stop :: rest, finish⟩ =
    .ok (.ofChildren .equalsValueClause [.token equals,
      .node (.ofChildren .literalExpression [.token value])], ⟨stop :: rest, finish⟩) := by
  have hbrace : sees Token.openBrace ⟨value :: stop :: rest, finish⟩ = false :=
    (is_of_word hvalue _).trans (by decide)
  refine build_eq (append_eq (mark_eq ((is_of_word hequals _).trans (by decide))) ?_)
  rw [Grammar.value, ifAt, hbrace]
  exact one_eq (expressionOf_null g rest finish hvalue hstop)

include hname hequals hvalue hstop in
theorem exists_declarator : ∃ n,
    declarator (deepen g) ⟨name :: equals :: value :: stop :: rest, finish⟩ =
      .ok (n, ⟨stop :: rest, finish⟩) ∧
    n.kind = .variableDeclarator ∧ n.identifier? = some name.text := by
  have hbracket : sees "[" ⟨equals :: value :: stop :: rest, finish⟩ = false :=
    (is_of_word hequals _).trans (by decide)
  have hsees : sees "=" ⟨equals :: value :: stop :: rest, finish⟩ = true :=
    (is_of_word hequals _).trans (by decide)
  have hread := build_eq (k := .variableDeclarator) (append_eq
    (append_eq (p := given [.token name]) rfl
      (whenAt_eq_nil (p := one (bracketedArguments (deepen g))) hbracket))
    ((whenAt_eq hsees).trans (one_eq (equalsValue_null g rest finish hequals hvalue hstop))))
  refine ⟨_, Eq.trans ?_ hread, rfl, ?_⟩
  · simp only [declarator, bind, StateT.bind, Except.bind, name_eq hname]
    rfl
  · simp [Node.identifier?, Node.childTokens, Node.ofChildren, Element.token?, hname]

variable (m : Nat) (htype : type.bare = (.identifier, "Exception"))
  (hquestion : question.bare = (.punctuation, "?"))
  (hsane : ∀ t ∈ [type, question, name], t.Sane)

include htype hquestion hname hsane in
theorem exists_typeOf_nullable (others : List Token) : ∃ n : Node,
    typeOf (nesting (m + 1)) ⟨type :: question :: name :: others, finish⟩ =
      .ok (n, ⟨name :: others, finish⟩) ∧ n.TypeName := by
  have hspelled : Spelled .type ([type] ++ [[question]].flatten) :=
    .suffixed (.named (.plain (.name (congrArg Prod.fst htype))))
      (List.forall_mem_singleton.2 (.nullable ((is_of_word hquestion _).trans (by decide))))
  have hlike : Like ([type] ++ [[question]].flatten) [type, question] :=
    ⟨rfl, fun t ht => hsane t (List.mem_append_left [name] ht)⟩
  have hmarks : ∀ text ∈ ["?", "[", ".", "<", "::"], text ∈ typeMarks := by decide
  have hneutral : Neutral name := fun hmem =>
    (hsane name (by simp)).text_ne hname (hmarks _ hmem) rfl
  obtain ⟨n, hn⟩ := hspelled.readable (m + 2) (by simp) _ (name :: others) finish hlike hneutral
  exact ⟨n, hn, gives_typeOf (places_nesting _) _ _ _ hn⟩

include hname hequals hvalue hstop htype hquestion hsane

theorem exists_localDeclaration : ∃ n : Node,
    localDeclaration (nesting (m + 1)) 0
      ⟨type :: question :: name :: equals :: value :: stop :: rest, finish⟩ =
        .ok (n, ⟨rest, finish⟩) ∧
    n.kind = .localDeclarationStatement ∧ n.declared = [name.text] := by
  obtain ⟨typeNode, htypeOf, htypeName⟩ := exists_typeOf_nullable finish hname m htype hquestion
    hsane (equals :: value :: stop :: rest)
  obtain ⟨d, hd, hkind, hidentifier⟩ := exists_declarator (nesting m) rest finish hname hequals
    hvalue hstop
  have hcomma : sees "," ⟨stop :: rest, finish⟩ = false := (is_of_word hstop _).trans (by decide)
  have hvariables := build_eq (k := .variableDeclaration) (append_eq (one_eq htypeOf)
    (append_eq (q := repeatWhile (sees ",") (token ++ one (declarator (nesting (m + 1)))))
      (one_eq hd) (repeatWhile_eq_nil hcomma)))
  have hread := build_eq (k := .localDeclarationStatement) (append_eq
    (append_eq (p := take 0) rfl (one_eq hvariables))
    (mark_eq ((is_of_word hstop ";").trans (by decide))))
  refine ⟨_, hread, rfl, ?_⟩
  have hne : typeNode.kind ≠ .variableDeclarator := by
    intro heq
    have hkind := htypeName.2
    rw [heq] at hkind
    cases hkind
  simp [Node.declared, Node.variableNames, Node.childrenOf, Node.childNodes, Node.ofChildren,
    Element.node?, hkind, hidentifier, hne]

/-- The declaration that a capture starts with. -/
theorem exists_statementOf : ∃ n : Node,
    statementOf (nesting (m + 1))
      ⟨type :: question :: name :: equals :: value :: stop :: rest, finish⟩ =
        .ok (n, ⟨rest, finish⟩) ∧
    n.kind = .localDeclarationStatement ∧ n.declared = [name.text] := by
  obtain ⟨n, hn, hkind, hdeclared⟩ := exists_localDeclaration rest finish hname hequals hvalue hstop
    m htype hquestion hsane
  obtain ⟨typeNode, htypeOf, -⟩ := exists_typeOf_nullable finish hname m htype hquestion hsane
    (equals :: value :: stop :: rest)
  obtain ⟨htypeKind, htypeText⟩ := Prod.mk.inj htype
  obtain ⟨hequalsKind, hequalsText⟩ := Prod.mk.inj hequals
  -- A name follows the type and no bracket follows the name, so it is a declaration of a variable.
  have hfunction : atLocalFunction (nesting (m + 1))
      ⟨type :: question :: name :: equals :: value :: stop :: rest, finish⟩ = false := by
    simp [atLocalFunction, atAwait, dropLocalModifiers, leadsTo, htypeOf, atNameThen, atName,
      localModifiers, sees, seesAt, current, nth, Token.is, Token.isWord, isName, htypeKind,
      htypeText, hequalsText]
  have hlocal : atLocalDeclaration (nesting (m + 1))
      ⟨type :: question :: name :: equals :: value :: stop :: rest, finish⟩ = true := by
    simp [atLocalDeclaration, atAwait, leadsTo, htypeOf, atName, seesAt, current, nth, Token.is,
      isName, htypeText, hequalsText, hequalsKind, hname]
  have hplain : plainStatement (nesting (m + 1))
      ⟨type :: question :: name :: equals :: value :: stop :: rest, finish⟩ =
        .ok (n, ⟨rest, finish⟩) := by
    rw [plainStatement, hfunction, hlocal]
    exact hn
  have hknown : knownStatement (nesting (m + 1))
      ⟨type :: question :: name :: equals :: value :: stop :: rest, finish⟩ =
        .ok (n, ⟨rest, finish⟩) := by
    simp [knownStatement, seesAny, sees, current, nth, Token.is, Token.isWord, Token.openBrace,
      htypeKind, htypeText, hplain]
  refine ⟨n, ?_, hkind, hdeclared⟩
  rw [statementOf, recover, hknown]

end Declaration

end Grammar

/-- The first of some statements is what is read where the text starts. -/
theorem Fragment.head?_readStatements {source : String} {statements : List Node} {ts : List Token}
    {last : Token} (h : readStatements source = .ok statements)
    (hscan : Token.scan source = .ok (ts ++ [last])) (hne : ts ≠ []) {n : Node} {c : Cursor}
    (hn : Grammar.statementOf (Grammar.nesting (ts.length + 1)) ⟨ts, last⟩ = .ok (n, c)) :
    statements.head? = some n := by
  obtain ⟨parts, hread, hstatements⟩ := ok_of_bind h
  obtain ⟨ts', d, hscan', -, hparts⟩ := Grammar.readAll_eq_ok hread
  obtain rfl := Except.ok.inj (hscan.symm.trans hscan')
  have hstart : Cursor.ofTokens (ts ++ [last]) = ⟨ts, last⟩ := by simp [Cursor.ofTokens]
  have hmore : (!(Cursor.mk ts last).atEnd) = true := by simp [Cursor.atEnd, hne]
  rw [hstart] at hparts
  simp only [Parser.repeatWhile, Parser.rounds, if_pos hmore] at hparts
  obtain ⟨xs, e, ys, hxs, -, rfl⟩ := Parser.append_eq_ok hparts
  obtain ⟨m, e', hm, hxs⟩ := Parser.bind_eq_ok hxs
  obtain ⟨rfl, -⟩ := Prod.mk.inj (Except.ok.inj hxs)
  rw [List.length_append, List.length_singleton] at hm
  obtain ⟨rfl, -⟩ := Prod.mk.inj (Except.ok.inj (hm.symm.trans hn))
  rw [← Except.ok.inj hstatements]
  rfl

/-! ## The text of a capture -/

namespace Edit

open Token

/-- The words of the declaration. -/
def declarationWords (captured : String) : List (TokenKind × String) :=
  [(.identifier, "Exception"), (.punctuation, "?"), (.identifier, captured), (.punctuation, "="),
    (.keyword, "null"), (.punctuation, ";")]

/-- The words of the clause that assigns what it catches. -/
def catchWords (captured : String) : List (TokenKind × String) :=
  [(.keyword, "catch"), (.punctuation, "("), (.identifier, "Exception"), (.identifier, "e"),
    (.punctuation, ")"), (.punctuation, openBrace), (.identifier, captured), (.punctuation, "="),
    (.identifier, "e"), (.punctuation, ";"), (.punctuation, closeBrace)]

/-- The lines of the clause. -/
def catchLines (indent captured : List Char) : List Char :=
  indent ++ ("catch".toList ++ (' ' :: ("(".toList ++ ("Exception".toList ++ (' ' ::
    ("e".toList ++ (")".toList ++ ('\n' :: (indent ++ (openBrace.toList ++
      ('\n' :: ((indent ++ "    ".toList) ++ (captured ++ (' ' :: ("=".toList ++ (' ' ::
        ("e".toList ++ (";".toList ++ ('\n' :: (indent ++ (closeBrace.toList ++ [])))))))))))))))))))))

theorem toList_captureSource (indent captured body : String) :
    (captureSource {} indent captured body).toList =
      "Exception".toList ++ ("?".toList ++ (' ' :: (captured.toList ++ (' ' :: ("=".toList ++ (' ' ::
        ("null".toList ++ (";".toList ++ ('\n' :: (indent.toList ++ ("try".toList ++ ('\n' ::
          (indent.toList ++ (tryBlock indent (indent ++ "    ") (Text.trim body)).toList ++
            '\n' :: catchLines indent.toList captured.toList))))))))))))) := by
  simp [captureSource, catchLines, Text.joinWith, ToString.toString]

/-- Statements that capture an exception: the first one declares the variable and no other one, and
    their words end in a clause that assigns what it catches to the variable. -/
structure Captures (captured : String) (statements : List Node) : Prop where
  declares : ∃ first ∈ statements.head?, first.kind = .localDeclarationStatement ∧
    first.declared = [captured]
  words : ∃ middle, (statements.flatMap Node.tokens).map bare =
    declarationWords captured ++ (.keyword, "try") :: (middle ++ catchWords captured)

section Words

variable {indent captured body : String} (hindent : ∀ c ∈ indent.toList, Scan.isSpacing c = true)
  (hname : ({ kind := .identifier, text := captured } : Token).Lexes [])

include hindent hname

theorem opens_catchLines : Opens (catchLines indent.toList captured.toList) (catchWords captured)
    (· = [(.endOfFile, "")]) := by
  have hinner : ∀ c ∈ indent.toList ++ "    ".toList, Scan.isSpacing c = true :=
    List.forall_mem_append.2 ⟨hindent, List.all_eq_true.1 (by decide)⟩
  have hclose := begins_nil.leads.mark closeBrace rfl (by decide)
  have hsemicolon := (hclose.opens_indented hindent).leads_line.mark ";" rfl (by decide)
  have hcaught := hsemicolon.leads.word (t := { kind := .identifier, text := "e" }) rfl rfl rfl
  have hequals := hcaught.leads_space.mark "=" rfl (by decide)
  have hcaptured := hequals.leads_space.word hname rfl rfl
  have hopen := (hcaptured.opens_indented hinner).leads_line.mark openBrace rfl (by decide)
  have hparenthesis := (hopen.opens_indented hindent).leads_line.mark ")" rfl (by decide)
  have hvariable := hparenthesis.leads.word (t := { kind := .identifier, text := "e" }) rfl rfl rfl
  have htype := hvariable.leads_space.word (t := { kind := .identifier, text := "Exception" })
    rfl rfl rfl
  have hopening := htype.leads.mark "(" rfl (by decide)
  have hcatch := hopening.leads_space.word (t := { kind := .keyword, text := "catch" }) rfl rfl rfl
  exact hcatch.opens_indented hindent

/-- Nothing in the clause closes a literal or a comment. -/
theorem plain_catchLines : Text.Plain (catchLines indent.toList captured.toList) := by
  have hclosers : ∀ c ∈ Text.closers, Scan.isSpacing c = false ∧ c ≠ '@' ∧
      (Text.isLetter c || c == '_') = false ∧ (Text.isLetterOrDigit c || c == '_') = false := by
    simp only [Text.closers, List.forall_mem_cons, List.not_mem_nil, false_implies, implies_true]
    decide
  -- What the clause is given is spacing and a name, of which no character closes anything.
  have hspaces : ∀ c ∈ indent.toList, c ∉ Text.closers := by
    intro c hc hmem
    have hspacing := hindent c hc
    rw [(hclosers c hmem).1] at hspacing
    cases hspacing
  have hletters : ∀ c ∈ captured.toList, c ∉ Text.closers := by
    obtain ⟨first, c, more, hfirst, hc, hmore, -, htext, -⟩ := hname.exists_name rfl
    intro d hd hmem
    obtain ⟨-, hat, hstart, hpart⟩ := hclosers d hmem
    rw [show captured.toList = first ++ c :: more from htext, List.mem_append, List.mem_cons] at hd
    rcases hd with hd | rfl | hd
    · rcases hfirst with rfl | rfl
      · cases hd
      · exact hat (List.mem_singleton.1 hd)
    · exact Bool.false_ne_true (hstart.symm.trans hc)
    · exact Bool.false_ne_true (hpart.symm.trans (hmore d hd))
  have hwords : ∀ text : String, (text.toList.all fun c => !Text.closers.contains c) = true →
      ∀ c ∈ text.toList, c ∉ Text.closers := by
    intro text htext
    simpa using htext
  simp only [Text.Plain, catchLines, List.forall_mem_append, List.forall_mem_cons]
  simp only [and_iff_right hspaces, and_iff_right hletters, List.not_mem_nil, false_implies,
    implies_true, and_true]
  and_intros <;> first | exact hwords _ (by decide) | decide

/-- The words of a capture: first the declaration, last the clause, whatever the body is. -/
theorem scan_captureSource {us : List Token}
    (h : scan (captureSource {} indent captured body) = .ok us) :
    ∃ middle, us.map bare = declarationWords captured ++ (.keyword, "try") :: (middle ++
      (catchWords captured ++ [(.endOfFile, "")])) := by
  let block := indent.toList ++ (tryBlock indent (indent ++ "    ") (Text.trim body)).toList
  let clause := catchLines indent.toList captured.toList
  have hsuffix : '\n' :: clause <:+ '\n' :: (block ++ '\n' :: clause) := ⟨'\n' :: block, rfl⟩
  have hclause := (opens_catchLines hindent hname).leads_behind (plain_catchLines hindent hname)
    hsuffix
  have htry := hclause.word (t := { kind := .keyword, text := "try" }) rfl rfl rfl
  have hstop := (htry.opens_indented hindent).leads_line.mark ";" rfl (by decide)
  have hnull := hstop.leads.word (t := { kind := .keyword, text := "null" }) rfl rfl rfl
  have hequals := hnull.leads_space.mark "=" rfl (by decide)
  have hcaptured := hequals.leads_space.word hname rfl rfl
  have hquestion := hcaptured.leads_space.mark "?" rfl (by decide)
  have htype := hquestion.leads.word (t := { kind := .identifier, text := "Exception" }) rfl rfl rfl
  have hopens := htype.opens
  obtain ⟨later, hwords, middle, last, rfl, rfl⟩ :=
    Opens.scan (by rw [toList_captureSource]; exact hopens) h
  exact ⟨middle, hwords⟩

/-- What the text of a capture is read as. -/
theorem captures_of_read {statements : List Node}
    (h : Fragment.readStatements (captureSource {} indent captured body) = .ok statements) :
    Captures captured statements := by
  obtain ⟨last, hscan, -, -⟩ := (Fragment.readFrom_statements h).holdsText
  obtain ⟨middle, hwords⟩ := scan_captureSource hindent hname hscan
  have hinside : (statements.flatMap Node.tokens).map bare =
      declarationWords captured ++ (.keyword, "try") :: (middle ++ catchWords captured) := by
    rw [List.map_append, ← List.append_assoc middle, ← List.cons_append, ← List.append_assoc] at hwords
    exact (List.append_inj' hwords rfl).1
  refine ⟨?_, middle, hinside⟩
  have hsane := Grammar.sane_of_scan hscan
  have hfirst := Fragment.head?_readStatements h hscan
  generalize statements.flatMap Node.tokens = ts at hinside hsane hfirst
  obtain ⟨type, ts, rfl, htype, hinside⟩ := List.map_eq_cons_iff.1 hinside
  obtain ⟨question, ts, rfl, hquestion, hinside⟩ := List.map_eq_cons_iff.1 hinside
  obtain ⟨name, ts, rfl, hidentifier, hinside⟩ := List.map_eq_cons_iff.1 hinside
  obtain ⟨equals, ts, rfl, hequals, hinside⟩ := List.map_eq_cons_iff.1 hinside
  obtain ⟨value, ts, rfl, hvalue, hinside⟩ := List.map_eq_cons_iff.1 hinside
  obtain ⟨stop, rest, rfl, hstop, -⟩ := List.map_eq_cons_iff.1 hinside
  obtain ⟨hkind, rfl⟩ := Prod.mk.inj hidentifier
  obtain ⟨n, hn, hdeclaration⟩ := Grammar.exists_statementOf rest last hkind hequals hvalue hstop
    (rest.length + 6) htype hquestion fun t ht =>
      hsane t (List.mem_append_left (equals :: value :: stop :: rest ++ [last]) ht)
  exact ⟨n, hfirst (by simp) hn, hdeclaration⟩

end Words

end Edit

end Recast
