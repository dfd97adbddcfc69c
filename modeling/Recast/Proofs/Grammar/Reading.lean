-- SUMMARY: What parsers take from the cursor and what they make of it: the token calculus of the grammar's combinators, and the shape of the nodes that they build.
import Recast.Grammar.Expression

/-! # Reading loses nothing

A piece is judged by three numbers: how many tokens it needs ahead, how heavy the parts are that
it returns, and which kinds of nodes are among them. `Takes` says that the parts hold exactly the
tokens between the cursor before and the cursor after, in order. The empty token that ends a text
is returned by `bump` again and again, so a piece may take a token blindly only where one is
needed ahead; tests of the cursor supply that.

The weight of parts tells a node that stands for more than one of its children from one that only
wraps a child: an own token weighs two, a child with tokens weighs one. -/

namespace Recast

theorem Token.text_of_is {t : Token} {text : String} (h : t.is text = true) : t.text = text :=
  eq_of_beq (Bool.and_eq_true_iff.1 h).1

/-! ## The shape of nodes -/

namespace Kind

/-- How far a kind stands above the constructs that it may merely wrap: a file above everything
    else, and an argument, base type or the like above the expression or type in it. -/
def level : Kind → Nat
  | .compilationUnit => 2
  | .argument | .attribute | .attributeArgument | .baseType | .tupleElement | .switchSection => 1
  | _ => 0

/-- A construct that is an expression followed by a suffix. -/
def isSuffixed : Kind → Bool
  | .memberAccessExpression | .invocationExpression | .elementAccessExpression
  | .postfixUnaryExpression | .switchExpression => true
  | _ => false

/-- A construct that goes on from a first part in a way that depends on the part. -/
def isGrown : Kind → Bool
  | .binaryExpression => true
  | kind => kind.isSuffixed

/-- An expression that a suffix may follow. The binary ones among them are those that end in an
    initializer after `with`. -/
def isPrimary : Kind → Bool
  | .literalExpression | .identifierName | .genericName | .defaultExpression | .typeOfExpression
  | .checkedExpression | .thisExpression | .baseExpression | .parenthesizedExpression
  | .tupleExpression | .collectionExpression | .initializerExpression | .objectCreationExpression
  | .implicitObjectCreationExpression | .arrayCreationExpression
  | .implicitArrayCreationExpression | .anonymousObjectCreationExpression
  | .anonymousMethodExpression | .predefinedType | .binaryExpression => true
  | kind => kind.isSuffixed

end Kind

namespace Element

/-- Two for a token, one for a node with tokens. -/
def weight : Element → Nat
  | .token _ => 2
  | .node n => if n.tokens = [] then 0 else 1

/-- The weight of a list of parts. -/
def weightIn : List Element → Nat
  | [] => 0
  | e :: parts => e.weight + weightIn parts

@[simp] theorem weight_token (t : Token) : (Element.token t).weight = 2 := rfl

@[simp] theorem weightIn_nil : weightIn [] = 0 := rfl

@[simp] theorem weightIn_cons (e : Element) (parts : List Element) :
    weightIn (e :: parts) = e.weight + weightIn parts := rfl

@[simp] theorem weightIn_append (xs ys : List Element) :
    weightIn (xs ++ ys) = weightIn xs + weightIn ys := by
  induction xs with
  | nil => simp
  | cons e xs ih => simp [ih, Nat.add_assoc]

theorem weight_node_le (n : Node) : (Element.node n).weight ≤ 1 := by
  simp only [weight]
  split <;> omega

theorem tokens_ne_nil_of_weight {e : Element} (h : 1 ≤ e.weight) : e.tokens ≠ [] := by
  cases e with
  | token t => simp
  | node n =>
    intro hnil
    simp only [tokens_node] at hnil
    simp [weight, hnil] at h

theorem tokensIn_ne_nil_of_weight {parts : List Element} (h : 1 ≤ weightIn parts) :
    tokensIn parts ≠ [] := by
  induction parts with
  | nil => simp at h
  | cons e parts ih =>
    rw [weightIn_cons] at h
    rw [tokensIn_cons]
    intro hnil
    obtain ⟨he, hparts⟩ := List.append_eq_nil_iff.1 hnil
    rcases Nat.eq_zero_or_pos e.weight with hzero | hpos
    · exact ih (by omega) hparts
    · exact tokens_ne_nil_of_weight hpos he

end Element

/-! ### Operators -/

/-- The tokens that some parts start with. -/
def Element.leadingTokens : List Element → List Token
  | .token t :: parts => t :: leadingTokens parts
  | _ => []

/-- The precedence of the operator behind the first part of a binary expression, and how many
    tokens it takes. Nothing for other constructs, and for words that are no operators. -/
def Kind.operator? (kind : Kind) (parts : List Element) : Option (Nat × Nat) :=
  if kind = .binaryExpression then
    Grammar.binaryOperator? ⟨Element.leadingTokens parts.tail, .endOfText [] 0⟩
  else none

/-- The operator behind the first part takes a pattern or a type. -/
def Element.testsType (parts : List Element) : Bool :=
  (leadingTokens parts.tail).head?.any fun t => t.is "is" || t.is "as"

/-- The precedence of the operator of a binary expression, and how many tokens it takes. -/
def Node.operator? (n : Node) : Option (Nat × Nat) :=
  n.kind.operator? n.children

/-- The operator of the node is `is` or `as`. -/
def Node.testsType (n : Node) : Bool :=
  Element.testsType n.children

/-- A left operand of an operator: chains group to the left but for the coalescing ones, and what
    binds tighter is not split. Patterns end where they like. -/
def Node.BindsLeft (precedence : Nat) (n : Node) : Prop :=
  ∀ inner width, n.operator? = some (inner, width) → n.testsType = false →
    precedence ≤ inner ∧ (precedence = Grammar.coalescing → precedence < inner)

/-- A right operand of an operator. -/
def Node.BindsRight (precedence : Nat) (n : Node) : Prop :=
  ∀ inner width, n.operator? = some (inner, width) →
    if precedence = Grammar.coalescing then precedence ≤ inner else precedence < inner

/-- The parts of a binary expression with an operator of the table: two operands that bind as
    tight as they must. -/
def Element.Ranked (precedence width : Nat) (parts : List Element) : Prop :=
  ∃ left, ∃ operator : List Token, ∃ right,
    parts = .node left :: (operator.map .token ++ [.node right]) ∧ operator.length = width ∧
      left.BindsLeft precedence ∧ right.BindsRight precedence

theorem Kind.isSuffixed_of_isGrown {kind : Kind} (h : kind.isGrown = false) :
    kind.isSuffixed = false := by
  cases kind <;> first | rfl | cases h

theorem Kind.operator?_of_ne {kind : Kind} (h : kind ≠ .binaryExpression) (parts : List Element) :
    kind.operator? parts = none :=
  if_neg h

theorem Kind.operator?_of_isGrown {kind : Kind} (h : kind.isGrown = false) (parts : List Element) :
    kind.operator? parts = none := by
  refine operator?_of_ne ?_ parts
  rintro rfl
  cases h

/-! ### Parts -/

/-- The parts that a node of a kind may have. A node that wraps a single part with tokens stands
    above it, what a suffix follows is a primary expression, and operators bind by precedence. -/
structure Kind.Fits (kind : Kind) (parts : List Element) : Prop where
  below : (∀ n, .node n ∈ parts → n.kind.level < kind.level) ∨ 2 ≤ Element.weightIn parts
  noFile : ∀ n, .node n ∈ parts → n.kind.level < 2
  operand : kind.isSuffixed = true → ∀ n, parts.head? = some (.node n) → n.kind.isPrimary = true
  ranked : ∀ precedence width, kind.operator? parts = some (precedence, width) →
    Element.testsType parts = false → Element.Ranked precedence width parts

/-- A node as the grammar builds it: the span is that of its tokens, there are no tags, and its
    parts fit. -/
inductive Node.Built : Node → Prop where
  | ofChildren {kind : Kind} {parts : List Element} (fits : kind.Fits parts)
      (built : ∀ n, .node n ∈ parts → n.Built) : (Node.ofChildren kind parts).Built

namespace Node

theorem tokens_eq (n : Node) : n.tokens = Element.tokensIn n.children := by
  obtain ⟨kind, children, span, tags⟩ := n
  rfl

theorem Built.fits {n : Node} (h : n.Built) : n.kind.Fits n.children := by
  cases h with
  | ofChildren fits built => exact fits

theorem Built.child {n m : Node} (h : n.Built) (hm : .node m ∈ n.children) : m.Built := by
  cases h with
  | ofChildren fits built => exact built m hm

theorem Built.span_eq {n : Node} (h : n.Built) : n.span = spanOf n.tokens := by
  cases h with
  | ofChildren fits built => rfl

theorem Built.tags_eq {n : Node} (h : n.Built) : n.tags = [] := by
  cases h with
  | ofChildren fits built => rfl

end Node

/-! ## Cursors -/

namespace Cursor

/-- The cursor ends in the token that ends a text. -/
def Closed (c : Cursor) : Prop :=
  c.finish.kind = .endOfFile

/-- The parts are what stands between one cursor and another. -/
structure Reads (c : Cursor) (parts : List Element) (d : Cursor) : Prop where
  ahead : c.ahead = Element.tokensIn parts ++ d.ahead
  finish : d.finish = c.finish
  built : ∀ n, .node n ∈ parts → n.Built

theorem Reads.refl (c : Cursor) : c.Reads [] c :=
  ⟨rfl, rfl, by simp⟩

theorem Reads.append {c d e : Cursor} {xs ys : List Element} (hxs : c.Reads xs d)
    (hys : d.Reads ys e) : c.Reads (xs ++ ys) e := by
  refine ⟨?_, hys.finish.trans hxs.finish, ?_⟩
  · rw [hxs.ahead, hys.ahead, Element.tokensIn_append, List.append_assoc]
  · intro n hn
    rcases List.mem_append.1 hn with hn | hn
    · exact hxs.built n hn
    · exact hys.built n hn

theorem Reads.closed {c d : Cursor} {parts : List Element} (h : c.Reads parts d)
    (hc : c.Closed) : d.Closed := by
  rw [Closed, h.finish]
  exact hc

/-- Where parts with weight were read, the cursor has moved. -/
theorem Reads.shorter {c d : Cursor} {parts : List Element} (h : c.Reads parts d)
    (hweight : 1 ≤ Element.weightIn parts) : d.ahead.length < c.ahead.length := by
  have hpos := List.length_pos_iff.2 (Element.tokensIn_ne_nil_of_weight hweight)
  rw [h.ahead, List.length_append]
  omega

/-- A test that can only hold with so many tokens ahead. -/
def Needs (test : Cursor → Bool) (need : Nat) : Prop :=
  ∀ ⦃c⦄, c.Closed → test c = true → need ≤ c.ahead.length

theorem Needs.mono {test : Cursor → Bool} {m n : Nat} (h : Needs test n) (hle : m ≤ n) :
    Needs test m :=
  fun _ hc ht => Nat.le_trans hle (h hc ht)

theorem needs_zero (test : Cursor → Bool) : Needs test 0 :=
  fun _ _ _ => Nat.zero_le _

/-- A token past the end is no word and no mark. -/
theorem lt_length_of_nth {c : Cursor} (hc : c.Closed) {n : Nat}
    (h : (c.nth n).kind ≠ .endOfFile) : n < c.ahead.length := by
  rcases Nat.lt_or_ge n c.ahead.length with hlt | hge
  · exact hlt
  · refine absurd ?_ h
    rw [nth, List.getD_eq_getElem?_getD, List.getElem?_eq_none hge]
    exact hc

theorem pos_of_current {c : Cursor} (hc : c.Closed) (h : c.current.kind ≠ .endOfFile) :
    1 ≤ c.ahead.length :=
  lt_length_of_nth hc h

theorem notEnd_of_is {t : Token} {text : String} (h : t.is text = true) : t.kind ≠ .endOfFile := by
  intro hkind
  simp [Token.is, Token.isWord, hkind] at h

theorem needs_seesAt (n : Nat) (text : String) : Needs (seesAt n text) (n + 1) :=
  fun _ hc h => lt_length_of_nth hc (notEnd_of_is h)

theorem needs_sees (text : String) : Needs (sees text) 1 :=
  needs_seesAt 0 text

theorem needs_seesAny (texts : List String) : Needs (seesAny texts) 1 := by
  intro c hc h
  obtain ⟨text, -, htext⟩ := List.any_eq_true.1 h
  exact lt_length_of_nth hc (notEnd_of_is htext)

theorem needs_atName : Needs atName 1 := by
  intro c hc h
  refine pos_of_current hc fun hend => ?_
  simp [atName, hend] at h

theorem needs_atNameThen (text : String) : Needs (atNameThen text) 2 := by
  intro c hc h
  simp only [atNameThen, Bool.and_eq_true] at h
  exact needs_seesAt 1 text hc h.2

theorem needs_isName (text : String) : Needs (fun c => c.current.isName text) 1 := by
  intro c hc h
  refine pos_of_current hc fun hend => ?_
  simp [Token.isName, hend] at h

theorem Needs.or {test test' : Cursor → Bool} {n : Nat} (h : Needs test n) (h' : Needs test' n) :
    Needs (fun c => test c || test' c) n := by
  intro c hc ht
  rcases Bool.or_eq_true_iff.1 ht with ht | ht
  · exact h hc ht
  · exact h' hc ht

theorem Needs.and_left {test test' : Cursor → Bool} {n : Nat} (h : Needs test n) :
    Needs (fun c => test c && test' c) n :=
  fun _ hc ht => h hc (Bool.and_eq_true_iff.1 ht).1

theorem Needs.and_right {test test' : Cursor → Bool} {n : Nat} (h : Needs test' n) :
    Needs (fun c => test c && test' c) n :=
  fun _ hc ht => h hc (Bool.and_eq_true_iff.1 ht).2

theorem pos_of_notAtEnd {c : Cursor} (h : c.atEnd = false) : 1 ≤ c.ahead.length := by
  simp only [atEnd, List.isEmpty_eq_false_iff] at h
  exact List.length_pos_iff.2 h

theorem pos_of_notAtBodyEnd {c : Cursor} (h : c.atBodyEnd = false) : 1 ≤ c.ahead.length := by
  simp only [atBodyEnd, Bool.or_eq_false_iff] at h
  exact pos_of_notAtEnd h.2

end Cursor

/-! ## What a parser takes -/

namespace Parser

variable {α β : Type}

theorem bind_eq_ok {p : Parser α} {f : α → Parser β} {c e : Cursor} {b : β}
    (h : (p >>= f) c = .ok (b, e)) : ∃ a d, p c = .ok (a, d) ∧ f a d = .ok (b, e) := by
  simp only [bind, StateT.bind, Except.bind] at h
  split at h
  · cases h
  · rename_i pair hpair
    exact ⟨pair.1, pair.2, hpair, h⟩

theorem append_eq_ok {p q : Piece} {c e : Cursor} {parts : List Element}
    (h : (p ++ q) c = .ok (parts, e)) :
    ∃ xs d ys, p c = .ok (xs, d) ∧ q d = .ok (ys, e) ∧ parts = xs ++ ys := by
  obtain ⟨xs, d, hxs, h⟩ := bind_eq_ok h
  obtain ⟨ys, e, hys, h⟩ := bind_eq_ok h
  obtain ⟨rfl, rfl⟩ := Prod.mk.inj (Except.ok.inj h)
  exact ⟨xs, d, ys, hxs, hys, rfl⟩

section Equations

variable {c d e : Cursor}

theorem bind_eq {p : Parser α} {f : α → Parser β} {a : α} {x : Except ParseError (β × Cursor)}
    (hp : p c = .ok (a, d)) (hf : f a d = x) : (p >>= f) c = x := by
  simp only [bind, StateT.bind, Except.bind, hp, hf]

theorem bind_error {p : Parser α} {f : α → Parser β} {e : ParseError} (h : p c = .error e) :
    (p >>= f) c = .error e := by
  simp only [bind, StateT.bind, Except.bind, h]

theorem bind_congr {p q : Parser α} {f : α → Parser β} (h : p c = q c) :
    (p >>= f) c = (q >>= f) c := by
  simp only [bind, StateT.bind, Except.bind, h]

theorem append_eq {p q : Piece} {xs ys : List Element} (hp : p c = .ok (xs, d))
    (hq : q d = .ok (ys, e)) : (p ++ q) c = .ok (xs ++ ys, e) :=
  bind_eq hp (bind_eq hq rfl)

theorem build_eq {k : Kind} {p : Piece} {parts : List Element} (h : p c = .ok (parts, d)) :
    build k p c = .ok (.ofChildren k parts, d) :=
  bind_eq h rfl

theorem one_eq {p : Parser Node} {n : Node} (h : p c = .ok (n, d)) :
    one p c = .ok ([.node n], d) :=
  bind_eq h rfl

theorem mark_eq {t : Token} {ts : List Token} {finish : Token} {text : String}
    (h : t.is text = true) : mark text ⟨t :: ts, finish⟩ = .ok ([.token t], ⟨ts, finish⟩) :=
  if_pos h

variable {test : Cursor → Bool} {p : Piece}

theorem whenAt_eq (h : test c = true) : whenAt test p c = p c := by
  rw [whenAt, ifAt, h]
  rfl

theorem whenAt_eq_nil (h : test c = false) : whenAt test p c = .ok ([], c) := by
  rw [whenAt, ifAt, h]
  rfl

theorem repeatWhile_eq_nil (h : test c = false) : repeatWhile test p c = .ok ([], c) := by
  simp only [repeatWhile, rounds, h]
  rfl

end Equations

/-- The piece, run at `c`, returns the parts from an earlier cursor `start` on. They weigh at least
    `weight`, and the nodes among them stand below `level`. -/
def TakesFrom (start c : Cursor) (weight level : Nat) (p : Piece) : Prop :=
  ∀ ⦃parts d⦄, p c = .ok (parts, d) → start.Reads parts d ∧ weight ≤ Element.weightIn parts ∧
    ∀ n, .node n ∈ parts → n.kind.level < level

/-- The piece returns what it takes from a cursor that has `need` tokens ahead. -/
def Takes (need weight level : Nat) (p : Piece) : Prop :=
  ∀ ⦃c⦄, c.Closed → need ≤ c.ahead.length → TakesFrom c c weight level p

/-- As `TakesFrom`, for a parser of one node. -/
def MakesFrom (start c : Cursor) (weight level : Nat) (p : Parser Node) : Prop :=
  ∀ ⦃n d⦄, p c = .ok (n, d) → start.Reads [.node n] d ∧ weight ≤ (Element.node n).weight ∧
    n.kind.level < level

/-- As `Takes`, for a parser of one node. -/
def Makes (need weight level : Nat) (p : Parser Node) : Prop :=
  ∀ ⦃c⦄, c.Closed → need ≤ c.ahead.length → MakesFrom c c weight level p

theorem TakesFrom.mono {start c : Cursor} {v w k l : Nat} {p : Piece} (h : TakesFrom start c w k p)
    (hweight : v ≤ w) (hlevel : k ≤ l) : TakesFrom start c v l p := by
  intro parts d hp
  obtain ⟨hreads, hw, hk⟩ := h hp
  exact ⟨hreads, Nat.le_trans hweight hw, fun n hn => Nat.lt_of_lt_of_le (hk n hn) hlevel⟩

theorem Takes.mono {m n v w k l : Nat} {p : Piece} (h : Takes m w k p) (hneed : m ≤ n)
    (hweight : v ≤ w) (hlevel : k ≤ l) : Takes n v l p :=
  fun _ hc hn => (h hc (Nat.le_trans hneed hn)).mono hweight hlevel

theorem MakesFrom.mono {start c : Cursor} {v w k l : Nat} {p : Parser Node}
    (h : MakesFrom start c w k p) (hweight : v ≤ w) (hlevel : k ≤ l) :
    MakesFrom start c v l p := by
  intro n d hp
  obtain ⟨hreads, hw, hk⟩ := h hp
  exact ⟨hreads, Nat.le_trans hweight hw, Nat.lt_of_lt_of_le hk hlevel⟩

theorem Makes.mono {m n v w k l : Nat} {p : Parser Node} (h : Makes m w k p) (hneed : m ≤ n)
    (hweight : v ≤ w) (hlevel : k ≤ l) : Makes n v l p :=
  fun _ hc hn => (h hc (Nat.le_trans hneed hn)).mono hweight hlevel

/-! ## Sequence -/

/-- The second piece runs where the first one stopped, so what it needs has to be known there. -/
theorem TakesFrom.append_of {start c : Cursor} {w w' k l need : Nat} {p q : Piece}
    (hc : start.Closed) (hp : TakesFrom start c w k p)
    (hready : ∀ ⦃parts d⦄, p c = .ok (parts, d) → need ≤ d.ahead.length)
    (hq : Takes need w' l q) : TakesFrom start c (w + w') (max k l) (p ++ q) := by
  intro parts e h
  obtain ⟨xs, d, ys, hxs, hys, rfl⟩ := append_eq_ok h
  obtain ⟨hreads, hw, hk⟩ := hp hxs
  obtain ⟨hreads', hw', hl⟩ := hq (hreads.closed hc) (hready hxs) hys
  refine ⟨hreads.append hreads', by rw [Element.weightIn_append]; omega, ?_⟩
  intro n hn
  rcases List.mem_append.1 hn with hn | hn
  · have := hk n hn
    omega
  · have := hl n hn
    omega

theorem TakesFrom.append {start c : Cursor} {w w' k l : Nat} {p q : Piece}
    (hc : start.Closed) (hp : TakesFrom start c w k p) (hq : Takes 0 w' l q) :
    TakesFrom start c (w + w') (max k l) (p ++ q) :=
  hp.append_of hc (fun _ _ _ => Nat.zero_le _) hq

theorem Takes.append {need w w' k l : Nat} {p q : Piece} (hp : Takes need w k p)
    (hq : Takes 0 w' l q) : Takes need (w + w') (max k l) (p ++ q) :=
  fun _ hc hn => (hp hc hn).append hc hq

theorem nil_append (p : Piece) : given [] ++ p = p := by
  show (pure [] >>= fun first => p >>= fun second => pure (first ++ second) : Piece) = p
  simp

theorem append_assoc (p q r : Piece) : p ++ q ++ r = p ++ (q ++ r) := by
  show (do let first ← (do let first ← p; let second ← q; return first ++ second)
           let second ← r
           return first ++ second : Piece)
    = (do let first ← p
          let second ← (do let first ← q; let second ← r; return first ++ second)
          return first ++ second : Piece)
  simp only [bind_assoc, pure_bind, List.append_assoc]

theorem takes_nil : Takes 0 0 0 (given []) := by
  intro c _ _ parts d h
  obtain ⟨rfl, rfl⟩ := Prod.mk.inj (Except.ok.inj h)
  exact ⟨.refl c, Nat.le_refl _, by simp⟩

/-- The first parts of a node, read from `start` on, before it is known which node it is. -/
structure Headed (start c : Cursor) (head : List Element) : Prop where
  reads : start.Reads head c
  level : ∀ n, .node n ∈ head → n.kind.level < 2

theorem Headed.append {start c d : Cursor} {head parts : List Element} {w l : Nat} {p : Piece}
    (hhead : Headed start c head) (hp : TakesFrom c c w l p) (hl : l ≤ 2)
    (h : p c = .ok (parts, d)) : Headed start d (head ++ parts) := by
  obtain ⟨hreads, -, hlevel⟩ := hp h
  refine ⟨hhead.reads.append hreads, fun n hn => ?_⟩
  rcases List.mem_append.1 hn with hn | hn
  · exact hhead.level n hn
  · exact Nat.lt_of_lt_of_le (hlevel n hn) hl

theorem TakesFrom.headed {c d : Cursor} {parts : List Element} {w l : Nat} {p : Piece}
    (hp : TakesFrom c c w l p) (hl : l ≤ 2) (h : p c = .ok (parts, d)) : Headed c d parts := by
  obtain ⟨hreads, -, hlevel⟩ := hp h
  exact ⟨hreads, fun n hn => Nat.lt_of_lt_of_le (hlevel n hn) hl⟩

theorem Headed.append_node {start c d : Cursor} {head : List Element} {n : Node} {w l : Nat}
    {p : Parser Node} (hhead : Headed start c head) (hp : MakesFrom c c w l p) (hl : l ≤ 2)
    (h : p c = .ok (n, d)) : Headed start d (head ++ [.node n]) := by
  obtain ⟨hreads, -, hlevel⟩ := hp h
  refine ⟨hhead.reads.append hreads, fun m hm => ?_⟩
  rcases List.mem_append.1 hm with hm | hm
  · exact hhead.level m hm
  · obtain rfl : m = n := by simpa using hm
    exact Nat.lt_of_lt_of_le hlevel hl

/-- Parts that were read from `start` on, in front of what is taken now. -/
theorem Headed.given {start c : Cursor} {head : List Element} (hhead : Headed start c head) :
    TakesFrom start c (Element.weightIn head) 2 (given head) := by
  intro parts d h
  obtain ⟨rfl, rfl⟩ := Prod.mk.inj (Except.ok.inj h)
  exact ⟨hhead.reads, Nat.le_refl _, hhead.level⟩

/-- Parts that were read from `start` to `mid`, in front of a piece that returns what was read
    from there on. -/
theorem Headed.given_append {start mid c : Cursor} {head : List Element} {w l : Nat} {q : Piece}
    (hhead : Headed start mid head) (hq : TakesFrom mid c w l q) :
    TakesFrom start c (Element.weightIn head + w) (max 2 l) (Parser.given head ++ q) := by
  intro parts e h
  obtain ⟨xs, d, ys, hxs, hys, rfl⟩ := append_eq_ok h
  obtain ⟨rfl, rfl⟩ := Prod.mk.inj (Except.ok.inj hxs)
  obtain ⟨hreads, hweight, hlevel⟩ := hq hys
  refine ⟨hhead.reads.append hreads, by rw [Element.weightIn_append]; omega, ?_⟩
  intro n hn
  rcases List.mem_append.1 hn with hn | hn
  · have := hhead.level n hn
    omega
  · have := hlevel n hn
    omega

theorem bump_eq_ok {c d : Cursor} {t : Token} (hready : 1 ≤ c.ahead.length)
    (h : bump c = .ok (t, d)) : c.ahead = t :: d.ahead ∧ d.finish = c.finish := by
  obtain ⟨ahead, finish⟩ := c
  cases ahead with
  | nil => simp at hready
  | cons u us =>
    obtain ⟨rfl, rfl⟩ := Prod.mk.inj (Except.ok.inj h)
    exact ⟨rfl, rfl⟩

theorem token_eq_ok {c d : Cursor} {parts : List Element} (hready : 1 ≤ c.ahead.length)
    (h : token c = .ok (parts, d)) :
    ∃ t, parts = [.token t] ∧ c.ahead = t :: d.ahead ∧ d.finish = c.finish := by
  obtain ⟨t, e, hbump, h⟩ := bind_eq_ok h
  obtain ⟨rfl, rfl⟩ := Prod.mk.inj (Except.ok.inj h)
  exact ⟨t, rfl, bump_eq_ok hready hbump⟩

theorem takes_token : Takes 1 2 0 token := by
  intro c _ hready parts d h
  obtain ⟨t, rfl, hahead, hfinish⟩ := token_eq_ok hready h
  exact ⟨⟨hahead, hfinish, by simp⟩, Nat.le_refl _, by simp⟩

/-- A token taken blindly leaves one token less for what follows. -/
theorem Takes.token_append {need w l : Nat} {q : Piece} (hq : Takes need w l q) :
    Takes (need + 1) (2 + w) l (token ++ q) := by
  intro c hc hready
  have hfirst := takes_token hc (Nat.le_trans (Nat.le_add_left 1 need) hready)
  refine (hfirst.append_of hc ?_ hq).mono (Nat.le_refl _) (by omega)
  intro parts d h
  obtain ⟨t, -, hahead, -⟩ := token_eq_ok (Nat.le_trans (Nat.le_add_left 1 need) hready) h
  rw [hahead, List.length_cons] at hready
  omega

theorem takes_take (n : Nat) : Takes n (2 * n) 0 (take n) := by
  induction n with
  | zero => exact takes_nil
  | succ n ih => exact ih.token_append.mono (Nat.le_refl _) (by omega) (Nat.le_refl _)

/-- Tokens taken blindly leave so many tokens less for what follows. -/
theorem Takes.take_append {need w l : Nat} {q : Piece} (hq : Takes need w l q) (n : Nat) :
    Takes (need + n) (2 * n + w) l (take n ++ q) := by
  induction n with
  | zero =>
    rw [take, nil_append]
    exact hq.mono (Nat.le_refl _) (by omega) (Nat.le_refl _)
  | succ n ih =>
    rw [take, append_assoc]
    exact ih.token_append.mono (Nat.le_refl _) (by omega) (Nat.le_refl _)

theorem takes_mark (text : String) : Takes 0 2 0 (mark text) := by
  intro c hc _ parts d h
  simp only [mark] at h
  split at h
  · rename_i hsees
    exact takes_token hc (Cursor.needs_sees text hc hsees) h
  · cases h

theorem takes_name : Takes 0 2 0 name := by
  intro c hc _ parts d h
  simp only [name] at h
  split at h
  · rename_i hname
    exact takes_token hc (Cursor.needs_atName hc hname) h
  · cases h

theorem check_eq_ok {test : Cursor → Bool} {what : String} {c d : Cursor} {parts : List Element}
    (h : check test what c = .ok (parts, d)) : test c = true ∧ parts = [] ∧ d = c := by
  simp only [check] at h
  split at h
  · rename_i htest
    obtain ⟨rfl, rfl⟩ := Prod.mk.inj (Except.ok.inj h)
    exact ⟨htest, rfl, rfl⟩
  · cases h

theorem takes_check (test : Cursor → Bool) (what : String) : Takes 0 0 0 (check test what) := by
  intro c _ _ parts d h
  obtain ⟨-, rfl, rfl⟩ := check_eq_ok h
  exact ⟨.refl _, Nat.le_refl _, by simp⟩

/-- What follows a check finds the tokens that the check needs. -/
theorem Takes.check_append {need w l : Nat} {q : Piece} {test : Cursor → Bool} {what : String}
    (hq : Takes need w l q) (htest : Cursor.Needs test need) :
    Takes 0 w l (check test what ++ q) := by
  intro c hc hready
  refine ((takes_check test what hc hready).append_of hc ?_ hq).mono (by omega) (by omega)
  intro parts d h
  obtain ⟨hpass, -, rfl⟩ := check_eq_ok h
  exact htest hc hpass

/-! ## Nodes -/

theorem MakesFrom.one {start c : Cursor} {w l : Nat} {p : Parser Node}
    (h : MakesFrom start c w l p) : TakesFrom start c w l (one p) := by
  intro parts d hone
  obtain ⟨n, e, hp, hone⟩ := bind_eq_ok hone
  obtain ⟨rfl, rfl⟩ := Prod.mk.inj (Except.ok.inj hone)
  obtain ⟨hreads, hw, hl⟩ := h hp
  exact ⟨hreads, by simpa using hw, by simpa using hl⟩

theorem Makes.one {need w l : Nat} {p : Parser Node} (h : Makes need w l p) :
    Takes need w l (one p) :=
  fun _ hc hready => (h hc hready).one

theorem build_eq_ok {kind : Kind} {p : Piece} {c d : Cursor} {n : Node}
    (h : build kind p c = .ok (n, d)) :
    ∃ parts, p c = .ok (parts, d) ∧ n = .ofChildren kind parts := by
  obtain ⟨parts, e, hp, h⟩ := bind_eq_ok h
  obtain ⟨rfl, rfl⟩ := Prod.mk.inj (Except.ok.inj h)
  exact ⟨parts, hp, rfl⟩

/-- A node over parts that fit it is built, and holds the tokens of the parts. -/
theorem reads_ofChildren {start d : Cursor} {kind : Kind} {parts : List Element}
    (hreads : start.Reads parts d) (hfits : kind.Fits parts) :
    start.Reads [.node (.ofChildren kind parts)] d := by
  refine ⟨by simpa using hreads.ahead, hreads.finish, ?_⟩
  intro n hn
  obtain rfl : n = .ofChildren kind parts := by simpa using hn
  exact .ofChildren hfits hreads.built

theorem weight_ofChildren {kind : Kind} {parts : List Element} {w : Nat}
    (h : w ≤ Element.weightIn parts) :
    min 1 w ≤ (Element.node (.ofChildren kind parts)).weight := by
  rcases Nat.eq_zero_or_pos w with rfl | hpos
  · simp
  · have htokens : (Node.ofChildren kind parts).tokens ≠ [] :=
      Element.tokensIn_ne_nil_of_weight (Nat.le_trans hpos h)
    rw [Element.weight, if_neg htokens]
    exact Nat.min_le_left ..

theorem TakesFrom.build {start c : Cursor} {w l : Nat} {kind : Kind} {p : Piece}
    (hp : TakesFrom start c w l p) (hbelow : l ≤ kind.level ∨ 2 ≤ w) (hfile : l ≤ 2)
    (hplain : kind.isGrown = false) :
    MakesFrom start c (min 1 w) (kind.level + 1) (build kind p) := by
  intro n d h
  obtain ⟨parts, hparts, rfl⟩ := build_eq_ok h
  obtain ⟨hreads, hw, hl⟩ := hp hparts
  refine ⟨reads_ofChildren hreads ⟨?_, ?_, ?_, ?_⟩, weight_ofChildren hw, Nat.lt_succ_self _⟩
  · rcases hbelow with hbelow | hbelow
    · exact .inl fun m hm => Nat.lt_of_lt_of_le (hl m hm) hbelow
    · exact .inr (Nat.le_trans hbelow hw)
  · exact fun m hm => Nat.lt_of_lt_of_le (hl m hm) hfile
  · intro h
    rw [Kind.isSuffixed_of_isGrown hplain] at h
    cases h
  · intro precedence width h
    rw [Kind.operator?_of_isGrown hplain] at h
    cases h

/-- A node over parts that weigh two wraps nothing. -/
theorem TakesFrom.build_heavy {start c : Cursor} {w l : Nat} {kind : Kind} {p : Piece}
    (hp : TakesFrom start c w l p) (hweight : 2 ≤ w) (hl : l ≤ 2) (hlevel : kind.level = 0)
    (hplain : kind.isGrown = false) : MakesFrom start c 1 1 (Parser.build kind p) :=
  (hp.build (.inr hweight) hl hplain).mono (by omega) (by omega)

theorem Takes.build {need w l : Nat} {kind : Kind} {p : Piece} (hp : Takes need w l p)
    (hbelow : l ≤ kind.level ∨ 2 ≤ w) (hfile : l ≤ 2) (hplain : kind.isGrown = false) :
    Makes need (min 1 w) (kind.level + 1) (build kind p) :=
  fun _ hc hready => (hp hc hready).build hbelow hfile hplain

/-! ## Choice -/

theorem TakesFrom.ifAt {start c : Cursor} {w l : Nat} {test : Cursor → Bool} {p q : Piece}
    (hp : test c = true → TakesFrom start c w l p)
    (hq : test c = false → TakesFrom start c w l q) : TakesFrom start c w l (ifAt test p q) := by
  intro parts d h
  simp only [Parser.ifAt] at h
  split at h
  · rename_i htest
    exact hp htest h
  · rename_i htest
    exact hq (Bool.eq_false_iff.2 htest) h

/-- A choice takes what both of its branches take; the test supplies what the first one needs. -/
theorem Takes.ifAt {m n v w k l : Nat} {test : Cursor → Bool} {p q : Piece} (hp : Takes n v k p)
    (htest : Cursor.Needs test n) (hq : Takes m w l q) :
    Takes m (min v w) (max k l) (ifAt test p q) := by
  intro c hc hready
  exact .ifAt
    (fun hsees => (hp hc (htest hc hsees)).mono (Nat.min_le_left ..) (Nat.le_max_left ..))
    (fun _ => (hq hc hready).mono (Nat.min_le_right ..) (Nat.le_max_right ..))

theorem Takes.whenAt {need w l : Nat} {test : Cursor → Bool} {p : Piece} (hp : Takes need w l p)
    (htest : Cursor.Needs test need) : Takes 0 0 l (whenAt test p) :=
  (hp.ifAt htest takes_nil).mono (Nat.le_refl _) (by omega) (by omega)

theorem Makes.ifAt {m n v w k l : Nat} {test : Cursor → Bool} {p q : Parser Node}
    (hp : Makes n v k p) (htest : Cursor.Needs test n) (hq : Makes m w l q) :
    Makes m (min v w) (max k l) (ifAt test p q) := by
  intro c hc hready n d h
  simp only [Parser.ifAt] at h
  split at h
  · rename_i hsees
    exact (hp hc (htest hc hsees)).mono (Nat.min_le_left ..) (Nat.le_max_left ..) h
  · exact (hq hc hready).mono (Nat.min_le_right ..) (Nat.le_max_right ..) h

theorem orElse_eq_ok {α : Type} {p q : Parser α} {c d : Cursor} {a : α}
    (h : orElse p q c = .ok (a, d)) : p c = .ok (a, d) ∨ q c = .ok (a, d) := by
  simp only [orElse] at h
  split at h
  · rename_i result hp
    exact .inl (hp.trans h)
  · exact .inr h

theorem recover_eq_ok {α : Type} {p q : Parser α} {c d : Cursor} {a : α}
    (h : recover p q c = .ok (a, d)) : p c = .ok (a, d) ∨ q c = .ok (a, d) := by
  simp only [recover] at h
  split at h
  · rename_i result hp
    exact .inl (hp.trans h)
  · split at h
    · rename_i result hq
      exact .inr (hq.trans h)
    · cases h

theorem Takes.orElse {need v w k l : Nat} {p q : Piece} (hp : Takes need v k p)
    (hq : Takes need w l q) : Takes need (min v w) (max k l) (orElse p q) := by
  intro c hc hready parts d h
  rcases orElse_eq_ok h with h | h
  · exact (hp hc hready).mono (Nat.min_le_left ..) (Nat.le_max_left ..) h
  · exact (hq hc hready).mono (Nat.min_le_right ..) (Nat.le_max_right ..) h

theorem Makes.recover {need w l : Nat} {p q : Parser Node} (hp : Makes need w l p)
    (hq : Makes need w l q) : Makes need w l (recover p q) := by
  intro c hc hready n d h
  rcases recover_eq_ok h with h | h
  · exact hp hc hready h
  · exact hq hc hready h

theorem Makes.followedBy {need w l : Nat} {p : Parser Node} (hp : Makes need w l p)
    (test : Cursor → Bool) (what : String) : Makes need w l (p.followedBy test what) := by
  intro c hc hready n d h
  obtain ⟨m, e, hm, hrest⟩ := bind_eq_ok h
  obtain ⟨parts, e', hcheck, hpure⟩ := bind_eq_ok hrest
  obtain ⟨-, -, rfl⟩ := check_eq_ok hcheck
  obtain ⟨rfl, rfl⟩ := Prod.mk.inj (Except.ok.inj hpure)
  exact hp hc hready hm

theorem makes_fail (need w l : Nat) (what : String) : Makes need w l (fail what) := by
  intro c _ _ n d h
  cases h

theorem takes_fail (need w l : Nat) (what : String) : Takes need w l (fail what) := by
  intro c _ _ parts d h
  cases h

/-! ## Repetition -/

section Repetition

variable {test : Cursor → Bool} {p : Piece} {need w l : Nat}

theorem Takes.rounds (hp : Takes need w l p) (htest : Cursor.Needs test need) (bound : Nat) :
    Takes 0 0 l (rounds test p bound) := by
  induction bound with
  | zero => exact takes_nil.mono (Nat.le_refl _) (Nat.le_refl _) (Nat.zero_le _)
  | succ bound ih =>
    intro c hc _ parts d h
    simp only [Parser.rounds] at h
    split at h
    · rename_i hsees
      exact (((hp hc (htest hc hsees)).append hc ih).mono (Nat.zero_le _) (by omega)) h
    · obtain ⟨rfl, rfl⟩ := Prod.mk.inj (Except.ok.inj h)
      exact ⟨.refl _, Nat.le_refl _, by simp⟩

theorem Takes.repeatWhile (hp : Takes need w l p) (htest : Cursor.Needs test need) :
    Takes 0 0 l (repeatWhile test p) :=
  fun c hc hready => hp.rounds htest (c.ahead.length + 1) hc hready

/-- Where the test holds, there is at least one round. -/
theorem Takes.repeatWhile_of_test (hp : Takes need w l p) (htest : Cursor.Needs test need)
    {c : Cursor} (hc : c.Closed) (hsees : test c = true) :
    TakesFrom c c w l (Parser.repeatWhile test p) := by
  intro parts d h
  simp only [Parser.repeatWhile, Parser.rounds, if_pos hsees] at h
  exact (((hp hc (htest hc hsees)).append hc (hp.rounds htest _)).mono
    (Nat.le_add_right ..) (by omega)) h

/-- Where every round takes a token, the rounds end because the test fails and not because of the
    bound: a round more than there are tokens cannot be had. -/
theorem Takes.rounds_exit (hp : Takes need w l p) (htest : Cursor.Needs test need) (hw : 1 ≤ w)
    {bound : Nat} {c d : Cursor} {parts : List Element} (hc : c.Closed)
    (hbound : c.ahead.length < bound) (h : Parser.rounds test p bound c = .ok (parts, d)) :
    test d = false := by
  induction bound generalizing c parts with
  | zero => omega
  | succ bound ih =>
    simp only [Parser.rounds] at h
    split at h
    · rename_i hsees
      obtain ⟨xs, e, ys, hxs, hys, rfl⟩ := append_eq_ok h
      obtain ⟨hreads, hweight, -⟩ := hp hc (htest hc hsees) hxs
      have hmoved := hreads.shorter (Nat.le_trans hw hweight)
      exact ih (hreads.closed hc) (by omega) hys
    · rename_i hsees
      obtain ⟨rfl, rfl⟩ := Prod.mk.inj (Except.ok.inj h)
      exact Bool.eq_false_iff.2 hsees

theorem Takes.repeatWhile_exit (hp : Takes need w l p) (htest : Cursor.Needs test need)
    (hw : 1 ≤ w) {c d : Cursor} {parts : List Element} (hc : c.Closed)
    (h : Parser.repeatWhile test p c = .ok (parts, d)) : test d = false :=
  hp.rounds_exit htest hw hc (Nat.lt_succ_self _) h

end Repetition

section Lists

variable {item : Piece} {w l : Nat}

theorem Takes.commaList (hitem : Takes 0 w l item) : Takes 0 w l (commaList item) :=
  (hitem.append (hitem.token_append.repeatWhile (Cursor.needs_sees ","))).mono
    (Nat.le_refl _) (Nat.le_add_right ..) (by omega)

theorem Takes.itemsBefore (hitem : Takes 0 w l item) (close : String) (bound : Nat) :
    Takes 0 0 l (itemsBefore close item bound) := by
  induction bound with
  | zero => exact takes_nil.mono (Nat.le_refl _) (Nat.le_refl _) (Nat.zero_le _)
  | succ bound ih =>
    intro c hc hready parts d h
    simp only [Parser.itemsBefore] at h
    split at h
    · obtain ⟨rfl, rfl⟩ := Prod.mk.inj (Except.ok.inj h)
      exact ⟨.refl _, Nat.le_refl _, by simp⟩
    · have htail := ih.token_append.whenAt (Cursor.needs_sees ",")
      exact (((hitem hc hready).append hc htail).mono (Nat.zero_le _) (by omega)) h

theorem Takes.openList (hitem : Takes 0 w l item) (close : String) :
    Takes 0 0 l (openList close item) :=
  fun c hc hready => hitem.itemsBefore close (c.ahead.length + 1) hc hready

theorem Takes.bracketed (hitem : Takes 0 w l item) (opening close : String) :
    Takes 0 4 l (bracketed opening close item) := by
  have hitems : Takes 0 0 l (Parser.whenAt (fun c => !c.sees close) (Parser.commaList item)) :=
    hitem.commaList.whenAt (Cursor.needs_zero _)
  exact (((takes_mark opening).append hitems).append (takes_mark close)).mono
    (Nat.le_refl _) (Nat.le_refl _) (by omega)

end Lists

/-! ## Constructs that grow on their right -/

/-- What may follow a node and is part of a larger one: at least a token, in a node that wraps
    nothing. Only nodes in `first` are extended, to such nodes: it is what an extension has to know
    of the node on its left and of what comes behind it. -/
def Extends (first : Node → Cursor → Prop) (next : Extension) : Prop :=
  ∀ ⦃c kind rest⦄, c.Closed → next c = some (kind, rest) → TakesFrom c c 1 2 rest ∧
    kind.level = 0 ∧ ∀ left, first left c →
      (kind.isSuffixed = true → left.kind.isPrimary = true) ∧
      ∀ parts d, rest c = .ok (parts, d) → first (.ofChildren kind (.node left :: parts)) d ∧
        ∀ precedence width, kind.operator? (.node left :: parts) = some (precedence, width) →
          Element.testsType (.node left :: parts) = false →
          Element.Ranked precedence width (.node left :: parts)

/-- An extension that does not depend on the node it extends. -/
theorem extends_plain {next : Extension} (h : ∀ ⦃c kind rest⦄, c.Closed → next c = some (kind, rest) →
    TakesFrom c c 1 2 rest ∧ kind.level = 0 ∧ kind.isGrown = false) :
    Extends (fun _ _ => True) next := by
  intro c kind rest hc hnext
  obtain ⟨htakes, hlevel, hplain⟩ := h hc hnext
  refine ⟨htakes, hlevel, fun left _ => ⟨fun hsuffix => ?_, fun parts d _ => ⟨trivial, ?_⟩⟩⟩
  · rw [Kind.isSuffixed_of_isGrown hplain] at hsuffix
    cases hsuffix
  · intro precedence width hoperator
    rw [Kind.operator?_of_isGrown hplain] at hoperator
    cases hoperator

/-- A node from `start` on that may be extended: it has tokens and wraps nothing. -/
structure Extensible (first : Node → Cursor → Prop) (start c : Cursor) (n : Node) : Prop where
  reads : start.Reads [.node n] c
  full : 1 ≤ (Element.node n).weight
  level : n.kind.level < 1
  first : first n c

theorem Extensible.extend {first : Node → Cursor → Prop} {next : Extension}
    (hnext : Extends first next) {start c d : Cursor} (hc : start.Closed) {left : Node}
    {result : Option Node} (hleft : Extensible first start c left)
    (h : extend next left c = .ok (result, d)) :
    (result = none ∧ d = c ∧ next c = none) ∨
      ∃ whole, result = some whole ∧ Extensible first start d whole ∧
        d.ahead.length < c.ahead.length := by
  simp only [Parser.extend] at h
  split at h
  · rename_i hnone
    obtain ⟨rfl, rfl⟩ := Prod.mk.inj (Except.ok.inj h)
    exact .inl ⟨rfl, rfl, hnone⟩
  · rename_i kind rest hkind
    obtain ⟨whole, e, hwhole, h⟩ := bind_eq_ok h
    obtain ⟨rfl, rfl⟩ := Prod.mk.inj (Except.ok.inj h)
    obtain ⟨parts, hparts, rfl⟩ := build_eq_ok hwhole
    obtain ⟨xs, e, ys, hxs, hys, rfl⟩ := append_eq_ok hparts
    obtain ⟨rfl, rfl⟩ := Prod.mk.inj (Except.ok.inj hxs)
    -- The extension says what its kind and its parts are; the node on the left is the first of the
    -- parts.
    obtain ⟨hrest, hlevel, hgrows⟩ := hnext (hleft.reads.closed hc) hkind
    obtain ⟨hreads, hweight, hbelow⟩ := hrest hys
    obtain ⟨hprimary, hwhole⟩ := hgrows left hleft.first
    obtain ⟨hfirst, hranked⟩ := hwhole ys _ hys
    have htwo : 2 ≤ Element.weightIn ([.node left] ++ ys) := by
      have := hleft.full
      simp only [Element.weightIn_append, Element.weightIn_cons, Element.weightIn_nil]
      omega
    refine .inr ⟨_, rfl, ⟨reads_ofChildren (hleft.reads.append hreads)
      ⟨.inr htwo, ?_, ?_, hranked⟩, ?_, ?_, hfirst⟩, hreads.shorter hweight⟩
    · intro n hn
      rcases List.mem_cons.1 hn with hn | hn
      · have := hleft.level
        obtain rfl := Element.node.inj hn
        omega
      · exact hbelow n hn
    · intro hsuffix n hn
      obtain rfl : left = n := by simpa using hn
      exact hprimary hsuffix
    · exact Nat.le_trans (by decide) (weight_ofChildren htwo)
    · show kind.level < 1
      omega

/-- Where every extension takes a token, a node is extended until the cursor says no: the bound is
    not what ends the growth. -/
theorem Extensible.growths {first : Node → Cursor → Prop} {next : Extension}
    (hnext : Extends first next) {bound : Nat} {start c d : Cursor} (hc : start.Closed)
    {left n : Node} (hleft : Extensible first start c left)
    (h : growths next bound left c = .ok (n, d)) :
    Extensible first start d n ∧ (c.ahead.length < bound → next d = none) := by
  induction bound generalizing left c with
  | zero =>
    obtain ⟨rfl, rfl⟩ := Prod.mk.inj (Except.ok.inj h)
    exact ⟨hleft, fun hbound => absurd hbound (Nat.not_lt_zero _)⟩
  | succ bound ih =>
    obtain ⟨result, e, hresult, hrest⟩ := bind_eq_ok h
    rcases hleft.extend hnext hc hresult with ⟨rfl, rfl, hnone⟩ | ⟨whole, rfl, hwhole, hshorter⟩
    · obtain ⟨rfl, rfl⟩ := Prod.mk.inj (Except.ok.inj hrest)
      exact ⟨hleft, fun _ => hnone⟩
    · obtain ⟨hn, hstop⟩ := ih hwhole hrest
      exact ⟨hn, fun hbound => hstop (by omega)⟩

/-- A parser of nodes that may be extended. -/
def MakesFirst (first : Node → Cursor → Prop) (p : Parser Node) : Prop :=
  ∀ ⦃c n d⦄, c.Closed → p c = .ok (n, d) → Extensible first c d n

theorem grow_eq_ok {next : Extension} {p : Parser Node} {c d : Cursor} {n : Node}
    (h : grow next p c = .ok (n, d)) :
    ∃ left e, p c = .ok (left, e) ∧ growths next (e.ahead.length + 1) left e = .ok (n, d) := by
  obtain ⟨left, e, hleft, h⟩ := bind_eq_ok h
  obtain ⟨cursor, e', hget, h⟩ := bind_eq_ok h
  obtain ⟨rfl, rfl⟩ := Prod.mk.inj (Except.ok.inj hget)
  exact ⟨left, e, hleft, h⟩

theorem Extends.grow {first : Node → Cursor → Prop} {next : Extension} (hnext : Extends first next)
    {p : Parser Node} (hp : MakesFirst first p) : MakesFirst first (grow next p) := by
  intro c n d hc h
  obtain ⟨left, e, hleft, h⟩ := grow_eq_ok h
  exact ((hp hc hleft).growths hnext hc h).1

/-- What was grown is followed by nothing that it could be extended with. -/
theorem Extends.grow_exit {first : Node → Cursor → Prop} {next : Extension}
    (hnext : Extends first next) {p : Parser Node} (hp : MakesFirst first p) {c d : Cursor}
    {n : Node} (hc : c.Closed) (h : Parser.grow next p c = .ok (n, d)) : next d = none := by
  obtain ⟨left, e, hleft, h⟩ := grow_eq_ok h
  exact ((hp hc hleft).growths hnext hc h).2 (Nat.lt_succ_self _)

theorem Extends.growOnce {first : Node → Cursor → Prop} {next : Extension}
    (hnext : Extends first next) {p : Parser Node} (hp : MakesFirst first p) :
    MakesFirst first (growOnce next p) := by
  intro c n d hc h
  obtain ⟨left, e, hleft, h⟩ := bind_eq_ok h
  obtain ⟨result, e', hresult, h⟩ := bind_eq_ok h
  obtain ⟨rfl, rfl⟩ := Prod.mk.inj (Except.ok.inj h)
  rcases (hp hc hleft).extend hnext hc hresult with ⟨rfl, rfl, -⟩ | ⟨whole, rfl, hwhole, -⟩
  · exact hp hc hleft
  · exact hwhole

theorem MakesFirst.makes {first : Node → Cursor → Prop} {p : Parser Node} (hp : MakesFirst first p) :
    Makes 0 1 1 p := by
  intro c hc _ n d h
  have hn := hp hc h
  exact ⟨hn.reads, hn.full, hn.level⟩

theorem MakesFrom.extensible {first : Node → Cursor → Prop} {start c d : Cursor} {kind : Kind}
    {p : Piece} {n : Node} (h : MakesFrom start c 1 1 (build kind p))
    (hfirst : ∀ parts, first (.ofChildren kind parts) d)
    (hn : build kind p c = .ok (n, d)) : Extensible first start d n := by
  obtain ⟨hreads, hfull, hlevel⟩ := h hn
  obtain ⟨parts, -, rfl⟩ := build_eq_ok hn
  exact ⟨hreads, hfull, hlevel, hfirst parts⟩

theorem TakesFrom.extensible {first : Node → Cursor → Prop} {start c d : Cursor} {w l : Nat}
    {kind : Kind} {p : Piece} {n : Node} (hp : TakesFrom start c w l p) (hweight : 2 ≤ w) (hl : l ≤ 2)
    (hlevel : kind.level = 0) (hplain : kind.isGrown = false)
    (hfirst : ∀ parts, first (.ofChildren kind parts) d)
    (hn : Parser.build kind p c = .ok (n, d)) : Extensible first start d n :=
  (hp.build_heavy hweight hl hlevel hplain).extensible hfirst hn

theorem Makes.first {p : Parser Node} (hp : Makes 0 1 1 p) : MakesFirst (fun _ _ => True) p := by
  intro c n d hc h
  obtain ⟨hreads, hfull, hlevel⟩ := hp hc (Nat.zero_le _) h
  exact ⟨hreads, hfull, hlevel, trivial⟩

/-! ## Bracket groups and raw runs -/

theorem splitGroup_eq_some {depth : Nat} {ts group rest : List Token}
    (h : splitGroup depth ts = some (group, rest)) : ts = group ++ rest ∧ group ≠ [] := by
  induction ts generalizing depth group with
  | nil => cases h
  | cons t ts ih =>
    have honward : ∀ {depth : Nat}, ((splitGroup depth ts).map fun split =>
        (t :: split.1, split.2)) = some (group, rest) → t :: ts = group ++ rest ∧ group ≠ [] := by
      intro depth h
      obtain ⟨⟨group, rest⟩, hsplit, heq⟩ := Option.map_eq_some_iff.1 h
      obtain ⟨rfl, rfl⟩ := Prod.mk.inj heq
      exact ⟨by rw [List.cons_append, ← (ih hsplit).1], by simp⟩
    simp only [splitGroup] at h
    split at h
    · exact honward h
    · split at h
      · split at h
        · cases h
        · obtain ⟨rfl, rfl⟩ := Prod.mk.inj (Option.some.inj h)
          exact ⟨rfl, by simp⟩
        · exact honward h
      · exact honward h

theorem tokensIn_map_token (ts : List Token) : Element.tokensIn (ts.map .token) = ts := by
  induction ts with
  | nil => rfl
  | cons t ts ih => simp [ih]

theorem takes_group : Takes 0 2 0 group := by
  intro c _ _ parts d h
  simp only [group] at h
  split at h
  · cases h
  · rename_i ts rest hsplit
    obtain ⟨rfl, rfl⟩ := Prod.mk.inj (Except.ok.inj h)
    obtain ⟨hahead, hne⟩ := splitGroup_eq_some hsplit
    refine ⟨⟨by rw [tokensIn_map_token]; exact hahead, rfl, by simp⟩, ?_, by simp⟩
    obtain ⟨t, us, rfl⟩ := List.exists_cons_of_ne_nil hne
    simp

theorem makes_rawGroup : Makes 0 1 1 rawGroup :=
  takes_group.build (by decide) (by decide) rfl

/-- Away from the end of a body a round of a raw run takes a token or a group. -/
theorem takesFrom_rawRounds {bound : Nat} {fresh : Bool}
    (hmore : Takes 0 0 0 (rawRounds bound false)) {c : Cursor} (hc : c.Closed)
    (hend : c.atBodyEnd = false) : TakesFrom c c 2 0 (rawRounds (bound + 1) fresh) := by
  have hready := Cursor.pos_of_notAtBodyEnd hend
  obtain ⟨hclose, hatEnd⟩ := Bool.or_eq_false_iff.1 hend
  have hsemicolon := takes_token.whenAt (Cursor.needs_sees ";")
  intro parts d h
  simp only [rawRounds, hatEnd, hclose, Bool.false_eq_true, if_false] at h
  split at h
  · exact (takes_group.append hsemicolon) hc (Nat.zero_le _) h
  · split at h
    · exact (takes_group.append hmore) hc (Nat.zero_le _) h
    · split at h
      · exact takes_token hc hready h
      · exact (takes_token.append hmore) hc hready h

theorem takes_rawRounds (bound : Nat) (fresh : Bool) : Takes 0 0 0 (rawRounds bound fresh) := by
  induction bound generalizing fresh with
  | zero => exact takes_nil
  | succ bound ih =>
    intro c hc _
    cases hend : c.atBodyEnd with
    | false => exact (takesFrom_rawRounds (ih false) hc hend).mono (Nat.zero_le _) (Nat.le_refl _)
    | true =>
      intro parts d h
      simp only [Cursor.atBodyEnd, Bool.or_eq_true] at hend
      simp only [rawRounds] at h
      split at h
      · exact takes_nil hc (Nat.zero_le _) h
      · rename_i hatEnd
        rw [if_pos (hend.resolve_right hatEnd)] at h
        split at h
        · cases h
        · exact takes_nil hc (Nat.zero_le _) h

theorem makes_rawRun {kind : Kind} (hlevel : kind.level = 0) (hplain : kind.isGrown = false) :
    Makes 0 1 1 (rawRun kind) := by
  have hrun : Takes 0 2 0 fun c => if c.atEnd then .error (c.refusal "member")
      else rawRounds (c.ahead.length + 1) true c := by
    intro c hc hready parts d h
    simp only at h
    split at h
    · cases h
    · rename_i hatEnd
      cases hclose : c.sees Token.closeBrace with
      | true => simp [rawRounds, hatEnd, hclose] at h
      | false =>
        have hend : c.atBodyEnd = false := by simp [Cursor.atBodyEnd, hatEnd, hclose]
        exact takesFrom_rawRounds (takes_rawRounds _ _) hc hend h
  have hbuild : Makes 0 1 (kind.level + 1) (rawRun kind) :=
    hrun.build (.inr (Nat.le_refl _)) (by decide) hplain
  rw [hlevel] at hbuild
  exact hbuild

end Parser

end Recast
