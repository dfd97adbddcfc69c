-- SUMMARY: Tree nodes: a kind, children that are tokens or nodes, the span read from the source, and tags; their tokens, text and source, and edits of the first and last token.
import Recast.Source.Token
import Recast.Tree.Kind

/-! # Nodes

A node holds every token of the construct it stands for, so its tokens in document order are what
it prints. `Node.tokens` is the view that everything else is stated in: text, source, first and
last token are read off it.

A node may carry tags. A tag is a name for the node that survives edits elsewhere in the tree.
The span of a node is fixed when it is built and is not recomputed by edits inside it. -/

namespace Recast

/-- A name put on a node so that it can be found again after edits. -/
structure Tag where
  id : Nat
  deriving DecidableEq, Repr

mutual

/-- A construct with its parts. -/
structure Node where
  kind : Kind
  children : List Element
  span : Option Span
  tags : List Tag

/-- A part of a construct. -/
inductive Element where
  | token (t : Token)
  | node (n : Node)

end

/-! ## Tokens -/

mutual

/-- The tokens of a node in document order. -/
def Node.tokens : Node → List Token
  | ⟨_, children, _, _⟩ => Element.tokensIn children

/-- The tokens of a part in document order. -/
def Element.tokens : Element → List Token
  | .token t => [t]
  | .node n => n.tokens

/-- The tokens of a list of parts in document order. -/
def Element.tokensIn : List Element → List Token
  | [] => []
  | e :: es => e.tokens ++ Element.tokensIn es

end

mutual

/-- The number of nodes in a node, itself included. -/
def Node.size : Node → Nat
  | ⟨_, children, _, _⟩ => Element.sizeIn children + 1

/-- The number of nodes in a part. -/
def Element.size : Element → Nat
  | .token _ => 0
  | .node n => n.size

/-- The number of nodes in a list of parts. -/
def Element.sizeIn : List Element → Nat
  | [] => 0
  | e :: es => e.size + Element.sizeIn es

end

namespace Element

@[simp] theorem tokensIn_nil : tokensIn [] = [] := rfl

@[simp] theorem tokensIn_cons (e : Element) (es : List Element) :
    tokensIn (e :: es) = e.tokens ++ tokensIn es := rfl

@[simp] theorem tokensIn_append (xs ys : List Element) :
    tokensIn (xs ++ ys) = tokensIn xs ++ tokensIn ys := by
  induction xs with
  | nil => rfl
  | cons e es ih => simp [ih]

@[simp] theorem tokens_token (t : Token) : (Element.token t).tokens = [t] := rfl

@[simp] theorem tokens_node (n : Node) : (Element.node n).tokens = n.tokens := rfl

/-- The node, when the part is one. -/
def node? : Element → Option Node
  | .node n => some n
  | .token _ => none

/-- The token, when the part is one. -/
def token? : Element → Option Token
  | .token t => some t
  | .node _ => none

/-- True for a token with this text. -/
def isToken (e : Element) (text : String) : Bool :=
  match e with
  | .token t => t.is text
  | .node _ => false

/-- True for a node of this kind. -/
def isNode (e : Element) (kind : Kind) : Bool :=
  match e with
  | .node n => n.kind == kind
  | .token _ => false

/-- True when the part holds a token. -/
def hasTokens (e : Element) : Bool :=
  !e.tokens.isEmpty

/-- The trivia at the end of the part. -/
def trailing (e : Element) : List Trivia :=
  (e.tokens.getLast?.map Token.trailing).getD []

end Element

/-! ## Edits of the first and the last token -/

mutual

/-- The node with its first token edited. -/
def Node.mapFirst (f : Token → Token) : Node → Node
  | ⟨kind, children, span, tags⟩ => ⟨kind, Element.mapFirstIn f children, span, tags⟩

/-- The part with its first token edited. -/
def Element.mapFirst (f : Token → Token) : Element → Element
  | .token t => .token (f t)
  | .node n => .node (n.mapFirst f)

/-- The parts with the first token among them edited. -/
def Element.mapFirstIn (f : Token → Token) : List Element → List Element
  | [] => []
  | e :: es => if e.hasTokens then e.mapFirst f :: es else e :: Element.mapFirstIn f es

end

mutual

/-- The node with its last token edited. -/
def Node.mapLast (f : Token → Token) : Node → Node
  | ⟨kind, children, span, tags⟩ => ⟨kind, Element.mapLastIn f children, span, tags⟩

/-- The part with its last token edited. -/
def Element.mapLast (f : Token → Token) : Element → Element
  | .token t => .token (f t)
  | .node n => .node (n.mapLast f)

/-- The parts with the last token among them edited. -/
def Element.mapLastIn (f : Token → Token) : List Element → List Element
  | [] => []
  | e :: es => if es.any Element.hasTokens then e :: Element.mapLastIn f es else e.mapLast f :: es

end

namespace Node

/-! ## Views -/

def firstToken? (n : Node) : Option Token :=
  n.tokens.head?

def lastToken? (n : Node) : Option Token :=
  n.tokens.getLast?

/-- The span from the first to the last of the tokens, when both were read from a source. -/
def spanOf (ts : List Token) : Option Span :=
  match ts.head?.bind Token.span, ts.getLast?.bind Token.span with
  | some first, some last => some (first.cover last)
  | _, _ => none

/-- A node over its parts, without tags. -/
def ofChildren (kind : Kind) (children : List Element) : Node :=
  ⟨kind, children, spanOf (Element.tokensIn children), []⟩

@[simp] theorem tokens_ofChildren (kind : Kind) (children : List Element) :
    (ofChildren kind children).tokens = Element.tokensIn children := rfl

/-- The node in its source form, trivia included. -/
def source (n : Node) : String :=
  Token.sourceOf n.tokens

/-- The source without the trivia at its two ends. -/
def text (n : Node) : String :=
  Token.textOf n.tokens

/-- The token texts alone, without any trivia. -/
def bareText (n : Node) : String :=
  Text.concat (n.tokens.map Token.text)

/-- The trivia before the first token. -/
def leading (n : Node) : List Trivia :=
  (n.firstToken?.map Token.leading).getD []

/-- The trivia after the last token. -/
def trailing (n : Node) : List Trivia :=
  (n.lastToken?.map Token.trailing).getD []

/-! ## Parts -/

def childNodes (n : Node) : List Node :=
  n.children.filterMap Element.node?

def childTokens (n : Node) : List Token :=
  n.children.filterMap Element.token?

/-- The child nodes of a kind. -/
def childrenOf (n : Node) (kind : Kind) : List Node :=
  n.childNodes.filter fun c => c.kind == kind

/-- The first child node of a kind. -/
def child? (n : Node) (kind : Kind) : Option Node :=
  n.childNodes.find? fun c => c.kind == kind

/-- True when a child node has the kind. -/
def hasChild (n : Node) (kind : Kind) : Bool :=
  (n.child? kind).isSome

/-- The first child node that names a type. -/
def typeChild? (n : Node) : Option Node :=
  n.childNodes.find? fun c => c.kind.isTypeName

/-- The index of the first child node of a kind, among all children. -/
def indexOf? (n : Node) (kind : Kind) : Option Nat :=
  n.children.findIdx? fun e => e.isNode kind

/-- True when a child token has this text. -/
def hasToken (n : Node) (text : String) : Bool :=
  n.children.any fun e => e.isToken text

/-- The text of the first identifier among the child tokens. -/
def identifier? (n : Node) : Option String :=
  (n.childTokens.find? fun t => t.kind == .identifier).map Token.text

/-- True when the node carries the tag. -/
def hasTag (n : Node) (tag : Tag) : Bool :=
  n.tags.contains tag

/-! ## Changes -/

/-- The node with one more tag. -/
def withTag (n : Node) (tag : Tag) : Node :=
  { n with tags := n.tags ++ [tag] }

/-- The node with other parts; its span and tags stay. -/
def withChildren (n : Node) (children : List Element) : Node :=
  { n with children }

/-- The node with other trivia before its first token. -/
def withLeading (n : Node) (trivia : List Trivia) : Node :=
  n.mapFirst fun t => { t with leading := trivia }

/-- The node with other trivia after its last token. -/
def withTrailing (n : Node) (trivia : List Trivia) : Node :=
  n.mapLast fun t => { t with trailing := trivia }

/-- The node with the trivia that stands around another one. -/
def withTriviaOf (n other : Node) : Node :=
  (n.withLeading other.leading).withTrailing other.trailing

end Node

end Recast
