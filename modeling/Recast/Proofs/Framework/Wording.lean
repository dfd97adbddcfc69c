-- SUMMARY: What is written of a node, wherever it stands, and the views that read nothing else: the values of arguments, predicates of lambdas and constraints.
import Mathlib.Logic.Function.Basic
import Recast.Framework.Basic

/-! # Wording

A node carries the place where it was read, and its tokens carry the trivia around it. Its *wording*
leaves both out: it is the kind and the text of the node and the wording of its parts. Moved to
another place, an expression keeps its wording. What a rule reads off an expression factors through
the wording, so the rule cannot tell where the expression stands. -/

namespace Recast

/-- What is written of a construct, wherever it stands. -/
inductive Wording where
  | token (kind : TokenKind) (text : String)
  | node (kind : Kind) (text : String) (parts : List Wording)

mutual

def Node.wording : Node → Wording
  | ⟨kind, children, span, tags⟩ =>
    .node kind (Node.text ⟨kind, children, span, tags⟩) (Element.wordingsIn children)

def Element.wording : Element → Wording
  | .token t => .token t.kind t.text
  | .node n => n.wording

def Element.wordingsIn : List Element → List Wording
  | [] => []
  | e :: es => e.wording :: Element.wordingsIn es

end

/-! ## Reading a wording -/

namespace Wording

/-- The text of a construct. -/
def text : Wording → String
  | .token _ text => text
  | .node _ text _ => text

/-- The wording, when it is that of a node. -/
def node? : Wording → Option Wording
  | .token .. => none
  | .node kind text parts => some (.node kind text parts)

/-- The kind and the text of a token. -/
def word? : Wording → Option (TokenKind × String)
  | .token kind text => some (kind, text)
  | .node .. => none

mutual

/-- The kinds and texts of the tokens in document order. -/
def words : Wording → List (TokenKind × String)
  | .token kind text => [(kind, text)]
  | .node _ _ parts => wordsIn parts

def wordsIn : List Wording → List (TokenKind × String)
  | [] => []
  | w :: ws => w.words ++ wordsIn ws

end

mutual

/-- The number of nodes. -/
def size : Wording → Nat
  | .token .. => 0
  | .node _ _ parts => sizeIn parts + 1

def sizeIn : List Wording → Nat
  | [] => 0
  | w :: ws => w.size + sizeIn ws

end

end Wording

/-! ### Comparing -/

namespace Wording

mutual

/-- True for the same wording twice. -/
def same : Wording → Wording → Bool
  | .token kind text, .token kind' text' => kind == kind' && text == text'
  | .node kind text parts, .node kind' text' parts' =>
    kind == kind' && text == text' && sameIn parts parts'
  | _, _ => false

def sameIn : List Wording → List Wording → Bool
  | [], [] => true
  | w :: ws, w' :: ws' => same w w' && sameIn ws ws'
  | _, _ => false

end

mutual

theorem same_eq_true_iff : (w w' : Wording) → (same w w' = true ↔ w = w')
  | .token .., .token .. => by simp [same]
  | .token .., .node .. => by simp [same]
  | .node .., .token .. => by simp [same]
  | .node _ _ parts, .node _ _ parts' => by simp [same, sameIn_eq_true_iff parts parts', and_assoc]

theorem sameIn_eq_true_iff : (ws ws' : List Wording) → (sameIn ws ws' = true ↔ ws = ws')
  | [], [] => by simp [sameIn]
  | [], _ :: _ => by simp [sameIn]
  | _ :: _, [] => by simp [sameIn]
  | w :: ws, w' :: ws' => by simp [sameIn, same_eq_true_iff w w', sameIn_eq_true_iff ws ws']

end

instance : DecidableEq Wording := fun w w' =>
  decidable_of_iff (same w w' = true) (same_eq_true_iff w w')

end Wording

/-- The kind and the text of a token. -/
def Token.wording (t : Token) : TokenKind × String :=
  (t.kind, t.text)

theorem Node.wording_eq (n : Node) :
    n.wording = .node n.kind n.text (Element.wordingsIn n.children) := by
  obtain ⟨kind, children, span, tags⟩ := n
  rfl

mutual

theorem Node.words_wording : (n : Node) → n.wording.words = n.tokens.map Token.wording
  | ⟨_, children, _, _⟩ => Element.wordsIn_wordingsIn children

theorem Element.words_wording : (e : Element) → e.wording.words = e.tokens.map Token.wording
  | .token _ => rfl
  | .node n => n.words_wording

theorem Element.wordsIn_wordingsIn : (es : List Element) →
    Wording.wordsIn (Element.wordingsIn es) = (Element.tokensIn es).map Token.wording
  | [] => rfl
  | e :: es => by
    rw [Element.wordingsIn, Wording.wordsIn, e.words_wording, Element.wordsIn_wordingsIn es,
      Element.tokensIn_cons, List.map_append]

end

mutual

theorem Node.size_wording : (n : Node) → n.wording.size = n.size
  | ⟨_, children, _, _⟩ => congrArg (· + 1) (Element.sizeIn_wordingsIn children)

theorem Element.size_wording : (e : Element) → e.wording.size = e.size
  | .token _ => rfl
  | .node n => n.size_wording

theorem Element.sizeIn_wordingsIn : (es : List Element) →
    Wording.sizeIn (Element.wordingsIn es) = Element.sizeIn es
  | [] => rfl
  | e :: es => by
    rw [Element.wordingsIn, Wording.sizeIn, e.size_wording, Element.sizeIn_wordingsIn es,
      Element.sizeIn]

end

theorem Element.filterMap_node? (es : List Element) :
    (es.filterMap node?).map Node.wording = (wordingsIn es).filterMap Wording.node? := by
  induction es with
  | nil => rfl
  | cons e es ih =>
    cases e with
    | token t => exact ih
    | node n =>
      have hnode : n.wording.node? = some n.wording := by
        rw [n.wording_eq]
        rfl
      rw [wordingsIn, wording, List.filterMap_cons_some hnode, ← ih]
      rfl

theorem Element.filterMap_token? (es : List Element) :
    (es.filterMap token?).map Token.wording = (wordingsIn es).filterMap Wording.word? := by
  induction es with
  | nil => rfl
  | cons e es ih =>
    cases e with
    | token t => exact congrArg (t.wording :: ·) ih
    | node n =>
      have hword : n.wording.word? = none := by
        rw [n.wording_eq]
        rfl
      rw [wordingsIn, wording, List.filterMap_cons_none hword, ← ih]
      rfl

/-! ## Functions that factor through the wording -/

section Factors

variable {α β γ : Type} {view : α → γ} {xs ys : List α} {o o' : Option α}

theorem find?_of_map_eq {p : α → Bool} (hp : Function.FactorsThrough p view)
    (h : xs.map view = ys.map view) : (xs.find? p).map view = (ys.find? p).map view := by
  obtain ⟨q, rfl⟩ := (Function.factorsThrough_iff p).1 hp
  rw [← List.find?_map, h, List.find?_map]

theorem filterMap_of_map_eq {f : α → Option β} (hf : Function.FactorsThrough f view)
    (h : xs.map view = ys.map view) : xs.filterMap f = ys.filterMap f := by
  obtain ⟨g, rfl⟩ := (Function.factorsThrough_iff f).1 hf
  rw [← List.filterMap_map, h, List.filterMap_map]

theorem map_of_map_eq [Nonempty β] {f : α → β} (hf : Function.FactorsThrough f view)
    (h : xs.map view = ys.map view) : xs.map f = ys.map f := by
  obtain ⟨g, rfl⟩ := (Function.factorsThrough_iff f).1 hf
  rw [← List.map_map, h, List.map_map]

theorem bind_of_map_eq {f : α → Option β} (hf : Function.FactorsThrough f view)
    (h : o.map view = o'.map view) : o.bind f = o'.bind f := by
  obtain ⟨g, rfl⟩ := (Function.factorsThrough_iff f).1 hf
  rw [← Option.bind_map, h, Option.bind_map]

theorem optionMap_of_map_eq [Nonempty β] {f : α → β} (hf : Function.FactorsThrough f view)
    (h : o.map view = o'.map view) : o.map f = o'.map f := by
  obtain ⟨g, rfl⟩ := (Function.factorsThrough_iff f).1 hf
  rw [← Option.map_map, h, Option.map_map]

end Factors

/-! ## Nodes of the same wording -/

namespace Node

variable {n m : Node}

theorem kind_eq_of_wording (h : n.wording = m.wording) : n.kind = m.kind := by
  rw [wording_eq, wording_eq] at h
  exact (Wording.node.inj h).1

theorem text_eq_of_wording (h : n.wording = m.wording) : n.text = m.text := by
  rw [wording_eq, wording_eq] at h
  exact (Wording.node.inj h).2.1

theorem wordingsIn_children (h : n.wording = m.wording) :
    Element.wordingsIn n.children = Element.wordingsIn m.children := by
  rw [wording_eq, wording_eq] at h
  exact (Wording.node.inj h).2.2

theorem size_eq_of_wording (h : n.wording = m.wording) : n.size = m.size := by
  rw [← size_wording, h, size_wording]

theorem childNodes_of_wording (h : n.wording = m.wording) :
    n.childNodes.map wording = m.childNodes.map wording := by
  rw [childNodes, childNodes, Element.filterMap_node?, Element.filterMap_node?,
    wordingsIn_children h]

theorem childTokens_of_wording (h : n.wording = m.wording) :
    n.childTokens.map Token.wording = m.childTokens.map Token.wording := by
  rw [childTokens, childTokens, Element.filterMap_token?, Element.filterMap_token?,
    wordingsIn_children h]

/-- The first child node. -/
theorem head?_childNodes_of_wording (h : n.wording = m.wording) :
    n.childNodes.head?.map wording = m.childNodes.head?.map wording := by
  rw [← List.head?_map, ← List.head?_map, childNodes_of_wording h]

theorem getLast?_childNodes_of_wording (h : n.wording = m.wording) :
    n.childNodes.getLast?.map wording = m.childNodes.getLast?.map wording := by
  rw [← List.getLast?_map, ← List.getLast?_map, childNodes_of_wording h]

theorem childNodes_getElem?_of_wording (h : n.wording = m.wording) (i : Nat) :
    n.childNodes[i]?.map wording = m.childNodes[i]?.map wording := by
  rw [← List.getElem?_map, ← List.getElem?_map, childNodes_of_wording h]

theorem child?_of_wording (h : n.wording = m.wording) (kind : Kind) :
    (n.child? kind).map wording = (m.child? kind).map wording :=
  find?_of_map_eq (fun a b hab => by rw [kind_eq_of_wording hab]) (childNodes_of_wording h)

theorem identifier?_eq_of_wording (h : n.wording = m.wording) : n.identifier? = m.identifier? := by
  have hfound : (n.childTokens.find? fun t => t.kind == .identifier).map Token.wording =
      (m.childTokens.find? fun t => t.kind == .identifier).map Token.wording :=
    find?_of_map_eq (fun t u htu => by rw [(Prod.mk.inj htu).1]) (childTokens_of_wording h)
  exact optionMap_of_map_eq (fun t u htu => (Prod.mk.inj htu).2) hfound

theorem firstToken?_of_wording (h : n.wording = m.wording) :
    n.firstToken?.map Token.wording = m.firstToken?.map Token.wording := by
  rw [firstToken?, firstToken?, ← List.head?_map, ← List.head?_map, ← words_wording, h,
    words_wording]

end Node

/-! ## Views of the same wording -/

namespace View

theorem Argument.factors_valueText :
    Function.FactorsThrough (fun n => (Argument.of? n).map Argument.valueText) Node.wording := by
  intro n m h
  simp only [Argument.of?, Node.kind_eq_of_wording h]
  split
  · refine congrArg (fun text : Option String => some (text.getD "")) ?_
    exact optionMap_of_map_eq (fun _ _ => Node.text_eq_of_wording)
      (Node.head?_childNodes_of_wording h)
  · rfl

theorem Invocation.argumentTexts_eq_of_wording {n m : Node} (h : n.wording = m.wording) :
    (Invocation.mk n).argumentTexts = (Invocation.mk m).argumentTexts := by
  have hlist : ∀ i : Invocation, i.argumentTexts =
      (i.argumentList?.map fun list =>
        list.childNodes.filterMap fun n => (Argument.of? n).map Argument.valueText).getD [] := by
    intro i
    rw [argumentTexts, arguments]
    cases i.argumentList? with
    | none => rfl
    | some list => exact List.map_filterMap
  rw [hlist, hlist]
  refine congrArg (fun texts : Option (List String) => texts.getD [])
    (optionMap_of_map_eq (fun a b hab => ?_) (Node.child?_of_wording h .argumentList))
  exact filterMap_of_map_eq Argument.factors_valueText (Node.childNodes_of_wording hab)

/-- The texts of type arguments. -/
theorem GenericName.factors_arguments :
    Function.FactorsThrough (fun n => (GenericName.of? n).map fun g => g.arguments.map Node.text)
      Node.wording := by
  intro n m h
  have hlist : (GenericName.mk n).arguments.map Node.wording =
      (GenericName.mk m).arguments.map Node.wording := by
    have hnodes : ∀ g : GenericName, g.arguments.map Node.wording =
        (g.argumentList?.map fun list => list.childNodes.map Node.wording).getD [] := by
      intro g
      rw [arguments]
      cases g.argumentList? <;> rfl
    rw [hnodes, hnodes]
    exact congrArg (fun ws : Option (List Wording) => ws.getD [])
      (optionMap_of_map_eq (fun _ _ => Node.childNodes_of_wording)
        (Node.child?_of_wording h .typeArgumentList))
  have htexts := map_of_map_eq (fun _ _ => Node.text_eq_of_wording) hlist
  simp only [GenericName.of?, Node.kind_eq_of_wording h]
  split
  · exact congrArg some htexts
  · rfl

theorem Invocation.map_wording_nameNode? (i : Invocation) :
    i.nameNode?.map Node.wording = i.callee?.bind fun callee =>
      ((MemberAccess.of? callee).map fun access => access.nameNode?.map Node.wording).getD
        (some callee.wording) := by
  rw [nameNode?]
  cases i.callee? with
  | none => rfl
  | some callee =>
    simp only [Option.bind_some]
    cases MemberAccess.of? callee <;> rfl

/-- What a call is made of besides its arguments: two calls with callees of the same wording. -/
theorem Invocation.typeArguments_eq_of_wording {i j : Invocation}
    (h : i.callee?.map Node.wording = j.callee?.map Node.wording) :
    i.typeArguments = j.typeArguments := by
  have hname : i.nameNode?.map Node.wording = j.nameNode?.map Node.wording := by
    rw [map_wording_nameNode?, map_wording_nameNode?]
    refine bind_of_map_eq (fun n m hnm => ?_) h
    simp only [MemberAccess.of?, Node.kind_eq_of_wording hnm]
    cases m.kind == .memberAccessExpression with
    | true => exact Node.childNodes_getElem?_of_wording hnm 1
    | false => exact congrArg some hnm
  have hview : ∀ k : Invocation, k.typeArguments =
      (k.nameNode?.bind fun n => (GenericName.of? n).map fun g => g.arguments.map Node.text).getD
        [] := by
    intro k
    rw [typeArguments, Option.map_bind]
    rfl
  rw [hview, hview, bind_of_map_eq GenericName.factors_arguments hname]

end View

namespace Framework

theorem receiverName?_eq_of_wording {i j : View.Invocation}
    (h : i.callee?.map Node.wording = j.callee?.map Node.wording) :
    receiverName? i = receiverName? j := by
  have hreceiver : i.receiver?.map Node.wording = j.receiver?.map Node.wording := by
    have hview : ∀ k : View.Invocation, k.receiver?.map Node.wording = k.callee?.bind fun callee =>
        ((View.MemberAccess.of? callee).bind View.MemberAccess.expression?).map Node.wording := by
      intro k
      rw [View.Invocation.receiver?, Option.bind_assoc, Option.map_bind]
      rfl
    rw [hview, hview]
    refine bind_of_map_eq (fun n m hnm => ?_) h
    simp only [View.MemberAccess.of?, Node.kind_eq_of_wording hnm]
    cases m.kind == .memberAccessExpression with
    | true => exact Node.head?_childNodes_of_wording hnm
    | false => rfl
  refine bind_of_map_eq (fun n m hnm => ?_) hreceiver
  have hkind := Node.kind_eq_of_wording hnm
  have hidentifier := Node.identifier?_eq_of_wording hnm
  simp only [hkind, hidentifier]
  split
  · rfl
  · exact bind_of_map_eq (fun _ _ => Node.identifier?_eq_of_wording)
      (Node.childNodes_getElem?_of_wording hnm 1)
  · rfl

theorem isStringLiteral_eq_of_wording {n m : Node} (h : n.wording = m.wording) :
    isStringLiteral n = isStringLiteral m := by
  have hfirst : (n.firstToken?.map fun t => t.kind == .string || t.kind == .interpolated) =
      m.firstToken?.map fun t => t.kind == .string || t.kind == .interpolated :=
    optionMap_of_map_eq (fun t u htu => by simp only [(Prod.mk.inj htu).1])
      (Node.firstToken?_of_wording h)
  rw [isStringLiteral, isStringLiteral, Node.kind_eq_of_wording h, hfirst]

/-- The texts that a predicate is made from: those of the parameter and of the call in the body. -/
theorem predicateOf?_eq (lambda : Node) : XUnit.predicateOf? lambda =
    if lambda.kind != .simpleLambdaExpression then none else
      ((lambda.child? .parameter).map Node.text).bind fun parameter =>
        (lambda.childNodes.getLast?.bind fun n =>
          (View.Invocation.of? n).map fun i => (i.callee?.map Node.text, i.argumentTexts)).bind
            fun body =>
              if body.1 != some "Assert.True" then none else
                match body.2 with
                | [condition] => some s!"{parameter} => {condition}"
                | _ => none := by
  rw [XUnit.predicateOf?]
  cases lambda.kind != .simpleLambdaExpression with
  | true => rfl
  | false =>
    cases lambda.child? .parameter with
    | none => rfl
    | some parameter =>
      cases lambda.childNodes.getLast? with
      | none => rfl
      | some body =>
        cases hbody : View.Invocation.of? body with
        | none => simp [hbody]
        | some i =>
          simp only [hbody, Option.bind_some, Option.map_some, Bool.false_eq_true, if_false,
            Option.bind_eq_bind, Option.bind_none]
          rfl

theorem predicateOf?_eq_of_wording {n m : Node} (h : n.wording = m.wording) :
    XUnit.predicateOf? n = XUnit.predicateOf? m := by
  have hparameter := optionMap_of_map_eq (fun _ _ => Node.text_eq_of_wording)
    (Node.child?_of_wording h .parameter)
  have hfactors : Function.FactorsThrough (fun n => (View.Invocation.of? n).map fun i =>
      (i.callee?.map Node.text, i.argumentTexts)) Node.wording := by
    intro a b hab
    have hcallee : (View.Invocation.mk a).callee?.map Node.text =
        (View.Invocation.mk b).callee?.map Node.text :=
      optionMap_of_map_eq (fun _ _ => Node.text_eq_of_wording) (Node.head?_childNodes_of_wording hab)
    have htexts := View.Invocation.argumentTexts_eq_of_wording hab
    simp only [View.Invocation.of?, Node.kind_eq_of_wording hab]
    cases b.kind == .invocationExpression with
    | true => exact congrArg some (Prod.ext hcallee htexts)
    | false => rfl
  rw [predicateOf?_eq, predicateOf?_eq, Node.kind_eq_of_wording h, hparameter,
    bind_of_map_eq hfactors (Node.getLast?_childNodes_of_wording h)]

/-! ## Chains -/

theorem Link.ofName?_of_genericName {n : Node} (h : n.kind = .genericName) :
    Link.ofName? n = n.identifier?.bind fun name =>
      ((View.GenericName.of? n).map fun g => g.arguments.map Node.text).map fun types =>
        { name, typeArguments := types } := by
  simp only [ofName?, h]
  cases n.identifier? <;> cases View.GenericName.of? n <;> rfl

theorem Link.ofName?_eq_of_wording {n m : Node} (h : n.wording = m.wording) :
    Link.ofName? n = Link.ofName? m := by
  have hkind := Node.kind_eq_of_wording h
  by_cases hgeneric : m.kind = .genericName
  · have htypes := View.GenericName.factors_arguments h
    dsimp only at htypes
    rw [ofName?_of_genericName (hkind.trans hgeneric), ofName?_of_genericName hgeneric,
      Node.identifier?_eq_of_wording h, htypes]
  · rw [ofName?, ofName?, hkind]
    split
    · rw [Node.identifier?_eq_of_wording h]
    · contradiction
    · rfl

namespace Chain

variable {n m : Node} (bound : Nat)

theorem within?_of_memberAccess (h : n.kind = .memberAccessExpression) :
    within? (bound + 1) n = (n.childNodes.head?.bind (within? bound)).bind fun links =>
      (n.childNodes[1]?.bind Link.ofName?).map fun link => links ++ [link] := by
  simp only [within?, h]
  rcases n.childNodes with _ | ⟨left, _ | ⟨name, rest⟩⟩
  · rfl
  · simp
  · cases hleft : within? bound left with
    | none => simp [hleft]
    | some links => cases hname : Link.ofName? name <;> simp [hleft, hname]

theorem within?_of_invocation (h : n.kind = .invocationExpression) :
    within? (bound + 1) n = ((View.Invocation.mk n).callee?.bind (within? bound)).bind
      (called? (View.Invocation.mk n).argumentTexts) := by
  simp only [within?, h, View.Invocation.of?]
  exact (Option.bind_assoc _ _ _).symm

theorem within?_eq_of_wording (h : n.wording = m.wording) : within? bound n = within? bound m := by
  induction bound generalizing n m with
  | zero => rfl
  | succ bound ih =>
    have hkind := Node.kind_eq_of_wording h
    by_cases haccess : m.kind = .memberAccessExpression
    · rw [within?_of_memberAccess _ (hkind.trans haccess), within?_of_memberAccess _ haccess,
        bind_of_map_eq (fun _ _ => ih) (Node.head?_childNodes_of_wording h),
        bind_of_map_eq (fun _ _ => Link.ofName?_eq_of_wording)
          (Node.childNodes_getElem?_of_wording h 1)]
    by_cases hcall : m.kind = .invocationExpression
    · have hcallee : (View.Invocation.mk n).callee?.bind (within? bound) =
          (View.Invocation.mk m).callee?.bind (within? bound) :=
        bind_of_map_eq (fun _ _ => ih) (Node.head?_childNodes_of_wording h)
      rw [within?_of_invocation _ (hkind.trans hcall), within?_of_invocation _ hcall, hcallee,
        View.Invocation.argumentTexts_eq_of_wording h]
    rw [within?, within?, hkind, Link.ofName?_eq_of_wording h]
    split <;> first | rfl | contradiction

end Chain

theorem Check.of?_eq_of_wording {n m : Node} (h : n.wording = m.wording) :
    Check.of? n = Check.of? m := by
  rw [Check.of?, Check.of?, Chain.of?, Chain.of?, Node.size_eq_of_wording h,
    Chain.within?_eq_of_wording _ h]

end Framework

end Recast
