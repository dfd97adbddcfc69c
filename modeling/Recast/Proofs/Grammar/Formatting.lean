-- SUMMARY: Parsers look at the words and marks ahead of them and at a few gaps between marks, at nothing else: the calculus of agreement for the grammar's combinators.
import Recast.Grammar.Cursor

/-! # Formatting

Two runs of tokens are the same writing when they have the same kinds and texts, and the same gaps
where a gap tells two readings apart. Two parsers *agree* when, on the same writing, both refuse or
both read constructs of the same shape. All combinators preserve agreement, so a production agrees
with itself as soon as the productions in it do. The lemmas are stated for two parsers because some
productions are given parts that were read before, which have the same shape but are not the same. -/

namespace Recast

/-! ## Shapes -/

/-- A construct without its formatting: how kinds of nodes nest, and the texts of tokens. -/
inductive Shape where
  | token (text : String)
  | node (kind : Kind) (parts : List Shape)

mutual

def Shape.decEq : (s t : Shape) → Decidable (s = t)
  | .token a, .token b =>
    if h : a = b then isTrue (h ▸ rfl) else isFalse fun heq => h (Shape.token.inj heq)
  | .node k xs, .node l ys =>
    if h : k = l then
      match Shape.decEqAll xs ys with
      | isTrue hparts => isTrue (by rw [h, hparts])
      | isFalse hparts => isFalse fun heq => hparts (Shape.node.inj heq).2
    else isFalse fun heq => h (Shape.node.inj heq).1
  | .token _, .node _ _ => isFalse nofun
  | .node _ _, .token _ => isFalse nofun

def Shape.decEqAll : (xs ys : List Shape) → Decidable (xs = ys)
  | [], [] => isTrue rfl
  | [], _ :: _ => isFalse nofun
  | _ :: _, [] => isFalse nofun
  | x :: xs, y :: ys =>
    match Shape.decEq x y, Shape.decEqAll xs ys with
    | isTrue hx, isTrue hxs => isTrue (by rw [hx, hxs])
    | isFalse hx, _ => isFalse fun heq => hx (List.cons.inj heq).1
    | _, isFalse hxs => isFalse fun heq => hxs (List.cons.inj heq).2

end

instance : DecidableEq Shape := Shape.decEq

mutual

def Node.shape : Node → Shape
  | ⟨kind, children, _, _⟩ => .node kind (Element.shapesIn children)

def Element.shape : Element → Shape
  | .token t => .token t.text
  | .node n => n.shape

def Element.shapesIn : List Element → List Shape
  | [] => []
  | e :: es => e.shape :: Element.shapesIn es

end

namespace Element

@[simp] theorem shapesIn_nil : shapesIn [] = [] := rfl

@[simp] theorem shapesIn_cons (e : Element) (es : List Element) :
    shapesIn (e :: es) = e.shape :: shapesIn es := rfl

theorem shapesIn_eq_map (es : List Element) : shapesIn es = es.map shape := by
  induction es with
  | nil => rfl
  | cons e es ih => simp [ih]

@[simp] theorem shapesIn_append (xs ys : List Element) :
    shapesIn (xs ++ ys) = shapesIn xs ++ shapesIn ys := by
  simp [shapesIn_eq_map]

theorem length_shapesIn (es : List Element) : (shapesIn es).length = es.length := by
  simp [shapesIn_eq_map]

@[simp] theorem shape_token (t : Token) : (Element.token t).shape = .token t.text := rfl

@[simp] theorem shape_node (n : Node) : (Element.node n).shape = n.shape := rfl

end Element

theorem Node.shape_eq (n : Node) : n.shape = .node n.kind (Element.shapesIn n.children) := by
  obtain ⟨kind, children, span, tags⟩ := n
  rfl

@[simp] theorem Node.shape_ofChildren (kind : Kind) (parts : List Element) :
    (Node.ofChildren kind parts).shape = .node kind (Element.shapesIn parts) := rfl

theorem Node.kind_eq_of_shape {n m : Node} (h : n.shape = m.shape) : n.kind = m.kind := by
  rw [shape_eq, shape_eq] at h
  exact (Shape.node.inj h).1

theorem Node.shapesIn_children {n m : Node} (h : n.shape = m.shape) :
    Element.shapesIn n.children = Element.shapesIn m.children := by
  rw [shape_eq, shape_eq] at h
  exact (Shape.node.inj h).2

/-! ## The same writing -/

namespace Token

/-- The same lexeme, whatever stands around it. -/
structure SameWord (t u : Token) : Prop where
  kind_eq : t.kind = u.kind
  text_eq : t.text = u.text

/-- Marks that are read in one way with a gap between them and in another without. -/
def gapMatters (t u : Token) : Bool :=
  (t.text == ">" && (u.text == ">" || u.text == ">=")) || (t.text == "?" && u.text == "[")

/-- The same lexemes with the same gaps, where gaps matter. -/
inductive SameWriting : List Token → List Token → Prop where
  | nil : SameWriting [] []
  | single {t u : Token} (word : t.SameWord u) : SameWriting [t] [u]
  | cons {t t' u u' : Token} {ts us : List Token} (word : t.SameWord u)
      (gap : t.gapMatters t' = true → t.adjacent t' = u.adjacent u')
      (rest : SameWriting (t' :: ts) (u' :: us)) : SameWriting (t :: t' :: ts) (u :: u' :: us)

namespace SameWord

variable {t u : Token} (h : t.SameWord u)

include h

theorem is_eq (text : String) : t.is text = u.is text := by
  simp only [is, isWord, h.kind_eq, h.text_eq]

theorem isWord_eq : t.isWord = u.isWord := by
  simp only [isWord, h.kind_eq]

theorem isLiteral_eq : t.isLiteral = u.isLiteral := by
  simp only [isLiteral, h.kind_eq]

theorem isName_eq (text : String) : t.isName text = u.isName text := by
  simp only [isName, h.kind_eq, h.text_eq]

end SameWord

namespace SameWriting

variable {ts us : List Token}

theorem length_eq (h : SameWriting ts us) : ts.length = us.length := by
  induction h with
  | nil => rfl
  | single word => rfl
  | cons word gap rest ih => simpa using ih

theorem tail {t u : Token} (h : SameWriting (t :: ts) (u :: us)) : SameWriting ts us := by
  cases h with
  | single word => exact .nil
  | cons word gap rest => exact rest

theorem head {t u : Token} (h : SameWriting (t :: ts) (u :: us)) : t.SameWord u := by
  cases h with
  | single word => exact word
  | cons word gap rest => exact word

/-- The first of a writing, or both at the end. -/
theorem cases_head (h : SameWriting ts us) : (ts = [] ∧ us = []) ∨
    ∃ t u ts' us', ts = t :: ts' ∧ us = u :: us' ∧ t.SameWord u ∧ SameWriting ts' us' := by
  cases h with
  | nil => exact .inl ⟨rfl, rfl⟩
  | single word => exact .inr ⟨_, _, _, _, rfl, rfl, word, .nil⟩
  | cons word gap rest => exact .inr ⟨_, _, _, _, rfl, rfl, word, rest⟩

theorem drop (h : SameWriting ts us) (n : Nat) : SameWriting (ts.drop n) (us.drop n) := by
  induction n generalizing ts us with
  | zero => exact h
  | succ n ih =>
    rcases h.cases_head with ⟨rfl, rfl⟩ | ⟨t, u, ts', us', rfl, rfl, -, hrest⟩
    · exact .nil
    · exact ih hrest

theorem getD {a b : Token} (h : SameWriting ts us) (hab : a.SameWord b) (n : Nat) :
    (ts.getD n a).SameWord (us.getD n b) := by
  induction n generalizing ts us with
  | zero =>
    rcases h.cases_head with ⟨rfl, rfl⟩ | ⟨t, u, ts', us', rfl, rfl, hword, -⟩
    · exact hab
    · exact hword
  | succ n ih =>
    rcases h.cases_head with ⟨rfl, rfl⟩ | ⟨t, u, ts', us', rfl, rfl, -, hrest⟩
    · exact hab
    · exact ih hrest

end SameWriting

end Token

/-! ## Cursors -/

namespace Cursor

/-- Cursors in front of the same writing. -/
structure Like (c d : Cursor) : Prop where
  ahead : Token.SameWriting c.ahead d.ahead
  finish : c.finish.SameWord d.finish
  ended : c.finish.kind = .endOfFile

/-- A test that formatting does not decide. -/
def Uniform {α : Type} (test : Cursor → α) : Prop :=
  ∀ c d : Cursor, c.Like d → test c = test d

namespace Like

variable {c d : Cursor} (h : c.Like d)

include h

theorem length_eq : c.ahead.length = d.ahead.length :=
  h.ahead.length_eq

theorem nth (n : Nat) : (c.nth n).SameWord (d.nth n) :=
  h.ahead.getD h.finish n

theorem current : c.current.SameWord d.current :=
  h.nth 0

theorem withAhead {ts us : List Token} (hrest : Token.SameWriting ts us) :
    Like { c with ahead := ts } { d with ahead := us } :=
  ⟨hrest, h.finish, h.ended⟩

end Like

@[simp] theorem uniform_const {α : Type} (a : α) : Uniform fun _ => a := fun _ _ _ => rfl

@[simp] theorem uniform_sees (text : String) : Uniform (sees text) := fun _ _ h =>
  h.current.is_eq text

@[simp] theorem uniform_seesAt (n : Nat) (text : String) : Uniform (seesAt n text) := fun _ _ h =>
  (h.nth n).is_eq text

@[simp] theorem uniform_seesAny (texts : List String) : Uniform (seesAny texts) := fun c d h => by
  have hfun : c.current.is = d.current.is := funext h.current.is_eq
  rw [seesAny, seesAny, hfun]

@[simp] theorem uniform_atName : Uniform atName := fun c d h => by
  rw [atName, atName, h.current.kind_eq]

@[simp] theorem uniform_atEnd : Uniform atEnd := fun c d h => by
  rw [atEnd, atEnd, Bool.eq_iff_iff, List.isEmpty_iff_length_eq_zero,
    List.isEmpty_iff_length_eq_zero, h.length_eq]

@[simp] theorem uniform_kind (n : Nat) : Uniform fun c => (c.nth n).kind := fun _ _ h =>
  (h.nth n).kind_eq

@[simp] theorem uniform_currentKind : Uniform fun c => c.current.kind := fun _ _ h =>
  h.current.kind_eq

@[simp] theorem uniform_isWord (n : Nat) : Uniform fun c => (c.nth n).isWord := fun _ _ h =>
  (h.nth n).isWord_eq

@[simp] theorem uniform_currentIsWord : Uniform fun c => c.current.isWord := fun _ _ h =>
  h.current.isWord_eq

@[simp] theorem uniform_isLiteral : Uniform fun c => c.current.isLiteral := fun _ _ h =>
  h.current.isLiteral_eq

@[simp] theorem uniform_isName (text : String) : Uniform fun c => c.current.isName text :=
  fun _ _ h => h.current.isName_eq text

@[simp] theorem uniform_not {test : Cursor → Bool} (h : Uniform test) :
    Uniform fun c => !test c := fun c d hlike => by
  simp only [h c d hlike]

@[simp] theorem uniform_and {s t : Cursor → Bool} (hs : Uniform s) (ht : Uniform t) :
    Uniform fun c => s c && t c := fun c d hlike => by
  simp only [hs c d hlike, ht c d hlike]

@[simp] theorem uniform_or {s t : Cursor → Bool} (hs : Uniform s) (ht : Uniform t) :
    Uniform fun c => s c || t c := fun c d hlike => by
  simp only [hs c d hlike, ht c d hlike]

@[simp] theorem uniform_beq {α : Type} [BEq α] {f : Cursor → α} (hf : Uniform f) (a : α) :
    Uniform fun c => f c == a := fun c d hlike => by
  simp only [hf c d hlike]

@[simp] theorem uniform_atNameThen (text : String) : Uniform (atNameThen text) := by
  unfold atNameThen
  simp

@[simp] theorem uniform_atBracket : Uniform atBracket := by
  unfold atBracket
  simp

@[simp] theorem uniform_atBodyEnd : Uniform atBodyEnd := by
  unfold atBodyEnd
  simp

theorem is_eq_false {t : Token} (h : t.kind = .endOfFile) (text : String) : t.is text = false := by
  simp [Token.is, Token.isWord, h]

/-- Two marks without a gap, for marks between which gaps matter. -/
theorem uniform_glued {x y : String}
    (hmatters : ∀ t u : Token, t.text = x → u.text = y → t.gapMatters u = true) :
    Uniform fun c => c.sees x && c.seesAt 1 y && c.current.adjacent (c.nth 1) := by
  intro c d h
  have hx := uniform_sees x c d h
  have hy := uniform_seesAt 1 y c d h
  dsimp only
  rw [← hx, ← hy]
  by_cases hboth : (c.sees x && c.seesAt 1 y) = true
  · rw [hboth, Bool.true_and, Bool.true_and]
    obtain ⟨hsees, hseesAt⟩ := Bool.and_eq_true_iff.1 hboth
    obtain ⟨cs, cfinish⟩ := c
    obtain ⟨ds, dfinish⟩ := d
    -- Both marks stand ahead of the cursor, for neither is the token that ends the text.
    cases h.ahead with
    | nil =>
      have hend : cfinish.is x = true := hsees
      rw [is_eq_false h.ended] at hend
      cases hend
    | single word =>
      have hend : cfinish.is y = true := hseesAt
      rw [is_eq_false h.ended] at hend
      cases hend
    | cons word gap rest =>
      refine gap (hmatters _ _ ?_ ?_)
      · exact eq_of_beq (Bool.and_eq_true_iff.1 hsees).1
      · exact eq_of_beq (Bool.and_eq_true_iff.1 hseesAt).1
  · rw [Bool.not_eq_true] at hboth
    rw [hboth, Bool.false_and, Bool.false_and]

end Cursor

/-! ## Agreement -/

namespace Parser

variable {α β γ δ : Type}

/-- Two results that look the same: two refusals, or what is read looks the same and so does what is
    ahead. -/
inductive SameResult (view : α → β) :
    Except ParseError (α × Cursor) → Except ParseError (α × Cursor) → Prop where
  | refused (e e' : ParseError) : SameResult view (.error e) (.error e')
  | read {a b : α} {c d : Cursor} (value : view a = view b) (cursor : c.Like d) :
      SameResult view (.ok (a, c)) (.ok (b, d))

/-- Parsers that, on the same writing, both refuse or read what looks the same. -/
def Agree (view : α → β) (p q : Parser α) : Prop :=
  ∀ c d : Cursor, c.Like d → SameResult view (p c) (q d)

theorem agree_fail (view : α → β) (what : String) : Agree view (fail what) (fail what) :=
  fun _ _ _ => .refused _ _

theorem agree_pure {view : α → β} {a b : α} (h : view a = view b) :
    Agree view (pure a) (pure b) :=
  fun _ _ hlike => .read h hlike

/-- A parser that looks at the cursor before it reads. -/
theorem agree_get {view : α → β} {k l : Cursor → Parser α}
    (h : ∀ c d, c.Like d → SameResult view (k c c) (l d d)) :
    Agree view (get >>= k) (get >>= l) :=
  fun c d hlike => h c d hlike

/-- A choice that the cursor decides. -/
theorem agree_ite {view : α → β} {test : Cursor → Bool} {p p' q q' : Parser α}
    (htest : Cursor.Uniform test) (hp : Agree view p p') (hq : Agree view q q') :
    Agree view (fun c => if test c then p c else q c) (fun c => if test c then p' c else q' c) := by
  intro c d hlike
  dsimp only
  rw [htest c d hlike]
  split
  · exact hp c d hlike
  · exact hq c d hlike

/-- A loop whose bound is read off the cursor. -/
theorem agree_bounded {view : α → β} {p q : Nat → Parser α}
    (h : ∀ bound, Agree view (p bound) (q bound)) :
    Agree view (fun c => p (c.ahead.length + 1) c) (fun c => q (c.ahead.length + 1) c) := by
  intro c d hlike
  dsimp only
  rw [hlike.length_eq]
  exact h _ c d hlike

namespace Agree

theorem bind {view : α → β} {view' : γ → δ} {p q : Parser α} {k l : α → Parser γ}
    (h : Agree view p q) (hk : ∀ a b, view a = view b → Agree view' (k a) (l b)) :
    Agree view' (p >>= k) (q >>= l) := by
  intro c d hlike
  have hresult := h c d hlike
  show SameResult view' ((p c) >>= fun x => k x.1 x.2) ((q d) >>= fun x => l x.1 x.2)
  generalize p c = x at hresult
  generalize q d = y at hresult
  cases hresult with
  | refused e e' => exact .refused e e'
  | read value cursor => exact hk _ _ value _ _ cursor

theorem map {view : α → β} {view' : γ → δ} {p q : Parser α} {f : α → γ} (h : Agree view p q)
    (hf : ∀ a b, view a = view b → view' (f a) = view' (f b)) :
    Agree view' (f <$> p) (f <$> q) := by
  intro c d hlike
  have hresult := h c d hlike
  show SameResult view' ((p c) >>= fun x => pure (f x.1, x.2)) ((q d) >>= fun x => pure (f x.1, x.2))
  generalize p c = x at hresult
  generalize q d = y at hresult
  cases hresult with
  | refused e e' => exact .refused e e'
  | read value cursor => exact .read (hf _ _ value) cursor

section Choice

variable {view : α → β} {test : Cursor → Bool} {p p' q q' : Parser α}

theorem ifAt (hp : Agree view p p') (hq : Agree view q q') (htest : Cursor.Uniform test) :
    Agree view (Parser.ifAt test p q) (Parser.ifAt test p' q') :=
  agree_ite htest hp hq

theorem orElse (hp : Agree view p p') (hq : Agree view q q') :
    Agree view (Parser.orElse p q) (Parser.orElse p' q') := by
  intro c d hlike
  have hresult := hp c d hlike
  rw [Parser.orElse, Parser.orElse]
  generalize p c = x at hresult
  generalize p' d = y at hresult
  cases hresult with
  | refused e e' => exact hq c d hlike
  | read value cursor => exact .read value cursor

theorem recover (hp : Agree view p p') (hq : Agree view q q') :
    Agree view (Parser.recover p q) (Parser.recover p' q') := by
  intro c d hlike
  have hresult := hp c d hlike
  have hother := hq c d hlike
  rw [Parser.recover, Parser.recover]
  generalize p c = x at hresult
  generalize p' d = y at hresult
  generalize q c = z at hother
  generalize q' d = w at hother
  cases hresult with
  | refused e e' =>
    cases hother with
    | refused _ _ => exact .refused e e'
    | read value cursor => exact .read value cursor
  | read value cursor => exact .read value cursor

/-- Where a parser leads is told alike from either cursor. -/
theorem leadsTo (hp : Agree view p p) (htest : Cursor.Uniform test) :
    Cursor.Uniform (p.leadsTo test) := by
  intro c d hlike
  have hresult := hp c d hlike
  rw [Parser.leadsTo, Parser.leadsTo]
  generalize p c = x at hresult
  generalize p d = y at hresult
  cases hresult with
  | refused e e' => rfl
  | read value cursor => exact htest _ _ cursor

end Choice

end Agree

/-! ## Pieces -/

/-- Pieces that read parts of the same shape. -/
abbrev AgreeParts (p q : Piece) : Prop :=
  Agree Element.shapesIn p q

/-- Parsers that read nodes of the same shape. -/
abbrev AgreeNode (p q : Parser Node) : Prop :=
  Agree Node.shape p q

/-- A parser that formatting does not lead astray. -/
abbrev Steady (p : Parser Node) : Prop :=
  AgreeNode p p

theorem agree_given {xs ys : List Element} (h : Element.shapesIn xs = Element.shapesIn ys) :
    AgreeParts (given xs) (given ys) :=
  agree_pure h

theorem agree_nothing : AgreeParts (fun c => .ok ([], c)) (fun c => .ok ([], c)) :=
  agree_given rfl

theorem agree_token : AgreeParts token token := by
  have hbump : Agree Token.text bump bump := by
    intro c d hlike
    rw [bump, bump]
    rcases hlike.ahead.cases_head with ⟨hc, hd⟩ | ⟨t, u, ts, us, hc, hd, hword, hrest⟩
    · rw [hc, hd]
      exact .read hlike.finish.text_eq hlike
    · rw [hc, hd]
      exact .read hword.text_eq (hlike.withAhead hrest)
  exact hbump.bind fun a b hab => agree_pure (by simp [hab])

/-- A piece behind a test, with a refusal when it fails. -/
theorem agree_guarded {test : Cursor → Bool} {p q : Piece} {refusal : Cursor → ParseError}
    (htest : Cursor.Uniform test) (h : AgreeParts p q) :
    AgreeParts (fun c => if test c then p c else .error (refusal c))
      (fun c => if test c then q c else .error (refusal c)) :=
  agree_ite htest h fun _ _ _ => .refused _ _

theorem agree_mark (text : String) : AgreeParts (mark text) (mark text) :=
  agree_guarded (Cursor.uniform_sees text) agree_token

theorem agree_name : AgreeParts name name :=
  agree_guarded Cursor.uniform_atName agree_token

theorem agree_check {test : Cursor → Bool} (htest : Cursor.Uniform test) (what : String) :
    AgreeParts (check test what) (check test what) :=
  agree_guarded htest agree_nothing

namespace Agree

variable {p p' q q' : Piece}

theorem append (hp : AgreeParts p p') (hq : AgreeParts q q') : AgreeParts (p ++ q) (p' ++ q') := by
  refine hp.bind fun a b hab => hq.bind fun a' b' hab' => agree_pure ?_
  rw [Element.shapesIn_append, Element.shapesIn_append, hab, hab']

theorem one {p q : Parser Node} (h : AgreeNode p q) : AgreeParts (one p) (one q) :=
  h.bind fun a b hab => agree_pure (by simp [hab])

theorem build {kind : Kind} (h : AgreeParts p q) : AgreeNode (build kind p) (build kind q) :=
  h.bind fun a b hab => agree_pure (by simp [hab])

theorem whenAt {test : Cursor → Bool} (h : AgreeParts p q) (htest : Cursor.Uniform test) :
    AgreeParts (whenAt test p) (whenAt test q) :=
  h.ifAt (agree_given rfl) htest

theorem followedBy {view : α → β} {p q : Parser α} {test : Cursor → Bool} {what : String}
    (hp : Agree view p q) (htest : Cursor.Uniform test) :
    Agree view (p.followedBy test what) (q.followedBy test what) :=
  hp.bind fun _ _ hab => (agree_check htest what).bind fun _ _ _ => agree_pure hab

/-! ## Repetition -/

theorem rounds {test : Cursor → Bool} (h : AgreeParts p q) (htest : Cursor.Uniform test)
    (bound : Nat) : AgreeParts (rounds test p bound) (rounds test q bound) := by
  induction bound with
  | zero => exact agree_given rfl
  | succ bound ih => exact agree_ite htest (h.append ih) agree_nothing

theorem repeatWhile {test : Cursor → Bool} (h : AgreeParts p q) (htest : Cursor.Uniform test) :
    AgreeParts (repeatWhile test p) (repeatWhile test q) :=
  agree_bounded (h.rounds htest)

theorem commaList (h : AgreeParts p q) : AgreeParts (commaList p) (commaList q) :=
  h.append ((agree_token.append h).repeatWhile (Cursor.uniform_sees ","))

theorem itemsBefore (h : AgreeParts p q) (close : String) (bound : Nat) :
    AgreeParts (itemsBefore close p bound) (itemsBefore close q bound) := by
  induction bound with
  | zero => exact agree_given rfl
  | succ bound ih =>
    exact agree_ite (Cursor.uniform_sees close) agree_nothing
      (h.append ((agree_token.append ih).whenAt (Cursor.uniform_sees ",")))

theorem openList {close : String} (h : AgreeParts p q) :
    AgreeParts (openList close p) (openList close q) :=
  agree_bounded (h.itemsBefore close)

theorem bracketed {opening close : String} (h : AgreeParts p q) :
    AgreeParts (bracketed opening close p) (bracketed opening close q) :=
  ((agree_mark opening).append (h.commaList.whenAt (by simp))).append (agree_mark close)

end Agree

theorem agree_take (n : Nat) : AgreeParts (take n) (take n) := by
  induction n with
  | zero => exact agree_given rfl
  | succ n ih => exact agree_token.append ih

/-! ## Extensions -/

/-- What goes on after a first part is told alike: nothing, or the same kind of whole. -/
inductive SameExtension : Option (Kind × Piece) → Option (Kind × Piece) → Prop where
  | none : SameExtension none none
  | some {kind : Kind} {p q : Piece} (rest : AgreeParts p q) :
      SameExtension (some (kind, p)) (some (kind, q))

/-- An extension that formatting does not decide. -/
def SteadyExtension (next : Extension) : Prop :=
  ∀ c d : Cursor, c.Like d → SameExtension (next c) (next d)

theorem SteadyExtension.extend {next : Extension} (h : SteadyExtension next) {n m : Node}
    (hshape : n.shape = m.shape) :
    Agree (Option.map Node.shape) (extend next n) (extend next m) := by
  intro c d hlike
  have hnext := h c d hlike
  rw [Parser.extend, Parser.extend]
  generalize next c = x at hnext
  generalize next d = y at hnext
  cases hnext with
  | none => exact .read rfl hlike
  | @some kind p q rest =>
    have hgiven : AgreeParts (given [.node n]) (given [.node m]) := agree_given (by simp [hshape])
    have hbuild : AgreeNode (build kind (given [.node n] ++ p)) (build kind (given [.node m] ++ q)) :=
      (hgiven.append rest).build
    have hsome : ∀ a b : Node, a.shape = b.shape →
        Agree (Option.map Node.shape) (pure (some a)) (pure (some b)) :=
      fun a b hab => agree_pure (congrArg some hab)
    exact hbuild.bind hsome c d hlike

theorem SteadyExtension.growths {next : Extension} (h : SteadyExtension next) (bound : Nat)
    {n m : Node} (hshape : n.shape = m.shape) :
    AgreeNode (growths next bound n) (growths next bound m) := by
  induction bound generalizing n m with
  | zero => exact agree_pure hshape
  | succ bound ih =>
    refine (h.extend hshape).bind fun a b hab => ?_
    cases a with
    | none =>
      cases b with
      | none => exact agree_pure hshape
      | some b => cases hab
    | some a =>
      cases b with
      | none => cases hab
      | some b => exact ih (Option.some.inj hab)

theorem SteadyExtension.grow {next : Extension} (h : SteadyExtension next) {first : Parser Node}
    (hfirst : Steady first) : Steady (grow next first) := by
  refine hfirst.bind fun a b hab => agree_get fun c d hlike => ?_
  rw [hlike.length_eq]
  exact h.growths _ hab c d hlike

theorem SteadyExtension.growOnce {next : Extension} (h : SteadyExtension next)
    {first : Parser Node} (hfirst : Steady first) : Steady (growOnce next first) := by
  refine hfirst.bind fun a b hab => (h.extend hab).bind fun x y hxy => agree_pure ?_
  cases x with
  | none =>
    cases y with
    | none => exact hab
    | some y => cases hxy
  | some x =>
    cases y with
    | none => cases hxy
    | some y => exact Option.some.inj hxy

/-! ## Bracket groups -/

theorem opens_eq {t u : Token} (h : t.SameWord u) : opens t = opens u := by
  simp only [opens, h.is_eq]

theorem closes_eq {t u : Token} (h : t.SameWord u) : closes t = closes u := by
  simp only [closes, h.is_eq]

/-- Two splits at a closing bracket: the groups have the same texts, the rests are the same
    writing. -/
inductive SameSplit : Option (List Token × List Token) → Option (List Token × List Token) → Prop where
  | none : SameSplit none none
  | some {group group' rest rest' : List Token} (texts : group.map Token.text = group'.map Token.text)
      (writing : Token.SameWriting rest rest') : SameSplit (some (group, rest)) (some (group', rest'))

theorem SameSplit.cons {x y : Option (List Token × List Token)} {t u : Token} (h : SameSplit x y)
    (hword : t.SameWord u) : SameSplit (x.map fun (group, rest) => (t :: group, rest))
      (y.map fun (group, rest) => (u :: group, rest)) := by
  cases h with
  | none => exact .none
  | some texts writing => exact .some (by simp [hword.text_eq, texts]) writing

theorem sameSplit_splitGroup {ts us : List Token} (h : Token.SameWriting ts us) (depth : Nat) :
    SameSplit (splitGroup depth ts) (splitGroup depth us) := by
  induction ts generalizing us depth with
  | nil =>
    rcases h.cases_head with ⟨-, rfl⟩ | ⟨t, u, ts', us', hts, -⟩
    · exact .none
    · cases hts
  | cons t ts ih =>
    rcases h.cases_head with ⟨hts, -⟩ | ⟨t', u, ts', us', hts, rfl, hword, hrest⟩
    · cases hts
    · obtain ⟨rfl, rfl⟩ := List.cons.inj hts
      have honward := fun depth => (ih hrest depth).cons hword
      simp only [splitGroup, opens_eq hword, closes_eq hword]
      split
      · exact honward (depth + 1)
      · split
        · split
          · exact .none
          · exact .some (by simp [hword.text_eq]) hrest
          · exact honward _
        · exact honward depth

theorem arrowAfter_eq {ts us : List Token} (h : Token.SameWriting ts us) (depth : Nat) :
    arrowAfter depth ts = arrowAfter depth us := by
  induction ts generalizing us depth with
  | nil =>
    rcases h.cases_head with ⟨-, rfl⟩ | ⟨t, u, ts', us', hts, -⟩
    · rfl
    · cases hts
  | cons t ts ih =>
    rcases h.cases_head with ⟨hts, -⟩ | ⟨t', u, ts', us', hts, rfl, hword, hrest⟩
    · cases hts
    · obtain ⟨rfl, rfl⟩ := List.cons.inj hts
      have hhead : (ts.head?.map (·.is "=>")) = (us'.head?.map (·.is "=>")) := by
        rcases hrest.cases_head with ⟨rfl, rfl⟩ | ⟨a, b, as, bs, rfl, rfl, hab, -⟩
        · rfl
        · simp [hab.is_eq]
      simp only [arrowAfter, opens_eq hword, closes_eq hword, hword.is_eq, ih hrest, hhead]

theorem shapesIn_tokens {ts us : List Token} (h : ts.map Token.text = us.map Token.text) :
    Element.shapesIn (ts.map .token) = Element.shapesIn (us.map .token) := by
  have hshapes : ∀ xs : List Token,
      Element.shapesIn (xs.map .token) = (xs.map Token.text).map Shape.token := by
    intro xs
    induction xs with
    | nil => rfl
    | cons x xs ih => simp [ih]
  rw [hshapes, hshapes, h]

theorem agree_group : AgreeParts group group := by
  intro c d hlike
  have hsplit := sameSplit_splitGroup hlike.ahead 0
  rw [group, group]
  generalize splitGroup 0 c.ahead = x at hsplit
  generalize splitGroup 0 d.ahead = y at hsplit
  cases hsplit with
  | none => exact .refused _ _
  | some texts writing => exact .read (shapesIn_tokens texts) (hlike.withAhead writing)

theorem steady_rawGroup : Steady rawGroup :=
  agree_group.build

theorem agree_rawRounds (bound : Nat) (fresh : Bool) :
    AgreeParts (rawRounds bound fresh) (rawRounds bound fresh) := by
  induction bound generalizing fresh with
  | zero => exact agree_given rfl
  | succ bound ih =>
    have hclosed : AgreeParts
        (fun c => if fresh then .error (c.refusal "member") else .ok ([], c))
        (fun c => if fresh then .error (c.refusal "member") else .ok ([], c)) := by
      intro c d hlike
      dsimp only
      split
      · exact .refused _ _
      · exact .read rfl hlike
    refine agree_ite Cursor.uniform_atEnd agree_nothing ?_
    refine agree_ite (Cursor.uniform_sees _) hclosed ?_
    refine agree_ite (Cursor.uniform_sees _)
      (agree_group.append (agree_token.whenAt (Cursor.uniform_sees _))) ?_
    refine agree_ite Cursor.uniform_atBracket (agree_group.append (ih false)) ?_
    exact agree_ite (Cursor.uniform_sees _) agree_token (agree_token.append (ih false))

theorem steady_rawRun (kind : Kind) : Steady (rawRun kind) := by
  have hrounds := agree_bounded fun bound => agree_rawRounds bound true
  have hempty : AgreeParts (fun c => .error (c.refusal "member"))
      (fun c => .error (c.refusal "member")) := fun _ _ _ => .refused _ _
  exact (agree_ite Cursor.uniform_atEnd hempty hrounds).build

end Parser

end Recast
