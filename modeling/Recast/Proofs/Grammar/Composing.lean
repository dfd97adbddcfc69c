-- SUMMARY: A file is read from its pieces: when each piece by itself is read as a construct, the file is read as those constructs put together.
import Mathlib.Data.List.Infix
import Recast.Proofs.Grammar.Framing

/-! # Reading a file piece by piece

The pieces of a file are its members and statements, and what stands in front of the bodies that
hold them. Whether they are read by themselves as some shape says is a computation
(`Shape.composes`), and from it the whole file is read as that shape. -/

namespace Recast

open Recast.Parser Recast.Cursor

/-! ## Shapes -/

mutual

/-- How many tokens a construct has. -/
def Shape.width : Shape → Nat
  | .token _ => 1
  | .node _ parts => Shape.widthIn parts

def Shape.widthIn : List Shape → Nat
  | [] => 0
  | s :: parts => s.width + Shape.widthIn parts

end

namespace Shape

/-- The parts before and behind the first token with this text. -/
def splitAt? (text : String) : List Shape → Option (List Shape × List Shape)
  | [] => none
  | s :: parts =>
    if s = .token text then some ([], parts)
    else (splitAt? text parts).map fun (before, behind) => (s :: before, behind)

theorem of_splitAt? {text : String} {parts before behind : List Shape}
    (h : splitAt? text parts = some (before, behind)) :
    parts = before ++ .token text :: behind := by
  induction parts generalizing before with
  | nil => cases h
  | cons s parts ih =>
    simp only [splitAt?] at h
    split at h
    · rename_i heq
      obtain ⟨rfl, rfl⟩ := Prod.mk.inj (Option.some.inj h)
      rw [heq, List.nil_append]
    · obtain ⟨⟨before', behind'⟩, hsplit, heq⟩ := Option.map_eq_some_iff.1 h
      obtain ⟨rfl, rfl⟩ := Prod.mk.inj heq
      rw [ih hsplit, List.cons_append]

end Shape

/-! ## Pieces by themselves -/

/-- The cursor behind tokens that nothing stands behind. -/
def Cursor.behind : Cursor := ⟨[], .endOfText [] 0⟩

namespace Token

/-- Tokens that nothing stands behind can be read as a piece. -/
def arePassage (ts : List Token) : Bool :=
  ts.getLast?.any stops && ts.tails.all fun us => match us with
    | [] => true
    | t :: _ => (!t.is "(" || (splitGroup 0 us).any fun split => !split.2.isEmpty) &&
        (Cursor.behind.facing us).readsCast

/-- What starts a piece goes on with no other one, and ends no body. -/
def startPiece : List Token → Bool
  | [] => false
  | t :: _ => !(["else", "catch", "finally", ";", "="].any t.is || t.is closeBrace)

end Token

theorem Passage.of_arePassage {ts : List Token} (h : Token.arePassage ts = true) :
    Passage .behind ts := by
  simp only [Token.arePassage, Bool.and_eq_true] at h
  obtain ⟨hlast, htails⟩ := h
  have hall := List.all_eq_true.1 htails
  refine ⟨?_, fun t us hsuffix hopens => ?_, fun us hsuffix hne => ?_⟩
  · obtain ⟨t, ht, hstops⟩ := (Option.any_eq_true _ _).1 hlast
    obtain ⟨init, rfl⟩ := List.getLast?_eq_some_iff.1 ht
    exact ⟨init, t, rfl, hstops⟩
  · have hcheck := hall _ ((List.mem_tails _ _).2 hsuffix)
    simp only [Bool.and_eq_true, Bool.or_eq_true, hopens, Bool.not_true, Bool.false_eq_true,
      false_or] at hcheck
    obtain ⟨⟨group, rest⟩, hsplit, hrest⟩ := (Option.any_eq_true _ _).1 hcheck.1
    exact ⟨group, rest, hsplit, by simpa using hrest⟩
  · have hcheck := hall _ ((List.mem_tails _ _).2 hsuffix)
    obtain ⟨t, us, rfl⟩ := List.exists_cons_of_ne_nil hne
    simp only [Bool.and_eq_true] at hcheck
    exact hcheck.2

theorem Parser.Onward.eq_behind {α : Type} {p : Parser α} (hp : Onward p) {ts : List Token} {a : α}
    {c : Cursor} (h : p (Cursor.behind.facing ts) = .ok (a, c)) (hend : c.ahead = []) :
    c = .behind := by
  obtain ⟨us, hus⟩ := hp h
  obtain ⟨ahead, finish⟩ := c
  obtain rfl : ahead = [] := hend
  rw [Cursor.behind, ← show Cursor.behind.finish = finish from congrArg Cursor.finish hus]
  rfl

namespace Grammar

/-- The lists of a file that pieces stand in. -/
inductive Entry where
  | scopeMember
  | member
  | statement

namespace Entry

def parser (e : Entry) (g : Grammar) : Parser Node :=
  match e with
  | .scopeMember => g.scopeMember
  | .member => g.member
  | .statement => g.statement

/-- The tokens by themselves are read as this. -/
def readsAlone (e : Entry) (ts : List Token) (s : Shape) : Bool :=
  Token.arePassage ts && s.isKnown &&
    (match e.parser (nesting (ts.length + 1)) (Cursor.behind.facing ts) with
      | .ok (n, c) => n.shape = s && c.atEnd
      | .error _ => false)

theorem finishes {l r : Cursor} {m : Nat} {g h : Grammar} (hg : EchoesBelow l r m g h) (e : Entry) :
    Finishes l r Node.Known m (e.parser g) (e.parser h) :=
  match e with
  | .scopeMember => hg.scopeMember
  | .member => hg.member
  | .statement => hg.statement

/-- What is read by itself is read in front of any tokens that do not go on with it. -/
theorem reads_of_readsAlone {e : Entry} {ts : List Token} {s : Shape} (h : e.readsAlone ts s = true)
    {r : Cursor} (hcalm : r.Calm) {n : Nat} (hn : (r.facing ts).ahead.length < n) :
    ∃ node, e.parser (nesting n) (r.facing ts) = .ok (node, r) ∧ node.shape = s := by
  simp only [readsAlone, Bool.and_eq_true] at h
  obtain ⟨⟨hpassage, hknown⟩, hread⟩ := h
  split at hread
  · rename_i node c hok
    simp only [Bool.and_eq_true, decide_eq_true_eq] at hread
    obtain ⟨rfl, hend⟩ := hread
    have hborders : Borders .behind r := ⟨rfl, rfl, hcalm⟩
    simp only [ahead_facing, List.length_append] at hn
    obtain ⟨k, rfl⟩ : ∃ k, n = k + (ts.length + 1) := ⟨n - (ts.length + 1), by omega⟩
    have hecho := (finishes (echoesBelow_nesting hborders k (ts.length + 1)) e).echoes
    obtain rfl : c = Cursor.behind := hecho.onward.eq_behind hok (by simpa [atEnd] using hend)
    obtain ⟨hq, -⟩ := @hecho.echo ts [] node (.of_arePassage hpassage) (by simp [Cursor.behind]) hok
      hknown fun _ => rfl
    exact ⟨node, hq, rfl⟩
  · cases hread

/-! ## Fronts by themselves -/

/-- A declaration with a body, up to the body. -/
def front (e : Entry) (g : Grammar) : Parser (Kind × List Element) :=
  match e with
  | .scopeMember => fun c =>
    if c.sees "using" || (c.sees "global" && c.seesAt 1 "using") then fail "member" c
    else if c.sees "namespace" then
      (mark "namespace" ++ one (typeName g) >>= fun parts => pure (.namespaceDeclaration, parts)) c
    else if atGlobalAttribute c then fail "member" c
    else memberFront g c
  | .member => memberFront g
  | .statement => fail "member"

/-- A declaration is its front and its body. -/
theorem parser_of_front {e : Entry} {g : Grammar} {c d d' : Cursor} {kind : Kind}
    {parts body : List Element}
    (hfront : e.front g c = .ok ((kind, parts), d)) (hopen : d.sees ";" = false)
    (hbody : bodyOf g kind d = .ok (body, d')) :
    e.parser (deepen g) c = .ok (.ofChildren kind (parts ++ body), d') := by
  cases e with
  | statement => cases hfront
  | member => exact memberOf_of_front hfront hbody
  | scopeMember =>
    simp only [front] at hfront
    show scopeMemberOf g c = _
    simp only [scopeMemberOf]
    split at hfront
    · cases hfront
    rename_i husing
    rw [if_neg husing]
    split at hfront
    · rename_i hnamespace
      rw [if_pos hnamespace, namespaceDeclaration_eq]
      obtain ⟨parts', d₁, hparts, hpure⟩ := bind_eq_ok hfront
      cases hpure
      refine bind_eq hparts ?_
      rw [hopen]
      exact build_eq (append_eq rfl hbody)
    rename_i hnamespace
    rw [if_neg hnamespace]
    split at hfront
    · cases hfront
    rename_i hattribute
    rw [if_neg hattribute]
    exact memberOf_of_front hfront hbody

theorem echoes_front {l r : Cursor} {m : Nat} {g h : Grammar} (hg : EchoesBelow l r m g h)
    (e : Entry) :
    Echoes l r FrontKnown false (m + 1) true (e.front g) (e.front h) := by
  cases e with
  | statement => exact echoes_fail _
  | member => exact echoes_memberFront hg
  | scopeMember =>
    have hglobal : Alike l r fun c => c.sees "global" && c.seesAt 1 "using" :=
      (soft_sees (by decide)).alike_and (alike_sees "global") fun _ _ _ => rfl
    have hnamespace : Echoes l r FrontKnown false (m + 1) true
        (mark "namespace" ++ one (typeName g) >>= fun parts =>
          pure (Kind.namespaceDeclaration, parts)) _ :=
      (echoes_namespaceFront hg).then_pure (fun parts => (Kind.namespaceDeclaration, parts))
        fun _ hknown => hknown
    refine .ite ((alike_sees "using").or hglobal) (echoes_fail _)
      (.ite (alike_sees _) hnamespace ?_)
    exact .ite alike_atGlobalAttribute (echoes_fail _) (echoes_memberFront hg)

/-- The tokens in front of a body, with the mark that opens it, are read by themselves as these
    parts. -/
def readsFront (e : Entry) (kind : Kind) (mark : String) (ts : List Token) (front : List Shape) :
    Bool :=
  Token.arePassage ts && Shape.areKnown front &&
    (match e.front (nesting ts.length) (Cursor.behind.facing ts) with
      | .ok ((kind', parts), c) => kind' = kind && Element.shapesIn parts = front &&
          c.ahead.length = 1 && c.sees mark
      | .error _ => false)

theorem reads_of_readsFront {e : Entry} {kind : Kind} {mark : String} {ts : List Token}
    {front : List Shape} (h : e.readsFront kind mark ts front = true) {r : Cursor} (hcalm : r.Calm)
    {n : Nat} (hn : ts.length ≤ n) :
    ∃ init opening parts, ts = init ++ [opening] ∧ opening.is mark = true ∧
      e.front (nesting n) (r.facing ts) = .ok ((kind, parts), r.facing [opening]) ∧
        Element.shapesIn parts = front := by
  simp only [readsFront, Bool.and_eq_true] at h
  obtain ⟨⟨hpassage, hknown⟩, hread⟩ := h
  split at hread
  · rename_i kind' parts c hok
    simp only [Bool.and_eq_true, decide_eq_true_eq] at hread
    obtain ⟨⟨⟨rfl, rfl⟩, hlength⟩, hopen⟩ := hread
    have hborders : Borders .behind r := ⟨rfl, rfl, hcalm⟩
    obtain ⟨k, rfl⟩ : ∃ k, n = k + ts.length := ⟨n - ts.length, by omega⟩
    have hecho := echoes_front (echoesBelow_nesting hborders k ts.length) e
    obtain ⟨init, hinit⟩ := hecho.onward hok
    obtain ⟨opening, hahead⟩ := List.length_eq_one_iff.1 hlength
    obtain rfl : c = Cursor.behind.facing [opening] := by
      obtain ⟨ahead, finish⟩ := c
      obtain rfl : ahead = [opening] := hahead
      rw [show finish = Cursor.behind.finish from (congrArg Cursor.finish hinit).symm]
      rfl
    rw [facing_facing] at hinit
    obtain ⟨hq, -⟩ :=
      hecho.echo (.of_arePassage hpassage) (by simp [Cursor.behind]) hok hknown nofun
    exact ⟨init, opening, parts, facing_inj hinit, hopen, hq, rfl⟩
  · cases hread

end Entry

end Grammar

/-! ## Items of a body -/

namespace Shape

/-- The tokens, cut up as the items have them, are read as the items. -/
def areRead (reads : List Token → Shape → Bool) : List Shape → List Token → Bool
  | [], _ => true
  | s :: items, ts => Token.startPiece (ts.take s.width) && reads (ts.take s.width) s &&
      areRead reads items (ts.drop s.width)

/-- What closes the body of a declaration, perhaps with a semicolon behind it. -/
def closesBody (kind : Kind) (tail : List Shape) : List Token → Bool
  | [closing] => closing.is Token.closeBrace && tail.isEmpty
  | [closing, semicolon] => closing.is Token.closeBrace && semicolon.is ";" &&
      tail = [.token ";"] && !kind.hasBlock
  | _ => false

/-- A declaration with a body, cut into what is in front of the body, the items in it, and what is
    behind it. -/
def frame? (kind : Kind) (parts : List Shape) : Option (List Shape × List Shape × List Shape) :=
  if kind.hasBlock then
    match parts.getLast? with
    | some (.node .block inside) =>
      match splitAt? Token.openBrace inside with
      | some ([], body) =>
        (splitAt? Token.closeBrace body).map fun (items, tail) => (parts.dropLast, items, tail)
      | _ => none
    | _ => none
  else
    (splitAt? Token.openBrace parts).bind fun (front, body) =>
      (splitAt? Token.closeBrace body).map fun (items, tail) => (front, items, tail)

/-- The parts of a body. -/
def bodyParts (kind : Kind) (items tail : List Shape) : List Shape :=
  let inside := .token Token.openBrace :: (items ++ .token Token.closeBrace :: tail)
  if kind.hasBlock then [.node .block inside] else inside

theorem of_frame? {kind : Kind} {parts front items tail : List Shape}
    (h : frame? kind parts = some (front, items, tail)) :
    parts = front ++ bodyParts kind items tail := by
  simp only [frame?] at h
  split at h
  · rename_i hblock
    split at h
    · rename_i inside hlast
      split at h
      · rename_i body hopen
        obtain ⟨⟨items', tail'⟩, hclose, heq⟩ := Option.map_eq_some_iff.1 h
        cases heq
        obtain ⟨init, rfl⟩ := List.getLast?_eq_some_iff.1 hlast
        rw [bodyParts, if_pos hblock, of_splitAt? hopen, of_splitAt? hclose, List.dropLast_concat,
          List.nil_append]
      · cases h
    · cases h
  · rename_i hblock
    obtain ⟨⟨front', body⟩, hopen, h⟩ := Option.bind_eq_some_iff.1 h
    obtain ⟨⟨items', tail'⟩, hclose, heq⟩ := Option.map_eq_some_iff.1 h
    cases heq
    have hbody := of_splitAt? (show splitAt? _ body = some (items', tail') from hclose)
    rw [bodyParts, if_neg hblock, of_splitAt? hopen, hbody]

/-- What the body of a declaration holds. -/
def inside (kind : Kind) : Grammar.Entry :=
  if kind.hasBlock then .statement
  else if kind == .namespaceDeclaration then .scopeMember
  else .member

/-- The tokens are read as the construct piece by piece, with bodies up to `depth` deep taken
    apart. -/
def composes : (depth : Nat) → Grammar.Entry → List Token → Shape → Bool
  | 0, e, ts, s => e.readsAlone ts s
  | depth + 1, e, ts, s => e.readsAlone ts s || (match s with
      | .token _ => false
      | .node kind parts =>
        match frame? kind parts with
        | none => false
        | some (front, items, tail) =>
          e.readsFront kind Token.openBrace (ts.take (widthIn front + 1)) front &&
            areRead (composes depth (inside kind)) items (ts.drop (widthIn front + 1)) &&
              closesBody kind tail (ts.drop (widthIn front + 1 + widthIn items)))

end Shape

/-- A piece that is read in front of all tokens that do not go on with it. -/
def Grammar.Entry.Reads (e : Grammar.Entry) (ts : List Token) (s : Shape) : Prop :=
  ∀ ⦃r : Cursor⦄, r.Calm → ∀ ⦃n⦄, (r.facing ts).ahead.length < n →
    ∃ node, e.parser (Grammar.nesting n) (r.facing ts) = .ok (node, r) ∧ node.shape = s

theorem Cursor.calm_of_startPiece {c : Cursor} {ts : List Token} (h : Token.startPiece ts = true) :
    (c.facing ts).Calm := by
  cases ts with
  | nil => cases h
  | cons t ts =>
    simp only [Token.startPiece, Bool.not_eq_true', Bool.or_eq_false_iff] at h
    exact h.1

theorem Token.startPiece_of_take {ts : List Token} {w : Nat} (h : startPiece (ts.take w) = true) :
    startPiece ts = true ∧ (ts.drop w).length < ts.length := by
  cases ts with
  | nil => simp [startPiece] at h
  | cons t ts =>
    cases w with
    | zero => cases h
    | succ w =>
      refine ⟨h, ?_⟩
      simp only [List.length_drop, List.length_cons]
      omega

/-- The items of a body are read one after the other, and then what is behind them. -/
theorem Shape.rounds_of_areRead {e : Grammar.Entry} {reads : List Token → Shape → Bool}
    (hreads : ∀ {ts s}, reads ts s = true → e.Reads ts s) {r : Cursor} {n : Nat}
    {test : Cursor → Bool} (htest : ∀ {us}, Token.startPiece us = true → test (r.facing us) = true)
    {rest : List Token} (hcalm : (r.facing rest).Calm) {parts : List Element} {d : Cursor}
    (hrest : ∀ {bound}, rest.length < bound →
      rounds test (one (e.parser (Grammar.nesting n))) bound (r.facing rest) = .ok (parts, d))
    {items : List Shape} {ts : List Token} (h : areRead reads items ts = true)
    (hdrop : ts.drop (widthIn items) = rest) (hn : (r.facing ts).ahead.length < n) {bound : Nat}
    (hbound : ts.length < bound) :
    ∃ elements, rounds test (one (e.parser (Grammar.nesting n))) bound (r.facing ts) =
        .ok (elements ++ parts, d) ∧ Element.shapesIn elements = items := by
  induction items generalizing ts bound with
  | nil =>
    obtain rfl : ts = rest := hdrop
    exact ⟨[], hrest hbound, rfl⟩
  | cons s items ih =>
    simp only [areRead, Bool.and_eq_true] at h
    obtain ⟨⟨hstart, hread⟩, hitems⟩ := h
    obtain ⟨hstarts, hshorter⟩ := Token.startPiece_of_take hstart
    have hmore : (ts.drop s.width).drop (widthIn items) = rest := by
      rw [List.drop_drop, ← hdrop]
      rfl
    have hnext : (r.facing (ts.drop s.width)).Calm := by
      cases items with
      | nil =>
        obtain rfl : ts.drop s.width = rest := hmore
        exact hcalm
      | cons s' items =>
        simp only [areRead, Bool.and_eq_true] at hitems
        exact calm_of_startPiece (Token.startPiece_of_take hitems.1.1).1
    have htokens : r.facing ts = (r.facing (ts.drop s.width)).facing (ts.take s.width) := by
      rw [facing_facing, List.take_append_drop]
    have hahead : (r.facing (ts.drop s.width)).ahead.length < n := by
      simp only [ahead_facing, List.length_append] at hn ⊢
      omega
    obtain ⟨bound, rfl⟩ : ∃ b, bound = b + 1 := ⟨bound - 1, by omega⟩
    obtain ⟨elements, hrounds, rfl⟩ := @ih _ hitems hmore hahead bound (by omega)
    obtain ⟨node, hnode, rfl⟩ := hreads hread hnext (htokens ▸ hn)
    refine ⟨.node node :: elements, ?_, rfl⟩
    simp only [rounds]
    rw [if_pos (htest hstarts), htokens]
    show _ = Except.ok ([Element.node node] ++ (elements ++ parts), d)
    exact append_eq (one_eq hnode) hrounds

namespace Grammar

/-- Another word or mark than those that something goes on with. -/
theorem calm_of_word {c : Cursor} {text : String} (h : c.sees text = true)
    (htext : text ∉ ["else", "catch", "finally", ";", "="]) : c.Calm := by
  simp only [sees, Token.is, Bool.and_eq_true, beq_iff_eq] at h
  simp only [Calm, seesAny, List.any_eq_false]
  intro other hmem hother
  simp only [Token.is, h.1, Bool.and_eq_true, beq_iff_eq] at hother
  exact htext (hother.1 ▸ hmem)

theorem sees_other {c : Cursor} {text other : String} (h : c.sees text = true)
    (hne : text ≠ other) : c.sees other = false := by
  simp only [sees, Token.is, Bool.and_eq_true, beq_iff_eq] at h
  simp [sees, Token.is, h.1, hne]

/-- What closes a body goes on with nothing. -/
theorem calm_of_close {c : Cursor} {t : Token} {ts : List Token}
    (h : t.is Token.closeBrace = true) : (c.facing (t :: ts)).Calm :=
  calm_of_word (show (c.facing (t :: ts)).sees Token.closeBrace = true from h) (by decide)

/-- The items of a body are read up to the brace that closes it. -/
theorem repeatWhile_of_areRead {e : Entry} {reads : List Token → Shape → Bool}
    (hreads : ∀ {ts s}, reads ts s = true → e.Reads ts s) {r : Cursor} {n : Nat}
    {items : List Shape} {ts rest : List Token} {closing : Token}
    (h : Shape.areRead reads items ts = true)
    (hdrop : ts.drop (Shape.widthIn items) = closing :: rest)
    (hclosing : closing.is Token.closeBrace = true) (hn : (r.facing ts).ahead.length < n) :
    ∃ elements, repeatWhile (fun c => !c.atBodyEnd) (one (e.parser (nesting n))) (r.facing ts) =
        .ok (elements, r.facing (closing :: rest)) ∧ Element.shapesIn elements = items := by
  have hstop : (r.facing (closing :: rest)).atBodyEnd = true := by
    simp only [atBodyEnd, Bool.or_eq_true]
    exact .inl hclosing
  have htest {us : List Token} (hstart : Token.startPiece us = true) :
      (!(r.facing us).atBodyEnd) = true := by
    cases us with
    | nil => cases hstart
    | cons t us =>
      simp only [Token.startPiece, Bool.not_eq_true', Bool.or_eq_false_iff] at hstart
      simp only [atBodyEnd, Bool.not_eq_true', Bool.or_eq_false_iff]
      exact ⟨hstart.2, rfl⟩
  have hrest {bound : Nat} (hbound : (closing :: rest).length < bound) :
      rounds (fun c => !c.atBodyEnd) (one (e.parser (nesting n))) bound
        (r.facing (closing :: rest)) = .ok ([], r.facing (closing :: rest)) := by
    obtain ⟨bound, rfl⟩ : ∃ b, bound = b + 1 := ⟨bound - 1, by omega⟩
    simp [rounds, hstop]
  obtain ⟨elements, hrounds, hshapes⟩ := Shape.rounds_of_areRead hreads htest
    (calm_of_close hclosing) hrest h hdrop hn (lt_ahead_facing r ts)
  rw [List.append_nil] at hrounds
  exact ⟨elements, hrounds, hshapes⟩

theorem mark_facing {r : Cursor} {t : Token} {text : String} (h : t.is text = true)
    (ts : List Token) : mark text (r.facing (t :: ts)) = .ok ([.token t], r.facing ts) :=
  mark_eq h

/-- A semicolon behind a body is read with it, and no other one. -/
theorem whenAt_of_closesBody {r : Cursor} (hcalm : r.Calm) {kind : Kind} {tail : List Shape}
    {ts : List Token} (h : Shape.closesBody kind tail ts = true) :
    ∃ closing rest xs, ts = closing :: rest ∧ closing.is Token.closeBrace = true ∧
      (kind.hasBlock = true → rest = [] ∧ tail = []) ∧
      whenAt (sees ";") token (r.facing rest) = .ok (xs, r) ∧ Element.shapesIn xs = tail := by
  match ts, h with
  | [closing], h =>
    simp only [Shape.closesBody, Bool.and_eq_true, List.isEmpty_iff] at h
    obtain ⟨hclosing, rfl⟩ := h
    refine ⟨closing, [], [], rfl, hclosing, fun _ => ⟨rfl, rfl⟩, ?_, rfl⟩
    exact if_neg (Bool.eq_false_iff.1 (hcalm.sees (by decide)))
  | [closing, semicolon], h =>
    simp only [Shape.closesBody, Bool.and_eq_true, decide_eq_true_eq, Bool.not_eq_true'] at h
    obtain ⟨⟨⟨hclosing, hsemicolon⟩, rfl⟩, hblock⟩ := h
    have hread : whenAt (sees ";") token (r.facing [semicolon]) = token (r.facing [semicolon]) :=
      if_pos hsemicolon
    exact ⟨closing, [semicolon], [.token semicolon], rfl, hclosing,
      fun h => absurd h (by simp [hblock]), hread, by simp [Token.text_of_is hsemicolon]⟩

/-- A body in braces is read from its items. -/
theorem bodyOf_of_areRead {kind : Kind} {reads : List Token → Shape → Bool}
    (hreads : ∀ {ts s}, reads ts s = true → (Shape.inside kind).Reads ts s) {r : Cursor}
    (hcalm : r.Calm) {n : Nat} {items tail : List Shape} {ts : List Token} {opening : Token}
    (hopen : opening.is Token.openBrace = true) (h : Shape.areRead reads items ts = true)
    (hcloses : Shape.closesBody kind tail (ts.drop (Shape.widthIn items)) = true)
    (hn : (r.facing ts).ahead.length < n) :
    ∃ body, bodyOf (nesting n) kind (r.facing (opening :: ts)) = .ok (body, r) ∧
      Element.shapesIn body = Shape.bodyParts kind items tail := by
  obtain ⟨closing, rest, xs, hdrop, hclosing, hplain, hsemicolon, rfl⟩ :=
    whenAt_of_closesBody hcalm hcloses
  obtain ⟨elements, hloop, rfl⟩ := repeatWhile_of_areRead hreads h hdrop hclosing hn
  have hbraces := append_eq (append_eq (mark_facing (r := r) hopen ts) hloop)
    (mark_facing hclosing rest)
  have hshapes : Element.shapesIn ([.token opening] ++ elements ++ [.token closing]) =
      .token Token.openBrace :: (Element.shapesIn elements ++ [.token Token.closeBrace]) := by
    simp [Token.text_of_is hopen, Token.text_of_is hclosing]
  have hsees : (r.facing (opening :: ts)).sees Token.openBrace = true := hopen
  cases hblock : kind.hasBlock with
  | true =>
    obtain ⟨rfl, htail⟩ := hplain hblock
    simp only [Shape.inside, hblock, if_true] at hbraces
    refine ⟨[.node (.ofChildren .block ([.token opening] ++ elements ++ [.token closing]))], ?_, ?_⟩
    · rw [bodyOf, if_pos hblock, memberBody, ifAt, if_pos hsees]
      exact one_eq (build_eq hbraces)
    · rw [Shape.bodyParts, if_pos hblock, htail]
      simp only [Element.shapesIn_cons, Element.shapesIn_nil, Element.shape_node,
        Node.shape_ofChildren, hshapes]
  | false =>
    have hwhole := append_eq hbraces hsemicolon
    refine ⟨[.token opening] ++ elements ++ [.token closing] ++ xs, ?_, ?_⟩
    case refine_2 =>
      rw [Shape.bodyParts, if_neg (by simp [hblock]), Element.shapesIn_append, hshapes]
      simp
    cases hkind : kind == .namespaceDeclaration with
    | true =>
      simp only [Shape.inside, hblock, hkind, Bool.false_eq_true, if_false, if_true] at hwhole
      rw [bodyOf, if_neg (by simp [hblock]), if_pos hkind]
      exact hwhole
    | false =>
      have hsemicolon : (r.facing (opening :: ts)).sees ";" = false := by
        simp [sees, Token.is, Token.text_of_is hopen, Token.openBrace]
      simp only [Shape.inside, hblock, hkind, Bool.false_eq_true, if_false] at hwhole
      rw [bodyOf, if_neg (by simp [hblock]), if_neg (by simp [hkind]), typeBody, ifAt,
        if_neg (by simp [hsemicolon])]
      exact hwhole

/-- What opens a body goes on with nothing of what follows. -/
theorem calm_of_areRead {c : Cursor} {reads : List Token → Shape → Bool} {items tail : List Shape}
    {ts : List Token} {kind : Kind} (h : Shape.areRead reads items ts = true)
    (hcloses : Shape.closesBody kind tail (ts.drop (Shape.widthIn items)) = true) :
    (c.facing ts).Calm := by
  cases items with
  | nil =>
    match ts, hcloses with
    | [closing], hcloses =>
      simp only [Shape.closesBody, Shape.widthIn, List.drop_zero, Bool.and_eq_true] at hcloses
      exact calm_of_close hcloses.1
    | [closing, semicolon], hcloses =>
      simp only [Shape.closesBody, Shape.widthIn, List.drop_zero, Bool.and_eq_true] at hcloses
      exact calm_of_close hcloses.1.1.1
  | cons s items =>
    simp only [Shape.areRead, Bool.and_eq_true] at h
    exact calm_of_startPiece (Token.startPiece_of_take h.1.1).1

/-- What is read piece by piece is read in front of any tokens that do not go on with it. -/
theorem reads_of_composes {depth : Nat} {e : Entry} {ts : List Token} {s : Shape}
    (h : Shape.composes depth e ts s = true) : e.Reads ts s := by
  induction depth generalizing e ts s with
  | zero => exact fun r hcalm n hn => e.reads_of_readsAlone h hcalm hn
  | succ depth ih =>
    intro r hcalm n hn
    simp only [Shape.composes, Bool.or_eq_true] at h
    rcases h with h | h
    · exact e.reads_of_readsAlone h hcalm hn
    split at h
    · cases h
    split at h
    · cases h
    rename_i kind parts front items tail hframe
    simp only [Bool.and_eq_true] at h
    obtain ⟨⟨hfront, hitems⟩, hcloses⟩ := h
    obtain ⟨n, rfl⟩ : ∃ k, n = k + 1 := ⟨n - 1, by omega⟩
    rw [← List.drop_drop] at hcloses
    have htokens := List.take_append_drop (Shape.widthIn front + 1) ts
    generalize ts.take (Shape.widthIn front + 1) = before at hfront htokens
    generalize ts.drop (Shape.widthIn front + 1) = body at hitems hcloses htokens
    subst htokens
    simp only [ahead_facing, List.length_append] at hn
    have hnext : (r.facing body).Calm := calm_of_areRead hitems hcloses
    obtain ⟨init, opening, before', rfl, hopen, hread, rfl⟩ :=
      Entry.reads_of_readsFront hfront hnext (n := n) (by omega)
    obtain ⟨inside, hbody, hinside⟩ := bodyOf_of_areRead ih hcalm hopen hitems hcloses (n := n) (by
      simp only [List.length_append, List.length_singleton] at hn
      simp only [ahead_facing, List.length_append]
      omega)
    rw [facing_facing] at hread
    have hsemicolon : ((r.facing body).facing [opening]).sees ";" = false := by
      simp [sees, Token.is, Token.text_of_is hopen, Token.openBrace]
    exact ⟨_, Entry.parser_of_front hread hsemicolon hbody, by
      rw [Node.shape_ofChildren, Element.shapesIn_append, hinside, Shape.of_frame? hframe]⟩

end Grammar

/-! ## Files -/

namespace Shape

/-- The tokens are read piece by piece as a namespace that lasts to the end of the file. -/
def composesNamespace (depth : Nat) (parts : List Shape) (ts : List Token) : Bool :=
  match splitAt? ";" parts with
  | none => false
  | some (front, items) =>
    (ts.head?.any fun t => t.is "namespace") &&
      Grammar.Entry.readsFront .scopeMember .namespaceDeclaration ";"
        (ts.take (widthIn front + 1)) front &&
        areRead (composes depth .scopeMember) items (ts.drop (widthIn front + 1)) &&
          (ts.drop (widthIn front + 1 + widthIn items)).isEmpty

/-- The tokens ahead are read piece by piece as these parts of a file. -/
def composesFile (depth : Nat) (parts : List Shape) (c : Cursor) : Bool :=
  parts.getLast? = some (.token c.finish.text) &&
    (match parts.dropLast.getLast? with
      | some (.node .fileScopedNamespaceDeclaration inner) =>
        areRead (composes depth .scopeMember) parts.dropLast.dropLast c.ahead &&
          composesNamespace depth inner (c.ahead.drop (widthIn parts.dropLast.dropLast))
      | _ =>
        areRead (composes depth .scopeMember) parts.dropLast c.ahead &&
          (c.ahead.drop (widthIn parts.dropLast)).isEmpty)

end Shape

namespace Grammar

theorem calm_of_closed {c : Cursor} (hc : c.Closed) (hend : c.ahead = []) : c.Calm := by
  have hcurrent : c.current = c.finish := by simp [current, nth, hend]
  simp only [Calm, seesAny, hcurrent, List.any_eq_false]
  exact fun text _ => by simp [Cursor.is_eq_false hc]

section Ends

variable {finish : Token} {depth n : Nat}

/-- The members up to the end of the file are read one after the other, and then what is read of the
    rest. -/
theorem repeatWhile_of_areRead_to {items : List Shape} {ts rest : List Token} {parts : List Element}
    (h : Shape.areRead (Shape.composes depth .scopeMember) items ts = true)
    (hdrop : ts.drop (Shape.widthIn items) = rest) (hn : ts.length < n)
    (hcalm : (Cursor.mk rest finish).Calm)
    (hrest : ∀ {bound}, rest.length < bound →
      rounds (fun c => !c.atEnd) (one (nesting n).scopeMember) bound ⟨rest, finish⟩ =
        .ok (parts, ⟨[], finish⟩)) :
    ∃ elements, repeatWhile (fun c => !c.atEnd) (one (nesting n).scopeMember) ⟨ts, finish⟩ =
        .ok (elements ++ parts, ⟨[], finish⟩) ∧ Element.shapesIn elements = items := by
  have hfacing (us : List Token) : Cursor.facing ⟨[], finish⟩ us = ⟨us, finish⟩ := by simp [facing]
  have htest {us : List Token} (hstart : Token.startPiece us = true) :
      (!(Cursor.facing ⟨[], finish⟩ us).atEnd) = true := by
    cases us with
    | nil => cases hstart
    | cons t us => rfl
  have hrest' {bound : Nat} (hbound : rest.length < bound) :
      rounds (fun c => !c.atEnd) (one (Entry.parser .scopeMember (nesting n))) bound
        (Cursor.facing ⟨[], finish⟩ rest) = .ok (parts, ⟨[], finish⟩) := by
    rw [hfacing]
    exact hrest hbound
  obtain ⟨elements, hrounds, hshapes⟩ := Shape.rounds_of_areRead reads_of_composes htest
    (hfacing rest ▸ hcalm) hrest' h hdrop (by simpa using hn) (Nat.lt_succ_self ts.length)
  rw [hfacing] at hrounds
  exact ⟨elements, hrounds, hshapes⟩

theorem rounds_at_end {p : Piece} (bound : Nat) :
    rounds (fun c => !c.atEnd) p bound ⟨[], finish⟩ = .ok ([], ⟨[], finish⟩) := by
  cases bound <;> rfl

/-- A namespace that lasts to the end of the file is read from its pieces. -/
theorem scopeMember_of_composesNamespace (hfinish : finish.kind = .endOfFile)
    {parts : List Shape} {ts : List Token} (h : Shape.composesNamespace depth parts ts = true)
    (hn : ts.length < n) :
    (Cursor.mk ts finish).Calm ∧ ts ≠ [] ∧ ∃ node,
      (nesting n).scopeMember ⟨ts, finish⟩ = .ok (node, ⟨[], finish⟩) ∧
        node.shape = .node .fileScopedNamespaceDeclaration parts := by
  simp only [Shape.composesNamespace] at h
  split at h
  · cases h
  rename_i front items hsplit
  simp only [Bool.and_eq_true, List.isEmpty_iff] at h
  obtain ⟨⟨⟨hhead, hfront⟩, hitems⟩, hend⟩ := h
  rw [← List.drop_drop] at hend
  obtain ⟨hword, hne⟩ : (Cursor.mk ts finish).sees "namespace" = true ∧ ts ≠ [] := by
    obtain ⟨word, hword, hnamespace⟩ := (Option.any_eq_true _ _).1 hhead
    obtain ⟨us, rfl⟩ := List.head?_eq_some_iff.1 hword
    exact ⟨hnamespace, nofun⟩
  refine ⟨calm_of_word hword (by decide), hne, ?_⟩
  obtain ⟨n, rfl⟩ : ∃ k, n = k + 1 := ⟨n - 1, by omega⟩
  have htokens := List.take_append_drop (Shape.widthIn front + 1) ts
  generalize ts.take (Shape.widthIn front + 1) = before at hfront htokens
  generalize ts.drop (Shape.widthIn front + 1) = body at hitems hend htokens
  subst htokens
  rw [List.length_append] at hn
  have hnext : (Cursor.mk body finish).Calm := by
    cases items with
    | nil =>
      obtain rfl : body = [] := hend
      exact calm_of_closed hfinish rfl
    | cons s items =>
      simp only [Shape.areRead, Bool.and_eq_true] at hitems
      have hcalm := calm_of_startPiece (c := ⟨[], finish⟩) (Token.startPiece_of_take hitems.1.1).1
      simpa [facing] using hcalm
  obtain ⟨init, semicolon, parts', rfl, hsemicolon, hread, rfl⟩ :=
    Entry.reads_of_readsFront hfront hnext (n := n) (by omega)
  have hlength : body.length < n := by
    simp only [List.length_append, List.length_singleton] at hn
    omega
  obtain ⟨elements, hloop, rfl⟩ := repeatWhile_of_areRead_to hitems hend hlength
    (calm_of_closed (c := ⟨[], finish⟩) hfinish rfl) fun {bound} _ => rounds_at_end bound
  rw [List.append_nil] at hloop
  -- The word at the start decides that a namespace is read.
  have husing : ((Cursor.mk (init ++ [semicolon] ++ body) finish).sees "using" ||
      ((Cursor.mk (init ++ [semicolon] ++ body) finish).sees "global" &&
        (Cursor.mk (init ++ [semicolon] ++ body) finish).seesAt 1 "using")) = false := by
    rw [sees_other hword (by decide), sees_other hword (by decide)]
    rfl
  change (Entry.front .scopeMember (nesting n)) ⟨init ++ [semicolon] ++ body, finish⟩ = _ at hread
  simp only [Entry.front, husing, hword, Bool.false_eq_true, if_false, if_true] at hread
  obtain ⟨parts, d, hparts, hpure⟩ := bind_eq_ok hread
  cases hpure
  refine ⟨.ofChildren .fileScopedNamespaceDeclaration (parts' ++ [.token semicolon] ++ elements),
    ?_, ?_⟩
  · show scopeMemberOf (nesting n) ⟨init ++ [semicolon] ++ body, finish⟩ = _
    simp only [scopeMemberOf, husing, hword, Bool.false_eq_true, if_false, if_true]
    rw [namespaceDeclaration_eq]
    refine bind_eq hparts ?_
    have hsees : ((Cursor.mk body finish).facing [semicolon]).sees ";" = true := hsemicolon
    rw [if_pos hsees]
    exact build_eq (append_eq (append_eq rfl rfl) hloop)
  · rw [Node.shape_ofChildren, Shape.of_splitAt? hsplit]
    simp [Token.text_of_is hsemicolon]

end Ends

/-- A file is read from its pieces. -/
theorem compilationUnit_of_composesFile {depth n : Nat} {parts : List Shape} {c : Cursor}
    (hc : c.Closed) (h : Shape.composesFile depth parts c = true) (hn : c.ahead.length < n) :
    ∃ node d, compilationUnit (nesting n) c = .ok (node, d) ∧
      node.shape = .node .compilationUnit parts := by
  obtain ⟨ts, finish⟩ := c
  simp only [Shape.composesFile, Bool.and_eq_true, decide_eq_true_eq] at h
  obtain ⟨hlast, h⟩ := h
  obtain ⟨init, rfl⟩ := List.getLast?_eq_some_iff.1 hlast
  rw [List.dropLast_concat] at h
  have hwhole {elements : List Element}
      (hread : repeatWhile (fun c => !c.atEnd) (one (nesting n).scopeMember) ⟨ts, finish⟩ =
        .ok (elements, ⟨[], finish⟩)) (hshapes : Element.shapesIn elements = init) :
      ∃ node d, compilationUnit (nesting n) ⟨ts, finish⟩ = .ok (node, d) ∧
        node.shape = .node .compilationUnit (init ++ [.token finish.text]) := by
    have hfinish : token ⟨[], finish⟩ = .ok ([.token finish], ⟨[], finish⟩) := rfl
    refine ⟨_, _, build_eq (append_eq hread hfinish), ?_⟩
    rw [Node.shape_ofChildren, Element.shapesIn_append, hshapes]
    rfl
  split at h
  · rename_i inner hnamespace
    obtain ⟨items, rfl⟩ := List.getLast?_eq_some_iff.1 hnamespace
    rw [List.dropLast_concat, Bool.and_eq_true] at h
    have hlength : (ts.drop (Shape.widthIn items)).length < n := by
      have hahead : ts.length < n := hn
      rw [List.length_drop]
      omega
    obtain ⟨hcalm, hne, node, hnode, hshape⟩ := scopeMember_of_composesNamespace hc h.2 hlength
    have hnone : (Cursor.mk (ts.drop (Shape.widthIn items)) finish).atEnd = false := by
      simpa [atEnd] using hne
    obtain ⟨elements, hread, hshapes⟩ := repeatWhile_of_areRead_to h.1 rfl hn hcalm
      fun {bound} hbound => by
        obtain ⟨bound, rfl⟩ : ∃ b, bound = b + 1 := ⟨bound - 1, by omega⟩
        simp only [rounds, hnone, Bool.not_false, if_true]
        exact append_eq (one_eq hnode) (rounds_at_end bound)
    refine hwhole hread ?_
    simp [hshapes, hshape]
  · simp only [Bool.and_eq_true, List.isEmpty_iff] at h
    obtain ⟨elements, hread, hshapes⟩ := repeatWhile_of_areRead_to h.1 h.2 hn
      (calm_of_closed (c := ⟨[], finish⟩) hc rfl) fun {bound} _ => rounds_at_end bound
    rw [List.append_nil] at hread
    exact hwhole hread hshapes

end Grammar

end Recast
