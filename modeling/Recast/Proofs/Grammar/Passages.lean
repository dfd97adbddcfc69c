-- SUMMARY: Passages of tokens, which may stand in front of different tokens, and the tests of the grammar that tell the same of them there.
import Recast.Proofs.Grammar.Formatting
import Recast.Proofs.Grammar.Nesting

/-! # Passages

A *passage* is a run of tokens that ends in a semicolon or a brace, with its parentheses closed. The
same passage may stand in front of different tokens: by itself, or in a file. Most tests that the
grammar makes only look at the next token, or at tokens that are sure to be in the passage when the
ones before them are no stops; so they tell the same of it in both places. -/

namespace Recast

open Recast.Grammar

/-! ## Tokens -/

namespace Token

/-- A token that stands in no type, and that ends or opens a statement, a member or a body. -/
def stops (t : Token) : Bool :=
  t.kind == .punctuation && (t.text == ";" || t.text == openBrace || t.text == closeBrace)

variable {t : Token}

theorem kind_of_stops (h : t.stops = true) : t.kind = .punctuation := by
  simp only [stops, Bool.and_eq_true, beq_iff_eq] at h
  exact h.1

theorem stops_of_is {text : String} (htext : text ≠ ";" ∧ text ≠ openBrace ∧ text ≠ closeBrace)
    (h : t.is text = true) : t.stops = false := by
  simp only [is, Bool.and_eq_true, beq_iff_eq] at h
  simp [stops, h.1, htext]

theorem stops_of_isWord (h : t.isWord = true) : t.stops = false := by
  cases hstops : t.stops with
  | false => rfl
  | true => simp [isWord, kind_of_stops hstops] at h

theorem stops_of_identifier (h : t.kind = .identifier) : t.stops = false :=
  stops_of_isWord (by simp [isWord, h])

theorem stops_of_keyword (h : t.kind = .keyword) : t.stops = false :=
  stops_of_isWord (by simp [isWord, h])

end Token

/-! ## What was understood -/

/-- False of what was read for want of a better reading: a run of tokens in the place of a member or
    of a statement, or of what is looped over. A namespace that lasts to the end of the file is left
    out, too: what it is depends on all that follows. -/
def Kind.isKnownOver (kind : Kind) (parts : List Shape) : Bool :=
  match kind with
  | .rawMember | .rawStatement | .fileScopedNamespaceDeclaration => false
  | .forEachStatement => !parts.any fun
    | .node .rawTokens _ => true
    | _ => false
  | _ => true

mutual

/-- Everything in a construct was understood. -/
def Shape.isKnown : Shape → Bool
  | .token _ => true
  | .node kind parts => kind.isKnownOver parts && Shape.areKnown parts

/-- Everything in a list of parts was understood. -/
def Shape.areKnown : List Shape → Bool
  | [] => true
  | s :: parts => s.isKnown && Shape.areKnown parts

end

@[simp] theorem Shape.areKnown_append (xs ys : List Shape) :
    Shape.areKnown (xs ++ ys) = (Shape.areKnown xs && Shape.areKnown ys) := by
  induction xs with
  | nil => simp [Shape.areKnown]
  | cons s xs ih => simp [Shape.areKnown, ih, Bool.and_assoc]

/-- Everything in the node was understood. -/
def Node.Known (n : Node) : Prop :=
  n.shape.isKnown = true

/-- Everything in the parts was understood. -/
def Element.KnownIn (parts : List Element) : Prop :=
  Shape.areKnown (shapesIn parts) = true

theorem Element.knownIn_append {xs ys : List Element} :
    KnownIn (xs ++ ys) ↔ KnownIn xs ∧ KnownIn ys := by
  simp [KnownIn]

theorem Element.knownIn_single {n : Node} : KnownIn [.node n] ↔ n.Known := by
  simp [KnownIn, Node.Known, Shape.areKnown]

theorem Node.Known.parts {kind : Kind} {parts : List Element}
    (h : (Node.ofChildren kind parts).Known) : Element.KnownIn parts := by
  simp only [Known, shape_ofChildren, Shape.isKnown, Bool.and_eq_true] at h
  exact h.2

/-! ## Cursors in front of a passage -/

namespace Cursor

/-- The cursor in front of some tokens, behind which another one stands. -/
def facing (c : Cursor) (ts : List Token) : Cursor :=
  { c with ahead := ts ++ c.ahead }

variable {l r c d : Cursor} {t : Token} {ts us vs : List Token}

@[simp] theorem facing_nil (c : Cursor) : c.facing [] = c := rfl

@[simp] theorem ahead_facing (c : Cursor) (ts : List Token) :
    (c.facing ts).ahead = ts ++ c.ahead := rfl

theorem lt_ahead_facing (c : Cursor) (ts : List Token) :
    ts.length < (c.facing ts).ahead.length + 1 := by
  simp only [ahead_facing, List.length_append]
  omega

@[simp] theorem facing_facing (c : Cursor) (ts us : List Token) :
    (c.facing us).facing ts = c.facing (ts ++ us) := by
  simp [facing]

theorem facing_inj (h : c.facing ts = c.facing us) : ts = us := by
  simpa [facing] using h

@[simp] theorem current_facing (c : Cursor) (t : Token) (ts : List Token) :
    (c.facing (t :: ts)).current = t := rfl

@[simp] theorem nth_one_facing (c : Cursor) (t u : Token) (ts : List Token) :
    (c.facing (t :: u :: ts)).nth 1 = u := rfl

end Cursor

/-- The words and marks that an operand starts with, apart from types, names and literals. -/
def Grammar.operandStarters : List String :=
  ["!", "-", "+", "~", "++", "--", "^", "&", "*", "throw", "(", "true", "false", "null", "default",
    "typeof", "sizeof", "checked", "unchecked", "this", "base", "[", Token.openBrace, "new",
    "delegate"]

/-- False before a keyword that no operand starts with. -/
def Grammar.operandStarts (c : Cursor) : Bool :=
  c.current.kind != .keyword || c.seesAny operandStarters || isPredefinedType c.current

/-- A predefined type in parentheses stands at the cursor. -/
def Grammar.seesPredefined (c : Cursor) : Bool :=
  c.sees "(" && (isPredefinedType (c.nth 1) && c.seesAt 2 ")")

/-- A type in parentheses. -/
def Grammar.castType (g : Grammar) : Piece :=
  Parser.mark "(" ++ Parser.one g.type ++ Parser.mark ")"

/-- A cast starts at the cursor: a type in parentheses, and something that may be its operand. -/
def Grammar.startsCast (g : Grammar) (c : Cursor) : Bool :=
  (castType g).leadsTo (fun d => castOperandFollows (seesPredefined c) d && operandStarts d) c

/-- What starts like a cast is read as one. -/
def Cursor.readsCast (c : Cursor) : Bool :=
  !(nesting c.ahead.length).startsCast c ||
    (cast (nesting c.ahead.length)).leadsTo (fun _ => true) c

/-- A run of tokens that can be read in front of `l`. It ends in a token that stops what is read,
    its parentheses are closed in it, and what starts like a cast in it is one. -/
structure Passage (l : Cursor) (ts : List Token) : Prop where
  stops : ∃ init t, ts = init ++ [t] ∧ t.stops = true
  closes : ∀ ⦃t us⦄, t :: us <:+ ts → t.is "(" = true →
    ∃ group rest, Parser.splitGroup 0 (t :: us) = some (group, rest) ∧ rest ≠ []
  casts : ∀ ⦃us⦄, us <:+ ts → us ≠ [] → (l.facing us).readsCast = true

namespace Passage

variable {l : Cursor} {t : Token} {ts us : List Token}

theorem ne_nil (h : Passage l ts) : ts ≠ [] := by
  obtain ⟨init, t, rfl, -⟩ := h.stops
  simp

/-- What is left of a passage is one. -/
theorem suffix (h : Passage l ts) (hsuffix : us <:+ ts) (hne : us ≠ []) : Passage l us where
  stops := by
    obtain ⟨init, t, rfl, ht⟩ := h.stops
    obtain ⟨ws, hws⟩ := hsuffix
    obtain ⟨vs, u, rfl⟩ := List.eq_nil_or_concat us |>.resolve_left hne
    simp only [List.concat_eq_append, ← List.append_assoc] at hws
    obtain ⟨-, rfl⟩ := List.append_singleton_inj.1 hws
    exact ⟨vs, u, by simp, ht⟩
  closes _ _ hmore := h.closes (hmore.trans hsuffix)
  casts _ hmore := h.casts (hmore.trans hsuffix)

/-- The last token of a passage stops what is read. -/
theorem tail_ne_nil (h : Passage l (t :: ts)) (ht : t.stops = false) : ts ≠ [] := by
  rintro rfl
  obtain ⟨init, u, hlast, hu⟩ := h.stops
  obtain ⟨-, rfl⟩ := List.append_singleton_inj.1 (show [] ++ [t] = init ++ [u] from hlast)
  rw [ht] at hu
  cases hu

theorem tail (h : Passage l (t :: ts)) (ht : t.stops = false) : Passage l ts :=
  h.suffix (List.suffix_cons t ts) (h.tail_ne_nil ht)

end Passage

namespace Cursor

variable {l r : Cursor}

/-! ## Tests -/

/-- A test that tells the same of a passage in both places. -/
def Alike (l r : Cursor) (test : Cursor → Bool) : Prop :=
  ∀ ⦃ts⦄, Passage l ts → test (l.facing ts) = test (r.facing ts)

/-- A test that only looks at the next token. -/
theorem alike_current {α : Type} (f : Token → α) {ts : List Token} (h : Passage l ts) :
    f (l.facing ts).current = f (r.facing ts).current := by
  obtain ⟨t, us, rfl⟩ := List.exists_cons_of_ne_nil h.ne_nil
  rfl

theorem alike_sees (text : String) : Alike l r (sees text) :=
  fun _ h => alike_current (Token.is · text) h

theorem alike_seesAny (texts : List String) : Alike l r (seesAny texts) :=
  fun _ h => alike_current (fun t => texts.any t.is) h

theorem alike_atName : Alike l r atName :=
  fun _ h => alike_current (fun t => t.kind == .identifier) h

theorem alike_isName (text : String) : Alike l r fun c => c.current.isName text :=
  fun _ h => alike_current (Token.isName · text) h

theorem alike_atEnd : Alike l r atEnd := by
  intro ts h
  obtain ⟨t, us, rfl⟩ := List.exists_cons_of_ne_nil h.ne_nil
  rfl

theorem Alike.not {test : Cursor → Bool} (h : Alike l r test) : Alike l r fun c => !test c :=
  fun _ hts => congrArg Bool.not (h hts)

theorem Alike.and {test test' : Cursor → Bool} (h : Alike l r test) (h' : Alike l r test') :
    Alike l r fun c => test c && test' c :=
  fun _ hts => by simp only [h hts, h' hts]

theorem Alike.or {test test' : Cursor → Bool} (h : Alike l r test) (h' : Alike l r test') :
    Alike l r fun c => test c || test' c :=
  fun _ hts => by simp only [h hts, h' hts]

theorem alike_atBodyEnd : Alike l r atBodyEnd :=
  (alike_sees _).or alike_atEnd

theorem alike_atBracket : Alike l r atBracket :=
  alike_seesAny _

/-- A test that only holds where something may come behind the next token of a passage. -/
def Soft (test : Cursor → Bool) : Prop :=
  ∀ ⦃c⦄, test c = true → c.current.stops = false

theorem soft_sees {text : String}
    (htext : text ≠ ";" ∧ text ≠ Token.openBrace ∧ text ≠ Token.closeBrace) : Soft (sees text) :=
  fun _ h => Token.stops_of_is htext h

theorem soft_seesAny {texts : List String} (htexts : ∀ text ∈ texts,
    text ≠ ";" ∧ text ≠ Token.openBrace ∧ text ≠ Token.closeBrace) : Soft (seesAny texts) := by
  intro c h
  obtain ⟨text, hmem, htext⟩ := List.any_eq_true.1 h
  exact Token.stops_of_is (htexts text hmem) htext

theorem soft_atName : Soft atName :=
  fun _ h => Token.stops_of_identifier (by simpa [atName] using h)

theorem soft_isName (text : String) : Soft fun c => c.current.isName text := by
  intro c h
  simp only [Token.isName, Bool.and_eq_true, beq_iff_eq] at h
  exact Token.stops_of_identifier h.1

theorem Soft.and_left {test test' : Cursor → Bool} (h : Soft test) :
    Soft fun c => test c && test' c :=
  fun _ htest => h (Bool.and_eq_true_iff.1 htest).1

/-- A test of the next token, and where it holds of the two next ones. -/
theorem Soft.alike_and {test test' : Cursor → Bool} (hsoft : Soft test) (h : Alike l r test)
    (h' : ∀ t u us, test' (l.facing (t :: u :: us)) = test' (r.facing (t :: u :: us))) :
    Alike l r fun c => test c && test' c := by
  intro ts hts
  dsimp only
  rw [← h hts]
  cases htest : test (l.facing ts) with
  | false => rfl
  | true =>
    obtain ⟨t, us, rfl⟩ := List.exists_cons_of_ne_nil hts.ne_nil
    obtain ⟨u, vs, rfl⟩ := List.exists_cons_of_ne_nil (hts.tail_ne_nil (hsoft htest))
    exact h' t u vs

theorem alike_atNameThen (text : String) : Alike l r (atNameThen text) :=
  soft_atName.alike_and alike_atName fun _ _ _ => rfl

theorem soft_atNameThen (text : String) : Soft (atNameThen text) :=
  soft_atName.and_left

end Cursor

namespace Parser

variable {α β : Type} {l r : Cursor}

/-! ## What is taken from the front -/

/-- What a parser reads, it takes from the front of the tokens. -/
def Onward (p : Parser α) : Prop :=
  ∀ ⦃c a d⦄, p c = .ok (a, d) → ∃ ts, c = d.facing ts

theorem onward_fail (what : String) : Onward (fail what : Parser α) :=
  fun _ _ _ h => nomatch h

theorem onward_pure (a : α) : Onward (pure a : Parser α) := by
  intro c a d h
  obtain ⟨-, rfl⟩ := Prod.mk.inj (Except.ok.inj h)
  exact ⟨[], rfl⟩

theorem onward_token : Onward token := by
  rintro ⟨ahead, finish⟩ parts d h
  cases ahead with
  | nil =>
    obtain ⟨-, rfl⟩ := Prod.mk.inj (Except.ok.inj h)
    exact ⟨[], rfl⟩
  | cons t ts =>
    obtain ⟨-, rfl⟩ := Prod.mk.inj (Except.ok.inj h)
    exact ⟨[t], rfl⟩

theorem Onward.bind {p : Parser α} {k : α → Parser β} (hp : Onward p) (hk : ∀ a, Onward (k a)) :
    Onward (p >>= k) := by
  intro c b e h
  obtain ⟨a, d, ha, hb⟩ := bind_eq_ok h
  obtain ⟨ts, rfl⟩ := hp ha
  obtain ⟨us, rfl⟩ := hk a hb
  exact ⟨ts ++ us, by simp⟩

theorem Onward.ite {test : Cursor → Bool} {p q : Parser α} (hp : Onward p) (hq : Onward q) :
    Onward fun c => if test c then p c else q c := by
  intro c a d h
  dsimp only at h
  split at h
  · exact hp h
  · exact hq h

theorem Onward.append {p q : Piece} (hp : Onward p) (hq : Onward q) : Onward (p ++ q) :=
  hp.bind fun _ => hq.bind fun _ => onward_pure _

theorem Onward.build {kind : Kind} {p : Piece} (hp : Onward p) : Onward (build kind p) :=
  hp.bind fun _ => onward_pure _

theorem Onward.orElse {p q : Parser α} (hp : Onward p) (hq : Onward q) : Onward (orElse p q) :=
  fun _ _ _ h => (orElse_eq_ok h).elim (@hp _ _ _) (@hq _ _ _)

theorem Onward.recover {p q : Parser α} (hp : Onward p) (hq : Onward q) : Onward (recover p q) :=
  fun _ _ _ h => (recover_eq_ok h).elim (@hp _ _ _) (@hq _ _ _)

/-- What was read of a passage, and what is left of it. -/
theorem Onward.split {p : Parser α} (hp : Onward p) {ts us : List Token} {a : α}
    (h : p (l.facing ts) = .ok (a, l.facing us)) : ∃ vs, ts = vs ++ us := by
  obtain ⟨vs, hvs⟩ := hp h
  rw [Cursor.facing_facing] at hvs
  exact ⟨vs, Cursor.facing_inj hvs⟩

/-! ## Groups in brackets -/

/-- A group is read off its own tokens. -/
theorem splitGroup_append {depth : Nat} {ts group rest : List Token} (more : List Token)
    (h : splitGroup depth ts = some (group, rest)) :
    splitGroup depth (group ++ more) = some (group, more) := by
  induction ts generalizing depth group with
  | nil => cases h
  | cons t ts ih =>
    have honward : ∀ {depth : Nat}, ((splitGroup depth ts).map fun split =>
        (t :: split.1, split.2)) = some (group, rest) → ∃ group', group = t :: group' ∧
          splitGroup depth (group' ++ more) = some (group', more) := by
      intro depth h
      obtain ⟨⟨group', rest'⟩, hsplit, heq⟩ := Option.map_eq_some_iff.1 h
      obtain ⟨rfl, rfl⟩ := Prod.mk.inj heq
      exact ⟨group', rfl, ih hsplit⟩
    simp only [splitGroup] at h
    split at h
    · rename_i hopens
      obtain ⟨group', rfl, hmore⟩ := honward h
      simp [splitGroup, hopens, hmore]
    rename_i hopens
    split at h
    · rename_i hcloses
      split at h
      · cases h
      · obtain ⟨rfl, -⟩ := Prod.mk.inj (Option.some.inj h)
        simp [splitGroup, hopens, hcloses]
      · obtain ⟨group', rfl, hmore⟩ := honward h
        simp [splitGroup, hopens, hcloses, hmore]
    · rename_i hcloses
      obtain ⟨group', rfl, hmore⟩ := honward h
      simp [splitGroup, hopens, hcloses, hmore]

/-- Whether an arrow follows a group is seen in the passage that the group is closed in. -/
theorem arrowAfter_append {depth : Nat} {ts group rest : List Token} (more : List Token)
    (h : splitGroup depth ts = some (group, rest)) (hrest : rest ≠ []) :
    arrowAfter depth (ts ++ more) = arrowAfter depth ts := by
  induction ts generalizing depth group with
  | nil => cases h
  | cons t ts ih =>
    have honward : ∀ {depth : Nat}, ((splitGroup depth ts).map fun split =>
        (t :: split.1, split.2)) = some (group, rest) →
          arrowAfter depth (ts ++ more) = arrowAfter depth ts := by
      intro depth h
      obtain ⟨⟨group', rest'⟩, hsplit, heq⟩ := Option.map_eq_some_iff.1 h
      obtain ⟨-, rfl⟩ := Prod.mk.inj heq
      exact ih hsplit
    simp only [splitGroup] at h
    split at h
    · rename_i hopens
      simp [arrowAfter, hopens, honward h]
    rename_i hopens
    split at h
    · rename_i hcloses
      split at h
      · cases h
      · obtain ⟨-, rfl⟩ := Prod.mk.inj (Option.some.inj h)
        obtain ⟨u, us, rfl⟩ := List.exists_cons_of_ne_nil hrest
        simp [arrowAfter, hopens, hcloses]
      · simp [arrowAfter, hopens, hcloses, honward h]
    · rename_i hcloses
      simp [arrowAfter, hopens, hcloses, honward h]

end Parser

end Recast

