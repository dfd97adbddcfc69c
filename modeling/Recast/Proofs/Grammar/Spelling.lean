-- SUMMARY: How the tokens of a type are spelled, and that tokens spelled so are read as a type again, in front of anything that does not go on with the type.
import Recast.Grammar.Fragment
import Recast.Proofs.Grammar.Reading
import Recast.Proofs.Source.Rescanning

/-! # The spelling of types

A type is read without regard to what it stands in, up to the next token. So what its tokens are
(`Grammar.Spelled`) suffices to read it again somewhere else: in front of a token that no part of
a type starts with, and at any depth of nesting that its tokens need (`Grammar.Spelled.rereads`).
The proof is by induction on the spelling, with one rule for each combinator of parsers
(`Grammar.Rereads`). -/

namespace Recast

namespace Token

/-- No word looks like a mark of types. -/
def Sane (t : Token) : Prop :=
  t.isWord = true → t.text ∉ typeMarks

/-- The same tokens but for trivia and places, none of which looks like another. -/
structure Like (ts us : List Token) : Prop where
  bare_eq : us.map bare = ts.map bare
  sane : ∀ u ∈ us, u.Sane

variable {t u : Token} {ts ts' us : List Token}

theorem is_of_bare (h : u.bare = t.bare) (text : String) : u.is text = t.is text := by
  obtain ⟨hkind, htext⟩ := Prod.mk.inj h
  simp only [is, isWord, hkind, htext]

theorem is_eq_false {text : String} (h : t.text ≠ text) : t.is text = false :=
  Bool.eq_false_iff.2 fun his => h (text_of_is his)

theorem Like.nil (h : Like [] us) : us = [] :=
  List.map_eq_nil_iff.1 h.bare_eq

theorem Like.append (h : Like (ts ++ ts') us) :
    ∃ vs ws, us = vs ++ ws ∧ Like ts vs ∧ Like ts' ws := by
  have hsplit := h.bare_eq
  rw [List.map_append] at hsplit
  obtain ⟨vs, ws, rfl, hvs, hws⟩ := List.map_eq_append_iff.1 hsplit
  exact ⟨vs, ws, rfl, ⟨hvs, fun u hu => h.sane u (List.mem_append_left _ hu)⟩,
    ⟨hws, fun u hu => h.sane u (List.mem_append_right _ hu)⟩⟩

theorem Like.cons (h : Like (t :: ts) us) :
    ∃ u vs, us = u :: vs ∧ u.bare = t.bare ∧ u.Sane ∧ Like ts vs := by
  obtain ⟨u, vs, rfl, hu, hvs⟩ := List.map_eq_cons_iff.1 h.bare_eq
  exact ⟨u, vs, rfl, hu, h.sane u (List.mem_cons_self ..),
    ⟨hvs, fun v hv => h.sane v (List.mem_cons_of_mem _ hv)⟩⟩

theorem Like.length_eq (h : Like ts us) : us.length = ts.length := by
  have hlength := congrArg List.length h.bare_eq
  rwa [List.length_map, List.length_map] at hlength

/-- A mark of types is no word. -/
theorem Sane.kind_ne {text : String} (h : u.Sane) (his : u.is text = true)
    (htext : text ∈ typeMarks) : u.kind ≠ .identifier := by
  intro hkind
  have hword : u.isWord = true := by simp only [isWord, hkind]
  exact h hword (text_of_is his ▸ htext)

theorem Sane.text_ne {text : String} (h : u.Sane) (hkind : u.kind = .identifier)
    (htext : text ∈ typeMarks) : u.text ≠ text := by
  rintro rfl
  have hword : u.isWord = true := by simp only [isWord, hkind]
  exact h hword htext

/-- A token of a text, but for the one that ends it, is read somewhere. -/
theorem exists_lexes {source : String} (h : scan source = .ok ts) (ht : t ∈ ts)
    (hkind : t.kind ≠ .endOfFile) : ∃ rest, t.Lexes rest := by
  obtain ⟨before, after, rfl⟩ := List.append_of_mem ht
  obtain ⟨_, _, _, _, hinside, -, -⟩ := exists_scanFrom_of_scan (by simp) h
  have hafter : after ≠ [] := by
    rintro rfl
    obtain ⟨init, trivia, stop, heq, -⟩ := (scanned_of_scan h).finish
    obtain ⟨-, rfl⟩ := List.append_singleton_inj.1 heq
    exact hkind rfl
  obtain ⟨_, _, _, _, -, hreads, -, -⟩ := scanFrom_eq_ok_cons hinside hafter
  exact ⟨_, hreads.lexes⟩

/-- A word of a text is read somewhere. -/
theorem exists_lexes_of_word {source : String} (h : scan source = .ok ts) (ht : t ∈ ts)
    (hword : t.isWord = true) : ∃ rest, t.Lexes rest := by
  refine exists_lexes h ht fun hkind => ?_
  simp [isWord, hkind] at hword

/-- A word of a text is read by itself too. -/
theorem lexes_nil_of_word {source : String} (h : scan source = .ok ts) (ht : t ∈ ts)
    (hword : t.isWord = true) : t.Lexes [] := by
  obtain ⟨rest, hlexes⟩ := exists_lexes_of_word h ht hword
  obtain ⟨first, c, more, hfirst, hc, hmore, -, htext, hkind⟩ := hlexes.exists_name hword
  exact lexes_of_name hfirst hc hmore nofun htext hkind

end Token

namespace Grammar

open Recast.Parser Recast.Cursor Recast.Token

/-! ## Spelling -/

/-- The parts that types are made of. -/
inductive Construct where
  /-- An identifier, perhaps with type arguments. -/
  | simple
  /-- A name that may be qualified. -/
  | path
  /-- A type without its suffixes. -/
  | stem
  | type
  /-- A type argument, which may be left out. -/
  | argument
  /-- An element of a tuple, which may have a name. -/
  | element
  /-- Several of these with commas between them. -/
  | list (item : Construct)
  deriving DecidableEq

/-- A suffix of a type: a question mark, or brackets with commas in them. -/
inductive Suffix : List Token → Prop where
  | nullable {t : Token} (mark : t.is "?" = true) : Suffix [t]
  | rank {opening close : Token} {commas : List Token} (opens : opening.is "[" = true)
      (between : ∀ t ∈ commas, t.is "," = true) (closes : close.is "]" = true) :
      Suffix (opening :: (commas ++ [close]))

/-- The tokens of a part of a type. -/
inductive Spelled : Construct → List Token → Prop where
  | name {t : Token} (kind : t.kind = .identifier) : Spelled .simple [t]
  | generic {t opening close : Token} {ts : List Token} (kind : t.kind = .identifier)
      (opens : opening.is "<" = true) (arguments : Spelled (.list .argument) ts)
      (closes : close.is ">" = true) : Spelled .simple (t :: opening :: (ts ++ [close]))
  | plain {ts : List Token} (simple : Spelled .simple ts) : Spelled .path ts
  | aliased {t colons : Token} {ts : List Token} (kind : t.kind = .identifier)
      (mark : colons.is "::" = true) (simple : Spelled .simple ts) :
      Spelled .path (t :: colons :: ts)
  | qualified {dot : Token} {ts us : List Token} (left : Spelled .path ts)
      (mark : dot.is "." = true) (right : Spelled .simple us) : Spelled .path (ts ++ dot :: us)
  | predefined {t : Token} (keyword : isPredefinedType t = true) : Spelled .stem [t]
  | tuple {opening close : Token} {ts : List Token} (opens : opening.is "(" = true)
      (elements : Spelled (.list .element) ts) (closes : close.is ")" = true) :
      Spelled .stem (opening :: (ts ++ [close]))
  | named {ts : List Token} (path : Spelled .path ts) : Spelled .stem ts
  | suffixed {ts : List Token} {suffixes : List (List Token)} (stem : Spelled .stem ts)
      (each : ∀ s ∈ suffixes, Suffix s) : Spelled .type (ts ++ suffixes.flatten)
  | omitted : Spelled .argument []
  | argument {ts : List Token} (type : Spelled .type ts) : Spelled .argument ts
  | element {ts : List Token} (type : Spelled .type ts) : Spelled .element ts
  | labelled {t : Token} {ts : List Token} (type : Spelled .type ts)
      (label : t.kind = .identifier) : Spelled .element (ts ++ [t])
  | last {item : Construct} {ts : List Token} (one : Spelled item ts) : Spelled (.list item) ts
  | more {item : Construct} {comma : Token} {ts us : List Token} (one : Spelled item ts)
      (mark : comma.is "," = true) (others : Spelled (.list item) us) :
      Spelled (.list item) (ts ++ comma :: us)

/-! ## Reading again -/

/-- The parser reads the tokens, or others like them, in front of tokens of a sort. -/
def Rereads {α : Type} (F : Token → Prop) (p : Parser α) (ts : List Token) : Prop :=
  ∀ us rest finish, Like ts us → F (Cursor.mk rest finish).current →
    ∃ a, p ⟨us ++ rest, finish⟩ = .ok (a, ⟨rest, finish⟩)

section Rules

variable {α : Type} {F F' : Token → Prop} {p q : Piece} {r : Parser α} {t : Token}
  {ts us : List Token}

theorem Rereads.mono (h : Rereads F r ts) (hfollow : ∀ t, F' t → F t) :
    Rereads F' r ts :=
  fun vs rest finish hvs hnext => h vs rest finish hvs (hfollow _ hnext)

/-- What follows the first piece is the start of the second, or follows both. -/
theorem Rereads.append (hp : Rereads F p ts) (hq : Rereads F' q us)
    (hlink : ∀ vs rest finish, Like us vs → F' (Cursor.mk rest finish).current →
      F (Cursor.mk (vs ++ rest) finish).current) : Rereads F' (p ++ q) (ts ++ us) := by
  intro vs rest finish hvs hnext
  obtain ⟨first, second, rfl, hfirst, hsecond⟩ := hvs.append
  obtain ⟨xs, hxs⟩ := hp first (second ++ rest) finish hfirst (hlink second rest finish hsecond hnext)
  obtain ⟨ys, hys⟩ := hq second rest finish hsecond hnext
  refine ⟨xs ++ ys, ?_⟩
  rw [List.append_assoc]
  exact append_eq hxs hys

theorem Rereads.append_cons (hp : Rereads F p ts) (hq : Rereads F' q (t :: us))
    (hlink : ∀ u : Token, u.bare = t.bare → u.Sane → F u) :
    Rereads F' (p ++ q) (ts ++ t :: us) := by
  refine hp.append hq fun vs rest finish hvs _ => ?_
  obtain ⟨u, ws, rfl, hu, hsane, -⟩ := hvs.cons
  exact hlink u hu hsane

theorem rereads_nil : Rereads F (given []) [] := by
  intro vs rest finish hvs _
  obtain rfl := hvs.nil
  exact ⟨[], rfl⟩

theorem rereads_token (t : Token) : Rereads F token [t] := by
  intro vs rest finish hvs _
  obtain ⟨_, ws, rfl, -, -, hws⟩ := hvs.cons
  obtain rfl := hws.nil
  exact ⟨_, rfl⟩

/-- A token that passes the test of a parser. -/
theorem rereads_single {T : Token → Bool} {what : String}
    (htest : ∀ u : Token, u.bare = t.bare → T u = true) :
    Rereads F (fun c => if T c.current then token c else .error (c.refusal what)) [t] := by
  intro vs rest finish hvs hnext
  obtain ⟨u, ws, rfl, hu, -, hws⟩ := hvs.cons
  obtain rfl := hws.nil
  exact ⟨[.token u], if_pos (htest u hu)⟩

theorem rereads_mark {text : String} (h : t.is text = true) : Rereads F (mark text) [t] :=
  rereads_single fun _ hu => (is_of_bare hu text).trans h

theorem rereads_name (h : t.kind = .identifier) : Rereads F name [t] := by
  refine rereads_single (T := fun u => u.kind == .identifier) fun _ hu => ?_
  rw [(Prod.mk.inj hu).1, h]
  rfl

theorem Rereads.build (h : Rereads F p ts) (kind : Kind) :
    Rereads F (Parser.build kind p) ts := by
  intro vs rest finish hvs hnext
  obtain ⟨parts, hparts⟩ := h vs rest finish hvs hnext
  exact ⟨_, build_eq hparts⟩

theorem Rereads.one {r : Parser Node} (h : Rereads F r ts) : Rereads F (one r) ts := by
  intro vs rest finish hvs hnext
  obtain ⟨n, hn⟩ := h vs rest finish hvs hnext
  refine ⟨[.node n], ?_⟩
  simp only [Parser.one, bind, StateT.bind, Except.bind, hn]
  rfl

/-- A parser, where a test of the next token leads to it. -/
theorem Rereads.ifAt {test : Cursor → Bool} {r r' : Parser α} {b : Bool}
    (h : Rereads F (if b then r else r') ts)
    (htest : ∀ vs rest finish, Like ts vs → F (Cursor.mk rest finish).current →
      test ⟨vs ++ rest, finish⟩ = b) : Rereads F (Parser.ifAt test r r') ts := by
  intro vs rest finish hvs hnext
  obtain ⟨a, ha⟩ := h vs rest finish hvs hnext
  refine ⟨a, ?_⟩
  rw [Parser.ifAt, htest vs rest finish hvs hnext]
  cases b with
  | true => exact ha
  | false => exact ha

/-- Rounds of a piece, each of which starts with a comma. -/
theorem rereads_rounds {stop : Token → Prop} {others : List (Token × List Token)}
    (hothers : ∀ x ∈ others, x.1.is "," = true ∧ Rereads F p (x.1 :: x.2))
    (hcomma : ∀ u : Token, u.Sane → u.is "," = true → F u)
    (hstop : ∀ u, stop u → u.is "," = false ∧ F u) {bound : Nat}
    (hbound : others.length ≤ bound) :
    Rereads stop (rounds (sees ",") p bound) (others.flatMap fun x => x.1 :: x.2) := by
  induction others generalizing bound with
  | nil =>
    intro vs rest finish hvs hnext
    obtain rfl := hvs.nil
    refine ⟨[], ?_⟩
    cases bound with
    | zero => rfl
    | succ bound => exact if_neg (by rw [sees, List.nil_append, (hstop _ hnext).1]; decide)
  | cons x others ih =>
    obtain ⟨bound, rfl⟩ : ∃ n, bound = n + 1 := ⟨bound - 1, by simp at hbound; omega⟩
    obtain ⟨⟨hmark, hfirst⟩, hothers⟩ := List.forall_mem_cons.1 hothers
    have hrest := ih hothers (Nat.le_of_succ_le_succ hbound)
    -- What follows a round is the comma of the next one, or what stops the rounds.
    have hround : Rereads stop (p ++ rounds (sees ",") p bound)
        (x.1 :: x.2 ++ others.flatMap fun x => x.1 :: x.2) := by
      refine hfirst.append hrest fun vs rest finish hvs hnext => ?_
      cases others with
      | nil =>
        obtain rfl := hvs.nil
        exact (hstop _ hnext).2
      | cons y others =>
        obtain ⟨u, ws, rfl, hu, hsane, -⟩ := hvs.cons
        exact hcomma u hsane ((is_of_bare hu ",").trans (hothers y (List.mem_cons_self ..)).1)
    intro vs rest finish hvs hnext
    obtain ⟨parts, hparts⟩ := hround vs rest finish hvs hnext
    obtain ⟨u, ws, rfl, hu, -, -⟩ := hvs.cons
    refine ⟨parts, (if_pos ?_).trans hparts⟩
    exact (is_of_bare hu ",").trans hmark

theorem length_le_flatMap (others : List (Token × List Token)) :
    others.length ≤ (others.flatMap fun x => x.1 :: x.2).length := by
  induction others with
  | nil => exact Nat.le_refl _
  | cons x others ih =>
    rw [List.flatMap_cons, List.length_append, List.length_cons, List.length_cons]
    omega

theorem rereads_repeated {stop : Token → Prop} {others : List (Token × List Token)}
    (hothers : ∀ x ∈ others, x.1.is "," = true ∧ Rereads F p (x.1 :: x.2))
    (hcomma : ∀ u : Token, u.Sane → u.is "," = true → F u)
    (hstop : ∀ u, stop u → u.is "," = false ∧ F u) :
    Rereads stop (repeatWhile (sees ",") p) (others.flatMap fun x => x.1 :: x.2) := by
  intro vs rest finish hvs hnext
  refine rereads_rounds hothers hcomma hstop ?_ vs rest finish hvs hnext
  have hlength := length_le_flatMap others
  rw [← hvs.length_eq] at hlength
  simp only [List.length_append]
  omega

theorem Rereads.commaList {stop : Token → Prop} {others : List (Token × List Token)}
    (hfirst : Rereads F p ts)
    (hothers : ∀ x ∈ others, x.1.is "," = true ∧ Rereads F p x.2)
    (hcomma : ∀ u : Token, u.Sane → u.is "," = true → F u)
    (hstop : ∀ u, stop u → u.is "," = false ∧ F u) :
    Rereads stop (Parser.commaList p) (ts ++ others.flatMap fun x => x.1 :: x.2) := by
  have hrounds : ∀ x ∈ others, x.1.is "," = true ∧ Rereads F (token ++ p) (x.1 :: x.2) := by
    intro x hx
    obtain ⟨hmark, hitem⟩ := hothers x hx
    exact ⟨hmark, (rereads_token (F := fun _ => True) x.1).append hitem fun _ _ _ _ _ => trivial⟩
  refine hfirst.append (rereads_repeated hrounds hcomma hstop) fun vs rest finish hvs hnext => ?_
  cases others with
  | nil =>
    obtain rfl := hvs.nil
    exact (hstop _ hnext).2
  | cons x others =>
    obtain ⟨u, ws, rfl, hu, hsane, -⟩ := hvs.cons
    exact hcomma u hsane ((is_of_bare hu ",").trans (hothers x (List.mem_cons_self ..)).1)

end Rules

/-! ## Starts of types -/

/-- A type may start with the token. -/
def Opens (t : Token) : Prop :=
  t.kind = .identifier ∨ isPredefinedType t = true ∨ t.is "(" = true

/-- What a construct starts with. -/
def Construct.opening : Construct → Token → Prop
  | .simple | .path => fun t => t.kind = .identifier
  | .stem | .type => Opens
  | _ => fun _ => True

/-- Constructs that are never empty start with a token of their sort. -/
theorem Spelled.head {construct : Construct} {ts : List Token} (h : Spelled construct ts) :
    construct ∈ [.simple, .path, .stem, .type] →
      ∃ t us, ts = t :: us ∧ construct.opening t := by
  induction h with
  | name kind => exact fun _ => ⟨_, _, rfl, kind⟩
  | generic kind => exact fun _ => ⟨_, _, rfl, kind⟩
  | plain _ ih => exact fun _ => ih (by decide)
  | aliased kind => exact fun _ => ⟨_, _, rfl, kind⟩
  | qualified _ _ _ ih =>
    intro _
    obtain ⟨t, us, rfl, ht⟩ := ih (by decide)
    exact ⟨t, _, rfl, ht⟩
  | predefined keyword => exact fun _ => ⟨_, _, rfl, .inr (.inl keyword)⟩
  | tuple opens => exact fun _ => ⟨_, _, rfl, .inr (.inr opens)⟩
  | named _ ih =>
    intro _
    obtain ⟨t, us, rfl, ht⟩ := ih (by decide)
    exact ⟨t, us, rfl, .inl ht⟩
  | suffixed _ _ ih =>
    intro _
    obtain ⟨t, us, rfl, ht⟩ := ih (by decide)
    exact ⟨t, _, rfl, ht⟩
  | _ => exact fun hmem => by simp at hmem

/-! ## Growth -/

section Growth

variable {next : Extension} {first : Parser Node} {left : Node} {c d : Cursor}

theorem grow_eq (h : first c = .ok (left, d)) :
    grow next first c = growths next (d.ahead.length + 1) left d := by
  simp only [grow, bind, StateT.bind, Except.bind, h]
  rfl

theorem growths_of_none (h : next c = none) (bound : Nat) :
    growths next bound left c = .ok (left, c) := by
  cases bound with
  | zero => rfl
  | succ bound =>
    simp only [growths, bind, StateT.bind, Except.bind, extend, h]
    rfl

theorem growths_of_some {kind : Kind} {rest : Piece} {parts : List Element} (left : Node)
    (h : next c = some (kind, rest)) (hrest : rest c = .ok (parts, d)) (bound : Nat) :
    ∃ whole, growths next (bound + 1) left c = growths next bound whole d := by
  refine ⟨.ofChildren kind ([.node left] ++ parts), ?_⟩
  have hbuild := build_eq (k := kind) (append_eq (p := given [.node left]) rfl hrest)
  simp only [growths, bind, StateT.bind, Except.bind, extend, h, hbuild]
  rfl

end Growth

/-! ## Suffixes -/

/-- What may F a type. -/
def Neutral (t : Token) : Prop :=
  t.text ∉ ["?", "[", ".", "<", "::"]

theorem rereads_rank {opening close : Token} {commas : List Token}
    (hcommas : ∀ t ∈ commas, t.is "," = true) (hclose : close.is "]" = true)
    {F : Token → Prop} : Rereads F rank (opening :: (commas ++ [close])) := by
  have hbetween : Rereads (·.text = "]") (repeatWhile (sees ",") token) commas := by
    have hrounds : Rereads (·.text = "]") (repeatWhile (sees ",") token)
        ((commas.map (·, [])).flatMap fun x => x.1 :: x.2) := by
      refine rereads_repeated (F := fun _ => True) ?_ (fun _ _ _ => trivial) ?_
      · intro x hx
        obtain ⟨t, ht, rfl⟩ := List.mem_map.1 hx
        exact ⟨hcommas t ht, rereads_token t⟩
      · intro u hu
        refine ⟨Bool.eq_false_iff.2 fun hcomma => ?_, trivial⟩
        rw [text_of_is hcomma] at hu
        exact absurd hu (by decide)
    rwa [List.flatMap_map, List.flatMap_singleton'] at hrounds
  have hparts : Rereads F (token ++ repeatWhile (sees ",") token ++ mark "]")
      (opening :: commas ++ [close]) := by
    have hopened := (rereads_token (F := fun _ => True) opening).append hbetween
      fun _ _ _ _ _ => trivial
    refine hopened.append_cons (rereads_mark hclose) fun u hu _ => ?_
    exact text_of_is ((is_of_bare hu _).trans hclose)
  exact hparts.build _

theorem atRank_eq_true {opening close : Token} {commas us : List Token}
    (hopening : opening.is "[" = true) (hcommas : ∀ t ∈ commas, t.is "," = true)
    (hclose : close.is "]" = true) (hus : Like (opening :: (commas ++ [close])) us)
    (rest : List Token) (finish : Token) : atRank ⟨us ++ rest, finish⟩ = true := by
  obtain ⟨u, vs, rfl, hu, -, hvs⟩ := hus.cons
  have hsecond : ∃ v ws, vs = v :: ws ∧ (v.is "]" || v.is ",") = true := by
    cases commas with
    | nil =>
      obtain ⟨v, ws, rfl, hv, -, -⟩ := hvs.cons
      exact ⟨v, ws, rfl, by rw [is_of_bare hv, hclose]; rfl⟩
    | cons comma commas =>
      obtain ⟨v, ws, rfl, hv, -, -⟩ := hvs.cons
      exact ⟨v, ws, rfl, by rw [is_of_bare hv ",", hcommas comma (List.mem_cons_self ..), Bool.or_true]⟩
  obtain ⟨v, ws, rfl, hv⟩ := hsecond
  exact Bool.and_eq_true_iff.2 ⟨(is_of_bare hu _).trans hopening, hv⟩

/-- Where the next token is no opening bracket, there are no ranks. -/
theorem atRank_eq_false {c : Cursor} (h : c.current.text ≠ "[") : atRank c = false := by
  refine Bool.and_eq_false_iff.2 (.inl (Bool.eq_false_iff.2 fun hopens => h ?_))
  exact text_of_is hopens

/-- Some of the suffixes are read as ranks, the first one at least if it is one. -/
theorem rounds_atRank {suffixes : List (List Token)} (hsuffixes : ∀ s ∈ suffixes, Suffix s)
    {us rest : List Token} {finish : Token} (hus : Like suffixes.flatten us)
    (hrest : Neutral (Cursor.mk rest finish).current) (bound : Nat) :
    ∃ parts k vs, rounds atRank (one rank) bound ⟨us ++ rest, finish⟩ =
        .ok (parts, ⟨vs ++ rest, finish⟩) ∧ Like (suffixes.drop k).flatten vs ∧
      (bound ≠ 0 → atRank ⟨us ++ rest, finish⟩ = true → k ≠ 0) := by
  induction bound generalizing suffixes us with
  | zero => exact ⟨[], 0, us, rfl, hus, fun h => absurd rfl h⟩
  | succ bound ih =>
    cases hrank : atRank ⟨us ++ rest, finish⟩ with
    | false =>
      refine ⟨[], 0, us, if_neg (by rw [hrank]; decide), hus, fun _ h => ?_⟩
      cases h
    | true =>
      cases suffixes with
      | nil =>
        obtain rfl := hus.nil
        rw [List.nil_append, atRank_eq_false fun h => hrest (by rw [h]; decide)] at hrank
        cases hrank
      | cons s suffixes =>
        obtain ⟨hs, hothers⟩ := List.forall_mem_cons.1 hsuffixes
        rw [List.flatten_cons] at hus
        obtain ⟨vs, ws, rfl, hvs, hws⟩ := hus.append
        -- A question mark stops the rounds, a rank takes one of them.
        cases hs with
        | nullable hmark =>
          obtain ⟨u, vs, rfl, hu, -, -⟩ := hvs.cons
          have htext : u.text ≠ "[" := by
            rw [text_of_is ((is_of_bare hu _).trans hmark)]
            decide
          rw [atRank_eq_false (by exact htext)] at hrank
          cases hrank
        | rank hopens hbetween hcloses =>
          obtain ⟨xs, hxs⟩ := (rereads_rank (F := fun _ => True) hbetween hcloses).one vs
            (ws ++ rest) finish hvs trivial
          obtain ⟨ys, k, vs', hys, hvs', -⟩ := ih hothers hws
          refine ⟨xs ++ ys, k + 1, vs', (if_pos hrank).trans ?_, hvs', fun _ _ => Nat.succ_ne_zero k⟩
          rw [List.append_assoc]
          exact append_eq hxs hys

/-- All suffixes are read. The induction is on their number: each round takes one question mark, or
    some ranks at once. -/
theorem growths_typeSuffix {suffixes : List (List Token)} (hsuffixes : ∀ s ∈ suffixes, Suffix s)
    {us rest : List Token} {finish : Token} (hus : Like suffixes.flatten us)
    (hrest : Neutral (Cursor.mk rest finish).current) {bound : Nat}
    (hbound : suffixes.length < bound) (left : Node) :
    ∃ n, growths typeSuffix bound left ⟨us ++ rest, finish⟩ = .ok (n, ⟨rest, finish⟩) := by
  induction hlength : suffixes.length using Nat.strongRecOn generalizing suffixes us bound left with
  | _ length ih =>
    subst hlength
    obtain ⟨bound, rfl⟩ : ∃ n, bound = n + 1 := ⟨bound - 1, by omega⟩
    cases suffixes with
    | nil =>
      obtain rfl := hus.nil
      refine ⟨left, growths_of_none ?_ _⟩
      have hmark : (Cursor.mk rest finish).sees "?" = false :=
        Bool.eq_false_iff.2 fun h => hrest (by rw [text_of_is h]; decide)
      have hrank : atRank ⟨rest, finish⟩ = false :=
        atRank_eq_false fun h => hrest (by rw [h]; decide)
      simp only [typeSuffix, List.nil_append, hmark, hrank]
      rfl
    | cons s suffixes =>
      obtain ⟨hs, hothers⟩ := List.forall_mem_cons.1 hsuffixes
      cases hs with
      | @nullable t hmark =>
        obtain ⟨u, vs, rfl, hu, -, hvs⟩ := hus.cons
        have hnext : typeSuffix ⟨u :: (vs ++ rest), finish⟩ = some (.nullableType, token) :=
          if_pos ((is_of_bare hu _).trans hmark)
        have htaken : token ⟨u :: (vs ++ rest), finish⟩ = .ok ([.token u], ⟨vs ++ rest, finish⟩) := rfl
        obtain ⟨whole, hwhole⟩ := growths_of_some left hnext htaken bound
        obtain ⟨n, hn⟩ := ih suffixes.length (Nat.lt_succ_self _) hothers hvs
          (Nat.lt_of_succ_lt_succ hbound) whole rfl
        exact ⟨n, hwhole.trans hn⟩
      | rank hopens hbetween hcloses =>
        have hat : atRank ⟨us ++ rest, finish⟩ = true := by
          rw [List.flatten_cons] at hus
          obtain ⟨vs, ws, rfl, hvs, -⟩ := hus.append
          rw [List.append_assoc]
          exact atRank_eq_true hopens hbetween hcloses hvs _ _
        have hnext : typeSuffix ⟨us ++ rest, finish⟩ =
            some (.arrayType, repeatWhile atRank (one rank)) := by
          have hmark : (Cursor.mk (us ++ rest) finish).sees "?" = false := by
            refine Bool.eq_false_iff.2 fun h => ?_
            have hopens := text_of_is (Bool.and_eq_true_iff.1 hat).1
            rw [text_of_is h] at hopens
            exact absurd hopens (by decide)
          simp only [typeSuffix, hmark, hat]
          rfl
        obtain ⟨parts, k, vs, hparts, hvs, hfirst⟩ :=
          rounds_atRank hsuffixes hus hrest ((us ++ rest).length + 1)
        -- At least the rank at hand was taken, so fewer suffixes are left.
        have hk := hfirst (Nat.succ_ne_zero _) hat
        obtain ⟨whole, hwhole⟩ := growths_of_some left hnext hparts bound
        have hshorter : ∀ s : List Token, ((s :: suffixes).drop k).length < (s :: suffixes).length := by
          intro s
          rw [List.length_drop, List.length_cons]
          omega
        obtain ⟨n, hn⟩ := ih _ (hshorter _) (fun s hs => hsuffixes s (List.mem_of_mem_drop hs)) hvs
          (Nat.lt_of_lt_of_le (hshorter _) (Nat.le_of_lt_succ hbound)) whole rfl
        exact ⟨n, hwhole.trans hn⟩

/-! ## Types -/

/-- What may F a name and is part of it. -/
def dotted (g : Grammar) : Extension := fun c =>
  if c.sees "." && (c.nth 1).kind == .identifier then
    some (.qualifiedName, token ++ one (simpleTypeName g))
  else none

/-- A type without its suffixes. -/
def stemOf (g : Grammar) : Parser Node := fun c =>
  if c.sees "(" then tupleType g c
  else if isPredefinedType c.current then build .predefinedType token c
  else typeName g c

/-- A type argument, which may be left out. -/
def argumentOf (g : Grammar) : Piece :=
  whenAt (fun c => !c.seesAny [",", ">"]) (one g.type)

/-- An element of a tuple type. -/
def elementOf (g : Grammar) : Piece :=
  one (build .tupleElement (one g.type ++ whenAt atName token))

/-- What follows a type argument. -/
def EndsArgument (t : Token) : Prop :=
  t.is "," = true ∨ t.is ">" = true

/-- What follows an element of a tuple type. -/
def EndsElement (t : Token) : Prop :=
  (t.is "," = true ∨ t.is ")" = true) ∧ t.kind ≠ .identifier

/-- The tokens of a construct can be read again, at every depth of nesting that they need. A path is
    read up to any token that does not go on with its last name, and may grow from there. -/
def Readable : Construct → List Token → Prop
  | .simple, ts => ∀ j, ts.length ≤ j + 1 →
      Rereads (·.text ≠ "<") (simpleTypeName (nesting j)) ts
  | .path, ts => ∀ j, ts.length ≤ j + 1 → ∀ us rest finish, Like ts us →
      (Cursor.mk rest finish).current.text ∉ ["<", "::"] →
      ∃ left bound, rest.length < bound ∧ typeName (nesting j) ⟨us ++ rest, finish⟩ =
        growths (dotted (nesting j)) bound left ⟨rest, finish⟩
  | .stem, ts => ∀ j, ts.length ≤ j + 1 → Rereads (·.text ∉ [".", "<", "::"]) (stemOf (nesting j)) ts
  | .type, ts => ∀ j, ts.length ≤ j → Rereads Neutral (nesting j).type ts
  | .argument, ts => ∀ j, ts.length ≤ j → Rereads EndsArgument (argumentOf (nesting j)) ts
  | .element, ts => ∀ j, ts.length ≤ j → Rereads EndsElement (elementOf (nesting j)) ts
  | .list item, ts => ∃ first others, ts = first ++ others.flatMap (fun x => x.1 :: x.2) ∧
      Readable item first ∧
      ∀ x ∈ (others : List (Token × List Token)), x.1.is "," = true ∧ Readable item x.2

/-- The name that may grow on its right. -/
def headOf (g : Grammar) : Parser Node :=
  ifAt (atNameThen "::") (build .aliasQualifiedName (token ++ token ++ one (simpleTypeName g)))
    (simpleTypeName g)

theorem length_lt_flatMap {others : List (Token × List Token)} {x : Token × List Token}
    (hx : x ∈ others) : x.2.length < (others.flatMap fun x => x.1 :: x.2).length := by
  obtain ⟨before, after, rfl⟩ := List.append_of_mem hx
  rw [List.flatMap_append, List.flatMap_cons, List.length_append, List.length_append,
    List.length_cons]
  omega

theorem Readable.commaList {item : Construct} {ts : List Token} {j : Nat} {p : Piece}
    {F stop : Token → Prop}
    (hitem : ∀ us, Readable item us → us.length ≤ j → Rereads F p us)
    (h : Readable (.list item) ts) (hj : ts.length ≤ j)
    (hcomma : ∀ u : Token, u.Sane → u.is "," = true → F u)
    (hstop : ∀ u, stop u → u.is "," = false ∧ F u) :
    Rereads stop (Parser.commaList p) ts := by
  obtain ⟨first, others, rfl, hfirst, hothers⟩ := h
  rw [List.length_append] at hj
  refine Rereads.commaList (hitem first hfirst (by omega)) (fun x hx => ?_) hcomma hstop
  have hlength := length_lt_flatMap hx
  exact ⟨(hothers x hx).1, hitem x.2 (hothers x hx).2 (by omega)⟩

theorem readable_name {t : Token} (ht : t.kind = .identifier) : Readable .simple [t] := by
  intro j _
  refine Rereads.ifAt (b := false) ((rereads_name ht).build _) fun us rest finish hus hnext => ?_
  obtain ⟨u, vs, rfl, -, -, hvs⟩ := hus.cons
  obtain rfl := hvs.nil
  exact is_eq_false hnext

theorem readable_generic {t opening close : Token} {ts : List Token} (ht : t.kind = .identifier)
    (hopening : opening.is "<" = true) (hts : Readable (.list .argument) ts)
    (hclose : close.is ">" = true) : Readable .simple (t :: opening :: (ts ++ [close])) := by
  intro j hj
  simp only [List.length_append, List.length_cons] at hj
  -- The arguments end at the closing bracket, which is no comma.
  have hlist : Rereads (·.is ">" = true) (commaList (argumentOf (nesting j))) ts := by
    refine hts.commaList (F := EndsArgument) (fun us (hus : Readable .argument us) => hus j)
      (by omega)
      (fun u _ hcomma => .inl hcomma) fun u hu => ⟨is_eq_false ?_, .inr hu⟩
    rw [text_of_is hu]
    decide
  have hopened : Rereads (·.is ">" = true) (mark "<" ++ commaList (argumentOf (nesting j)))
      (opening :: ts) :=
    (rereads_mark (F := fun _ => True) hopening).append hlist fun _ _ _ _ _ => trivial
  have harguments : Rereads (·.text ≠ "<") (typeArguments (nesting j)) (opening :: (ts ++ [close])) :=
    (hopened.append_cons (rereads_mark hclose) fun u hu _ => (is_of_bare hu _).trans hclose).build _
  have hname : Rereads (·.text ≠ "<") (name ++ one (typeArguments (nesting j)))
      (t :: opening :: (ts ++ [close])) :=
    (rereads_name (F := fun _ => True) ht).append harguments.one fun _ _ _ _ _ => trivial
  refine Rereads.ifAt (b := true) (hname.build _) fun us rest finish hus _ => ?_
  obtain ⟨u, vs, rfl, -, -, hvs⟩ := hus.cons
  obtain ⟨v, ws, rfl, hv, -, -⟩ := hvs.cons
  exact (is_of_bare hv _).trans hopening

/-! ### Paths -/

theorem rereads_head_of_simple {ts : List Token} (hts : Spelled .simple ts) {j : Nat}
    (h : Rereads (·.text ≠ "<") (simpleTypeName (nesting j)) ts) :
    Rereads (·.text ∉ ["<", "::"]) (headOf (nesting j)) ts := by
  refine Rereads.ifAt (b := false) (h.mono fun t ht heq => ht (by simp [heq])) ?_
  intro us rest finish hus hnext
  refine Bool.and_eq_false_iff.2 (.inr (is_eq_false ?_))
  cases hts with
  | name kind =>
    obtain ⟨u, vs, rfl, -, -, hvs⟩ := hus.cons
    obtain rfl := hvs.nil
    exact fun heq => hnext (List.mem_cons_of_mem _ (List.mem_singleton.2 heq))
  | generic kind opens _ _ =>
    obtain ⟨u, vs, rfl, -, -, hvs⟩ := hus.cons
    obtain ⟨v, ws, rfl, hv, -, -⟩ := hvs.cons
    rw [show Cursor.nth _ 1 = v from rfl, text_of_is ((is_of_bare hv _).trans opens)]
    decide

theorem rereads_head_of_alias {t colons : Token} {ts : List Token} (ht : t.kind = .identifier)
    (hcolons : colons.is "::" = true) {j : Nat}
    (h : Rereads (·.text ≠ "<") (simpleTypeName (nesting j)) ts) :
    Rereads (·.text ∉ ["<", "::"]) (headOf (nesting j)) (t :: colons :: ts) := by
  have htokens : Rereads (fun _ => True) (token ++ token) [t, colons] :=
    (rereads_token (F := fun _ => True) t).append (rereads_token colons) fun _ _ _ _ _ => trivial
  have hparts : Rereads (·.text ∉ ["<", "::"]) (token ++ token ++ one (simpleTypeName (nesting j)))
      ([t, colons] ++ ts) :=
    htokens.append (h.one.mono fun t ht heq => ht (by simp [heq])) fun _ _ _ _ _ => trivial
  refine Rereads.ifAt (b := true) (hparts.build _) fun us rest finish hus _ => ?_
  obtain ⟨u, vs, rfl, hu, -, hvs⟩ := hus.cons
  obtain ⟨v, ws, rfl, hv, -, -⟩ := hvs.cons
  exact Bool.and_eq_true_iff.2 ⟨beq_iff_eq.2 ((Prod.mk.inj hu).1.trans ht),
    (is_of_bare hv _).trans hcolons⟩

theorem readable_path {ts : List Token}
    (h : ∀ j, ts.length ≤ j + 1 → Rereads (·.text ∉ ["<", "::"]) (headOf (nesting j)) ts) :
    Readable .path ts := by
  intro j hj us rest finish hus hnext
  obtain ⟨left, hleft⟩ := h j hj us rest finish hus hnext
  exact ⟨left, _, Nat.lt_succ_self _, grow_eq hleft⟩

theorem readable_qualified {dot : Token} {ts us : List Token} (hts : Readable .path ts)
    (hdot : dot.is "." = true) (hright : Spelled .simple us) (hus : Readable .simple us) :
    Readable .path (ts ++ dot :: us) := by
  intro j hj vs rest finish hvs hnext
  rw [List.length_append, List.length_cons] at hj
  obtain ⟨first, second, rfl, hfirst, hsecond⟩ := hvs.append
  obtain ⟨v, ws, rfl, hv, -, hws⟩ := hsecond.cons
  obtain ⟨left, bound, hbound, hleft⟩ := hts j (by omega) first (v :: (ws ++ rest)) finish hfirst (by
    rw [show Cursor.current _ = v from rfl, text_of_is ((is_of_bare hv _).trans hdot)]
    decide)
  rw [List.length_cons, List.length_append] at hbound
  obtain ⟨bound, rfl⟩ : ∃ n, bound = n + 1 := ⟨bound - 1, by omega⟩
  obtain ⟨n, hn⟩ := (hus j (by omega)).one ws rest finish hws fun heq => hnext (by simp [heq])
  -- The right side starts with an identifier, so the dot is one of the name.
  have hnextDot : dotted (nesting j) ⟨v :: (ws ++ rest), finish⟩ =
      some (.qualifiedName, token ++ one (simpleTypeName (nesting j))) := by
    obtain ⟨t, us, rfl, ht⟩ := hright.head (by decide)
    obtain ⟨w, ws, rfl, hw, -, -⟩ := hws.cons
    have hkind : w.kind = .identifier := (Prod.mk.inj hw).1.trans ht
    exact if_pos (Bool.and_eq_true_iff.2 ⟨(is_of_bare hv _).trans hdot, beq_iff_eq.2 hkind⟩)
  obtain ⟨whole, hwhole⟩ := growths_of_some left (d := ⟨rest, finish⟩) hnextDot
    (append_eq (d := ⟨ws ++ rest, finish⟩) rfl hn) bound
  refine ⟨whole, bound, by omega, ?_⟩
  rw [List.append_assoc]
  exact hleft.trans hwhole

/-! ### Stems and suffixes -/

theorem isPredefinedType_of_bare {t u : Token} (h : u.bare = t.bare) :
    isPredefinedType u = isPredefinedType t := by
  obtain ⟨hkind, htext⟩ := Prod.mk.inj h
  simp only [isPredefinedType, hkind, htext]

theorem text_ne_of_isPredefinedType {t : Token} {text : String} (h : isPredefinedType t = true)
    (htext : text ∈ typeMarks) : t.text ≠ text := by
  have hother : ∀ text ∈ typeMarks, predefinedTypes.contains text = false := by decide
  rintro rfl
  have hcontains := (Bool.and_eq_true_iff.1 h).2
  rw [hother _ htext] at hcontains
  cases hcontains

theorem readable_predefined {t : Token} (ht : isPredefinedType t = true) : Readable .stem [t] := by
  intro j _ us rest finish hus hnext
  obtain ⟨n, hn⟩ := ((rereads_token (F := fun _ => True) t).build .predefinedType) us rest finish
    hus trivial
  refine ⟨n, ?_⟩
  obtain ⟨u, vs, rfl, hu, -, -⟩ := hus.cons
  have hkeyword : isPredefinedType u = true := (isPredefinedType_of_bare hu).trans ht
  have hsees : u.is "(" = false := is_eq_false (text_ne_of_isPredefinedType hkeyword (by decide))
  exact ((if_neg (by rw [sees, show Cursor.current _ = u from rfl, hsees]; decide)).trans
    (if_pos hkeyword)).trans hn

theorem readable_tuple {opening close : Token} {ts : List Token} (hopening : opening.is "(" = true)
    (hts : Readable (.list .element) ts) (hclose : close.is ")" = true) :
    Readable .stem (opening :: (ts ++ [close])) := by
  intro j hj
  simp only [List.length_append, List.length_cons] at hj
  have hlist : Rereads (fun t => t.is ")" = true ∧ t.kind ≠ .identifier)
      (commaList (elementOf (nesting j))) ts := by
    refine hts.commaList (F := EndsElement) (fun us (hus : Readable .element us) => hus j)
      (by omega) (fun u hsane hcomma => ⟨.inl hcomma, hsane.kind_ne hcomma (by decide)⟩)
      fun u hu => ⟨is_eq_false ?_, .inr hu.1, hu.2⟩
    rw [text_of_is hu.1]
    decide
  have hopened : Rereads _ (mark "(" ++ commaList (elementOf (nesting j))) (opening :: ts) :=
    (rereads_mark (F := fun _ => True) hopening).append hlist fun _ _ _ _ _ => trivial
  have htuple : Rereads (·.text ∉ [".", "<", "::"]) (tupleType (nesting j))
      (opening :: (ts ++ [close])) := by
    refine (hopened.append_cons (rereads_mark hclose) fun u hu hsane => ?_).build _
    have hmark := (is_of_bare hu _).trans hclose
    exact ⟨hmark, hsane.kind_ne hmark (by decide)⟩
  intro us rest finish hus hnext
  obtain ⟨n, hn⟩ := htuple us rest finish hus hnext
  obtain ⟨u, vs, rfl, hu, -, -⟩ := hus.cons
  exact ⟨n, (if_pos ((is_of_bare hu _).trans hopening)).trans hn⟩

/-- A path is read as a name in front of what cannot go on with it. -/
theorem Readable.rereads_typeName {ts : List Token} (hts : Readable .path ts) {j : Nat}
    (hj : ts.length ≤ j + 1) :
    Rereads (·.text ∉ [".", "<", "::"]) (typeName (nesting j)) ts := by
  intro us rest finish hus hnext
  obtain ⟨left, bound, -, hleft⟩ := hts j hj us rest finish hus fun hmem =>
    hnext (List.mem_cons_of_mem _ hmem)
  have hstop : dotted (nesting j) ⟨rest, finish⟩ = none := by
    refine if_neg fun h => hnext ?_
    rw [text_of_is (Bool.and_eq_true_iff.1 h).1]
    decide
  exact ⟨left, hleft.trans (growths_of_none hstop bound)⟩

theorem readable_named {ts : List Token} (hpath : Spelled .path ts) (hts : Readable .path ts) :
    Readable .stem ts := by
  intro j hj us rest finish hus hnext
  obtain ⟨left, hname⟩ := hts.rereads_typeName hj us rest finish hus hnext
  refine ⟨left, ?_⟩
  obtain ⟨t, ts, rfl, ht⟩ := hpath.head (by decide)
  obtain ⟨u, vs, rfl, hu, hsane, -⟩ := hus.cons
  have hkind : u.kind = .identifier := (Prod.mk.inj hu).1.trans ht
  have hsees : u.is "(" = false := is_eq_false (hsane.text_ne hkind (by decide))
  have hkeyword : isPredefinedType u = false := by
    rw [isPredefinedType, hkind]
    rfl
  exact ((if_neg (by rw [sees, show Cursor.current _ = u from rfl, hsees]; decide)).trans
    (if_neg (by rw [show Cursor.current _ = u from rfl, hkeyword]; decide))).trans hname

theorem Suffix.exists_cons {s : List Token} (h : Suffix s) :
    ∃ t us, s = t :: us ∧ (t.is "?" = true ∨ t.is "[" = true) := by
  cases h with
  | nullable mark => exact ⟨_, _, rfl, .inl mark⟩
  | rank opens _ _ => exact ⟨_, _, rfl, .inr opens⟩

theorem length_le_flatten {suffixes : List (List Token)} (h : ∀ s ∈ suffixes, Suffix s) :
    suffixes.length ≤ suffixes.flatten.length := by
  induction suffixes with
  | nil => exact Nat.le_refl _
  | cons s suffixes ih =>
    obtain ⟨hs, hothers⟩ := List.forall_mem_cons.1 h
    obtain ⟨t, us, rfl, -⟩ := hs.exists_cons
    have hrest := ih hothers
    rw [List.flatten_cons, List.length_append, List.length_cons, List.length_cons]
    omega

theorem readable_suffixed {ts : List Token} {suffixes : List (List Token)}
    (hstem : Spelled .stem ts) (hts : Readable .stem ts) (hsuffixes : ∀ s ∈ suffixes, Suffix s) :
    Readable .type (ts ++ suffixes.flatten) := by
  intro j hj us rest finish hus hnext
  obtain ⟨t, ts', rfl, -⟩ := hstem.head (by decide)
  rw [List.length_append, List.length_cons] at hj
  obtain ⟨j, rfl⟩ : ∃ n, j = n + 1 := ⟨j - 1, by omega⟩
  obtain ⟨vs, ws, rfl, hvs, hws⟩ := hus.append
  -- The stem does not go on: a suffix starts with a question mark or a bracket.
  have hfollow : (Cursor.mk (ws ++ rest) finish).current.text ∉ [".", "<", "::"] := by
    cases suffixes with
    | nil =>
      obtain rfl := hws.nil
      exact fun hmem => hnext (List.mem_cons_of_mem _ (List.mem_cons_of_mem _ hmem))
    | cons s suffixes =>
      obtain ⟨t, us, rfl, ht⟩ := (hsuffixes s (List.mem_cons_self ..)).exists_cons
      obtain ⟨w, ws, rfl, hw, -, -⟩ := hws.cons
      have htext : w.text = t.text := (Prod.mk.inj hw).2
      rw [show Cursor.current _ = w from rfl, htext]
      rcases ht with ht | ht
      · rw [text_of_is ht]
        decide
      · rw [text_of_is ht]
        decide
  obtain ⟨left, hleft⟩ := hts j (by rw [List.length_cons]; omega) vs (ws ++ rest) finish hvs hfollow
  have hlength : suffixes.length ≤ ws.length := by
    rw [hws.length_eq]
    exact length_le_flatten hsuffixes
  have hbound : suffixes.length < (ws ++ rest).length + 1 := by
    rw [List.length_append]
    omega
  obtain ⟨n, hn⟩ := growths_typeSuffix hsuffixes hws hnext hbound left
  refine ⟨n, ?_⟩
  rw [List.append_assoc]
  exact (grow_eq hleft).trans hn

/-! ### Items of lists -/

theorem readable_omitted : Readable .argument [] := by
  intro j _
  refine Rereads.ifAt (b := false) rereads_nil fun us rest finish hus hnext => ?_
  obtain rfl := hus.nil
  have hseen : (Cursor.mk rest finish).seesAny [",", ">"] = true := by
    rcases hnext with hnext | hnext <;> simp [seesAny, hnext]
  rw [List.nil_append, hseen]
  rfl

theorem readable_argument {ts : List Token} (htype : Spelled .type ts) (hts : Readable .type ts) :
    Readable .argument ts := by
  intro j hj
  have hone : Rereads EndsArgument (one (nesting j).type) ts := by
    refine (hts j hj).one.mono fun t ht => ?_
    unfold Neutral
    rcases ht with ht | ht
    · rw [text_of_is ht]
      decide
    · rw [text_of_is ht]
      decide
  refine Rereads.ifAt (b := true) hone fun us rest finish hus _ => ?_
  obtain ⟨t, ts, rfl, ht⟩ := htype.head (by decide)
  obtain ⟨u, vs, rfl, hu, hsane, -⟩ := hus.cons
  -- A type starts with none of the marks that leave an argument open.
  have hother : ∀ text ∈ [",", ">"], u.is text = false := by
    intro text hmem
    have hmark : text ∈ typeMarks ∧ text ≠ "(" := by
      revert text
      decide
    refine is_eq_false ?_
    rcases ht with ht | ht | ht
    · exact hsane.text_ne ((Prod.mk.inj hu).1.trans ht) hmark.1
    · exact text_ne_of_isPredefinedType ((isPredefinedType_of_bare hu).trans ht) hmark.1
    · rw [text_of_is ((is_of_bare hu _).trans ht)]
      exact hmark.2.symm
  have hunseen : (Cursor.mk (u :: vs ++ rest) finish).seesAny [",", ">"] = false := by
    refine List.any_eq_false.2 fun text hmem => ?_
    rw [show Cursor.current _ = u from rfl, hother text hmem]
    decide
  rw [hunseen]
  rfl

theorem neutral_of_endsElement {t : Token} (h : EndsElement t) : Neutral t := by
  unfold Neutral
  rcases h.1 with h | h
  · rw [text_of_is h]
    decide
  · rw [text_of_is h]
    decide

theorem readable_element {ts : List Token} (hts : Readable .type ts) : Readable .element ts := by
  intro j hj
  have hlabel : Rereads EndsElement (whenAt atName token) [] := by
    refine Rereads.ifAt (b := false) rereads_nil fun us rest finish hus hnext => ?_
    obtain rfl := hus.nil
    exact beq_eq_false_iff_ne.2 hnext.2
  have hparts : Rereads EndsElement (one (nesting j).type ++ whenAt atName token) (ts ++ []) := by
    refine (hts j hj).one.append hlabel fun vs rest finish hvs hnext => ?_
    obtain rfl := hvs.nil
    exact neutral_of_endsElement hnext
  rw [List.append_nil] at hparts
  exact (hparts.build _).one

theorem readable_labelled {t : Token} {ts : List Token} (hts : Readable .type ts)
    (ht : t.kind = .identifier) : Readable .element (ts ++ [t]) := by
  intro j hj
  rw [List.length_append] at hj
  have hlabel : Rereads EndsElement (whenAt atName token) [t] := by
    refine Rereads.ifAt (b := true) (rereads_token t) fun us rest finish hus _ => ?_
    obtain ⟨u, vs, rfl, hu, -, -⟩ := hus.cons
    exact beq_iff_eq.2 ((Prod.mk.inj hu).1.trans ht)
  refine (((hts j (by omega)).one.append_cons hlabel fun u hu hsane => ?_).build _).one
  have hmarks : ∀ text ∈ ["?", "[", ".", "<", "::"], text ∈ typeMarks := by decide
  exact fun hmem => hsane.text_ne ((Prod.mk.inj hu).1.trans ht) (hmarks _ hmem) rfl

/-! ## Reading types again -/

theorem Spelled.readable {construct : Construct} {ts : List Token} (h : Spelled construct ts) :
    Readable construct ts := by
  induction h with
  | name kind => exact readable_name kind
  | generic kind opens _ closes ih => exact readable_generic kind opens ih closes
  | plain simple ih =>
    exact readable_path fun j hj => rereads_head_of_simple simple (ih j hj)
  | aliased kind mark _ ih =>
    refine readable_path fun j hj => rereads_head_of_alias kind mark (ih j ?_)
    rw [List.length_cons, List.length_cons] at hj
    omega
  | qualified _ mark right ih ih' => exact readable_qualified ih mark right ih'
  | predefined keyword => exact readable_predefined keyword
  | tuple opens _ closes ih => exact readable_tuple opens ih closes
  | named path ih => exact readable_named path ih
  | suffixed stem each ih => exact readable_suffixed stem ih each
  | omitted => exact readable_omitted
  | argument type ih => exact readable_argument type ih
  | element _ ih => exact readable_element ih
  | labelled _ label ih => exact readable_labelled ih label
  | last _ ih => exact ⟨_, [], by simp, ih, by simp⟩
  | more _ mark _ ih ih' =>
    obtain ⟨first, others, rfl, hfirst, hothers⟩ := ih'
    exact ⟨_, (_, first) :: others, by simp, ih, List.forall_mem_cons.2 ⟨⟨mark, hfirst⟩, hothers⟩⟩

theorem inType_of_is {t : Token} {text : String} (h : t.is text = true) (htext : text ∈ typeMarks) :
    t.InType := by
  obtain ⟨heq, hkind⟩ := Bool.and_eq_true_iff.1 h
  rcases Bool.or_eq_true_iff.1 hkind with hword | hmark
  · exact .inl hword
  · exact .inr ⟨eq_of_beq hmark, eq_of_beq heq ▸ htext⟩

theorem inType_of_kind {t : Token} (h : t.kind = .identifier ∨ t.kind = .keyword) : t.InType := by
  refine .inl ?_
  rcases h with h | h <;> simp only [isWord, h]

theorem Suffix.inType {s : List Token} (h : Suffix s) : ∀ t ∈ s, t.InType := by
  cases h with
  | nullable mark => simpa using inType_of_is mark (by decide)
  | rank opens between closes =>
    simpa [or_imp, forall_and] using ⟨inType_of_is opens (by decide),
      fun t ht => inType_of_is (between t ht) (by decide), inType_of_is closes (by decide)⟩

/-- Types are made of words and marks. -/
theorem Spelled.inType {construct : Construct} {ts : List Token} (h : Spelled construct ts) :
    ∀ t ∈ ts, t.InType := by
  induction h with
  | name kind => simpa using inType_of_kind (.inl kind)
  | generic kind opens _ closes ih =>
    simpa [or_imp, forall_and] using ⟨inType_of_kind (.inl kind), inType_of_is opens (by decide), ih,
      inType_of_is closes (by decide)⟩
  | aliased kind mark _ ih =>
    simpa [or_imp, forall_and] using
      ⟨inType_of_kind (.inl kind), inType_of_is mark (by decide), ih⟩
  | qualified _ mark _ ih ih' =>
    simpa [or_imp, forall_and] using ⟨ih, inType_of_is mark (by decide), ih'⟩
  | predefined keyword =>
    simpa using inType_of_kind (.inr (eq_of_beq (Bool.and_eq_true_iff.1 keyword).1))
  | tuple opens _ closes ih =>
    simpa [or_imp, forall_and] using
      ⟨inType_of_is opens (by decide), ih, inType_of_is closes (by decide)⟩
  | suffixed _ each ih =>
    refine List.forall_mem_append.2 ⟨ih, fun t ht => ?_⟩
    obtain ⟨s, hs, ht⟩ := List.mem_flatten.1 ht
    exact (each s hs).inType t ht
  | omitted => simp
  | labelled _ label ih => simpa [or_imp, forall_and] using ⟨ih, inType_of_kind (.inl label)⟩
  | more _ mark _ ih ih' =>
    simpa [or_imp, forall_and] using ⟨ih, inType_of_is mark (by decide), ih'⟩
  | plain _ ih | named _ ih | argument _ ih | element _ ih | last _ ih => exact ih

/-- No word of a text looks like a mark of types. -/
theorem sane_of_scan {source : String} {ts : List Token} (h : scan source = .ok ts) :
    ∀ t ∈ ts, t.Sane := by
  intro t ht hword
  obtain ⟨rest, hlexes⟩ := exists_lexes_of_word h ht hword
  obtain ⟨first, c, more, hfirst, hc, -, -, htext, -⟩ := hlexes.exists_name hword
  have hmarks : ∀ text ∈ typeMarks, text.toList.head?.any (fun d =>
      d ≠ '@' ∧ (Text.isLetter d || d == '_') = false) = true := by
    decide
  intro hmem
  obtain ⟨d, hhead, hd⟩ := (Option.any_eq_true _ _).1 (hmarks t.text hmem)
  obtain ⟨hat, hletter⟩ := of_decide_eq_true hd
  rw [htext] at hhead
  rcases hfirst with rfl | rfl
  · obtain rfl := Option.some.inj hhead
    rw [hletter] at hc
    cases hc
  · exact hat (Option.some.inj hhead).symm

theorem Opens.text_ne {t : Token} (h : Opens t) (hsane : t.Sane) : t.text ≠ "<" := by
  rcases h with hkind | hkeyword | hopening
  · exact hsane.text_ne hkind (by decide)
  · exact text_ne_of_isPredefinedType hkeyword (by decide)
  · rw [text_of_is hopening]
    decide

/-- A type in angle brackets is a type. -/
theorem Spelled.wrapped {ts : List Token} (h : Spelled .type ts) {name opening close : Token}
    (hname : name.kind = .identifier) (hopening : opening.is "<" = true)
    (hclose : close.is ">" = true) : Spelled .type (name :: opening :: (ts ++ [close])) := by
  have hgeneric : Spelled .simple (name :: opening :: (ts ++ [close])) :=
    .generic hname hopening (.last (.argument h)) hclose
  simpa using Spelled.suffixed (.named (.plain hgeneric)) (List.forall_mem_nil Suffix)

/-- Tokens that can be read again are read where nothing follows them. -/
theorem exists_readAll {p : Grammar → Parser Node} {F : Token → Prop} {text : String}
    {ts us : List Token} (hp : ∀ j, ts.length ≤ j → Rereads F (p (nesting j)) ts)
    (hend : ∀ t : Token, t.text = "" → F t) (hscan : scan text = .ok us)
    (hus : us.map bare = ts.map bare ++ [(.endOfFile, "")]) : ∃ n, readAll p text = .ok n := by
  obtain ⟨init, last, rfl, hinit, hlast⟩ := List.map_eq_append_iff.1 hus
  obtain ⟨finish, rfl, hfinish⟩ := List.map_eq_singleton_iff.1 hlast
  have hlike : Like ts init :=
    ⟨hinit, fun u hu => sane_of_scan hscan u (List.mem_append_left _ hu)⟩
  have hdepth : ts.length ≤ (init ++ [finish]).length + 1 := by
    rw [List.length_append, hlike.length_eq]
    omega
  obtain ⟨n, hn⟩ := hp _ hdepth init [] finish hlike (hend finish (Prod.mk.inj hfinish).2)
  rw [List.append_nil] at hn
  have hstart : Cursor.ofTokens (init ++ [finish]) = ⟨init, finish⟩ := by
    simp [Cursor.ofTokens]
  refine ⟨n, ?_⟩
  simp only [readAll, readWith, hscan, bind, Except.bind, hstart, hn]
  rfl

/-- Tokens that spell a type are read as one, where nothing follows them. -/
theorem exists_readType {text : String} {ts us : List Token} (hscan : scan text = .ok us)
    (hus : us.map bare = ts.map bare ++ [(.endOfFile, "")]) (hts : Spelled .type ts) :
    ∃ n, Fragment.readType text = .ok n := by
  refine exists_readAll (p := Grammar.type) (F := Neutral) hts.readable (fun t ht => ?_) hscan hus
  unfold Neutral
  rw [ht]
  decide

/-- Tokens that spell a name are read as one, where nothing follows them. -/
theorem exists_readName {text : String} {ts us : List Token} (hscan : scan text = .ok us)
    (hus : us.map bare = ts.map bare ++ [(.endOfFile, "")]) (hts : Spelled .path ts) :
    ∃ n, Fragment.readName text = .ok n := by
  refine exists_readAll (p := typeName) (F := (·.text ∉ [".", "<", "::"]))
    (fun j hj => hts.readable.rereads_typeName (Nat.le_succ_of_le hj)) (fun t ht => ?_) hscan hus
  rw [ht]
  decide

/-- A type that stands in a text can be read again where it is wrapped. -/
theorem exists_readType_wrapped {source : String} {before ts after : List Token}
    (hscan : scan source = .ok (before ++ (ts ++ after))) (hafter : after ≠ [])
    (hts : Spelled .type ts) :
    ∃ n us, Fragment.readType ("Task<" ++ textOf ts ++ ">") = .ok n ∧
      scan ("Task<" ++ textOf ts ++ ">") = .ok us ∧
      us.map bare = (.identifier, "Task") :: (.punctuation, "<") :: enclosed ts := by
  obtain ⟨t, ts, rfl, ht⟩ := hts.head (by decide)
  have hfirst : t.text ≠ "<" := Opens.text_ne ht (sane_of_scan hscan t (by simp))
  obtain ⟨us, hus, hwords⟩ := exists_scan_wrapped hscan hafter hts.inType hfirst
  obtain ⟨n, hn⟩ := exists_readType hus (hwords.trans (by simp [enclosed, bare, Token.ofMark]))
    (hts.wrapped
      (show ({ kind := .identifier, text := "Task" } : Token).kind = .identifier from rfl)
      (show (Token.ofMark "<").is "<" = true from rfl)
      (show (Token.ofMark ">").is ">" = true from rfl))
  exact ⟨n, us, hn, hus, hwords⟩

end Grammar

end Recast
