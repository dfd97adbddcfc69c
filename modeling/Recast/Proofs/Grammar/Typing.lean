-- SUMMARY: What the grammar reads as a type has the spelling of a type, and what it reads as modifiers are words.
import Recast.Proofs.Grammar.Housing

/-! # Types that were read

The tokens that a production takes are known from the tests that it makes on its way: where the
cursor sees a mark, the next token is that mark. So the tokens of what a production of types reads
are spelled as its construct is (`Grammar.spellsNode_typeOf`), given that the types inside are. -/

namespace Recast

namespace Parser

open Recast.Cursor

/-! ## The tokens of pieces -/

/-- The tokens of what the piece reads at a cursor are of a sort. -/
def SpellsAt (A : List Token → Prop) (p : Piece) (c : Cursor) : Prop :=
  ∀ parts d, p c = .ok (parts, d) → A (Element.tokensIn parts)

/-- The tokens of what the piece reads, wherever it starts, are of a sort. -/
def Spells (A : List Token → Prop) (p : Piece) : Prop :=
  ∀ c, SpellsAt A p c

/-- The tokens of the node that the parser reads are of a sort. -/
def SpellsNode (A : List Token → Prop) (p : Parser Node) : Prop :=
  Gives (fun n => A n.tokens) p

variable {A B C : List Token → Prop} {p q : Piece} {c : Cursor}

theorem SpellsAt.append (hp : SpellsAt A p c) (hq : Spells B q)
    (h : ∀ ts us, A ts → B us → C (ts ++ us)) : SpellsAt C (p ++ q) c := by
  intro parts e hok
  obtain ⟨xs, d, ys, hxs, hys, rfl⟩ := append_eq_ok hok
  rw [Element.tokensIn_append]
  exact h _ _ (hp xs d hxs) (hq d ys e hys)

theorem Spells.append (hp : Spells A p) (hq : Spells B q)
    (h : ∀ ts us, A ts → B us → C (ts ++ us)) : Spells C (p ++ q) :=
  fun c => (hp c).append hq h

/-- The next token is read, and the cursor stands at the one after it. -/
theorem token_reads {parts : List Element} {d : Cursor} (h : token c = .ok (parts, d)) :
    parts = [.token c.current] ∧ d.current = c.nth 1 := by
  obtain ⟨t, e, hbump, h⟩ := bind_eq_ok h
  obtain ⟨rfl, rfl⟩ := Prod.mk.inj (Except.ok.inj h)
  rcases c with ⟨_ | ⟨u, us⟩, finish⟩
  · obtain ⟨rfl, rfl⟩ := Prod.mk.inj (Except.ok.inj hbump)
    exact ⟨rfl, rfl⟩
  · obtain ⟨rfl, rfl⟩ := Prod.mk.inj (Except.ok.inj hbump)
    exact ⟨rfl, rfl⟩

theorem spellsAt_token : SpellsAt (· = [c.current]) token c := by
  intro parts d h
  rw [(token_reads h).1]
  rfl

theorem spellsAt_token_token : SpellsAt (· = [c.current, c.nth 1]) (token ++ token) c := by
  intro parts e h
  obtain ⟨xs, d, ys, hxs, hys, rfl⟩ := append_eq_ok h
  rw [(token_reads hxs).1, (token_reads hys).1, (token_reads hxs).2]
  rfl

theorem spells_mark (text : String) :
    Spells (fun ts => ∃ t, ts = [t] ∧ t.is text = true) (mark text) := by
  intro c parts d h
  simp only [mark] at h
  split at h
  · rename_i hsees
    exact ⟨c.current, spellsAt_token parts d h, hsees⟩
  · cases h

theorem spells_name : Spells (fun ts => ∃ t, ts = [t] ∧ t.kind = .identifier) name := by
  intro c parts d h
  simp only [name] at h
  split at h
  · rename_i hname
    exact ⟨c.current, spellsAt_token parts d h, eq_of_beq hname⟩
  · cases h

theorem spells_nil (h : A []) : Spells A (given []) := by
  intro c parts d hok
  obtain ⟨rfl, rfl⟩ := Prod.mk.inj (Except.ok.inj hok)
  exact h

theorem Spells.ifAt {test : Cursor → Bool} (hp : ∀ c, test c = true → SpellsAt A p c)
    (hq : Spells A q) : Spells A (ifAt test p q) := by
  intro c parts d h
  unfold Parser.ifAt at h
  split at h
  · rename_i htest
    exact hp c htest parts d h
  · exact hq c parts d h

theorem spells_repeatWhile {test : Cursor → Bool} (hp : ∀ c, test c = true → SpellsAt B p c)
    (hnil : A []) (hcons : ∀ ts us, B ts → A us → A (ts ++ us)) :
    Spells A (repeatWhile test p) := by
  have hrounds : ∀ bound, Spells A (rounds test p bound) := by
    intro bound
    induction bound with
    | zero => exact spells_nil hnil
    | succ bound ih =>
      intro c parts d h
      simp only [rounds] at h
      split at h
      · rename_i htest
        exact (hp c htest).append ih hcons parts d h
      · obtain ⟨rfl, rfl⟩ := Prod.mk.inj (Except.ok.inj h)
        exact hnil
  exact fun c => hrounds (c.ahead.length + 1) c

theorem SpellsNode.one {p : Parser Node} (h : SpellsNode A p) : Spells A (one p) := by
  intro c parts d hok
  obtain ⟨n, e, hn, hok⟩ := bind_eq_ok hok
  obtain ⟨rfl, rfl⟩ := Prod.mk.inj (Except.ok.inj hok)
  simpa using h c n e hn

theorem SpellsAt.build (h : SpellsAt A p c) {kind : Kind} {n : Node} {d : Cursor}
    (hok : build kind p c = .ok (n, d)) : A n.tokens := by
  obtain ⟨parts, e, hparts, hok⟩ := bind_eq_ok hok
  obtain ⟨rfl, rfl⟩ := Prod.mk.inj (Except.ok.inj hok)
  exact h parts e hparts

theorem Spells.build (h : Spells A p) (kind : Kind) : SpellsNode A (Parser.build kind p) :=
  fun c _ _ hok => (h c).build hok

/-- A construct that is extended where the cursor stands. -/
theorem spellsNode_grow {next : Extension} {first : Parser Node} (hfirst : SpellsNode A first)
    (hnext : ∀ c kind rest, next c = some (kind, rest) →
      SpellsAt (fun us => ∀ ts, A ts → A (ts ++ us)) rest c) : SpellsNode A (grow next first) := by
  refine KeepsAt.grow (fun c kind rest hsome left hleft n d hok => ?_) hfirst
  obtain ⟨parts, e, hparts, hok⟩ := bind_eq_ok hok
  obtain ⟨rfl, rfl⟩ := Prod.mk.inj (Except.ok.inj hok)
  obtain ⟨xs, d, ys, hxs, hys, rfl⟩ := append_eq_ok hparts
  obtain ⟨rfl, rfl⟩ := Prod.mk.inj (Except.ok.inj hxs)
  have hwhole := hnext _ kind rest hsome ys e hys _ hleft
  simpa [Node.tokens_eq, Node.ofChildren] using hwhole

end Parser

namespace Grammar

open Recast.Parser Recast.Cursor Recast.Token

variable {g : Grammar}

/-! ## Lists -/

/-- Items with commas between them. -/
theorem spells_commaList {item : Piece} {construct : Construct}
    (h : Spells (Spelled construct) item) :
    Spells (Spelled (.list construct)) (commaList item) := by
  -- What follows an item makes a list of it.
  have hmore : Spells (fun us => ∀ ts, Spelled construct ts → Spelled (.list construct) (ts ++ us))
      (repeatWhile (sees ",") (token ++ item)) := by
    have hround : ∀ c, sees "," c = true → SpellsAt (fun ts => ∃ t us, ts = t :: us ∧
        t.is "," = true ∧ Spelled construct us) (token ++ item) c := by
      intro c hcomma
      refine spellsAt_token.append h ?_
      rintro _ us rfl hus
      exact ⟨c.current, us, rfl, hcomma, hus⟩
    refine spells_repeatWhile hround (fun ts hts => ?_) ?_
    · rw [List.append_nil]
      exact .last hts
    · rintro _ vs ⟨t, us, rfl, hcomma, hus⟩ hvs ts hts
      exact .more hts hcomma (hvs us hus)
  exact h.append hmore fun ts us hts hus => hus ts hts

/-- Tokens of a list in brackets. -/
def Enclosed (opening close : String) (construct : Construct) (ts : List Token) : Prop :=
  ∃ t us u, ts = t :: (us ++ [u]) ∧ t.is opening = true ∧ Spelled (.list construct) us ∧
    u.is close = true

theorem spells_enclosed {opening close : String} {item : Piece} {construct : Construct}
    (h : Spells (Spelled construct) item) :
    Spells (Enclosed opening close construct) (mark opening ++ commaList item ++ mark close) := by
  have hopened : Spells (fun ts => ∃ t us, ts = t :: us ∧ t.is opening = true ∧
      Spelled (.list construct) us) (mark opening ++ commaList item) := by
    refine (spells_mark opening).append (spells_commaList h) ?_
    rintro _ us ⟨t, rfl, ht⟩ hus
    exact ⟨t, us, rfl, ht, hus⟩
  refine hopened.append (spells_mark close) ?_
  rintro _ _ ⟨t, us, rfl, ht, hus⟩ ⟨u, rfl, hu⟩
  exact ⟨t, us, u, rfl, ht, hus, hu⟩

section Types

variable (hg : SpellsNode (Spelled .type) g.type)

include hg

/-! ## Names -/

theorem spellsNode_typeArguments : SpellsNode (Enclosed "<" ">" .argument) (typeArguments g) := by
  have hargument : Spells (Spelled .argument)
      (whenAt (fun c => !c.seesAny [",", ">"]) (one g.type)) := by
    refine Spells.ifAt (fun c _ parts d h => ?_) (spells_nil .omitted)
    exact .argument (hg.one c parts d h)
  exact (spells_enclosed hargument).build _

theorem spellsNode_simpleTypeName : SpellsNode (Spelled .simple) (simpleTypeName g) := by
  have hgeneric : SpellsNode (Spelled .simple)
      (build .genericName (name ++ one (typeArguments g))) := by
    refine Spells.build (spells_name.append (spellsNode_typeArguments hg).one ?_) _
    rintro _ _ ⟨t, rfl, ht⟩ ⟨opening, ts, close, rfl, hopening, hts, hclose⟩
    exact .generic ht hopening hts hclose
  have hname : SpellsNode (Spelled .simple) (build .identifierName name) := by
    refine Spells.build (fun c parts d h => ?_) _
    obtain ⟨t, heq, ht⟩ := spells_name c parts d h
    rw [heq]
    exact .name ht
  exact Gives.ifAt hgeneric hname

theorem spellsNode_typeName : SpellsNode (Spelled .path) (typeName g) := by
  have hsimple := (spellsNode_simpleTypeName hg).one
  refine spellsNode_grow (fun c n d hok => ?_) fun c kind rest hnext => ?_
  · unfold Parser.ifAt at hok
    split at hok
    · rename_i hname
      obtain ⟨hkind, hcolons⟩ := Bool.and_eq_true_iff.1 hname
      refine (SpellsAt.append spellsAt_token_token hsimple ?_).build hok
      rintro _ us rfl hus
      exact .aliased (eq_of_beq hkind) hcolons hus
    · exact .plain (spellsNode_simpleTypeName hg c n d hok)
  · split at hnext
    · rename_i hdotted
      obtain ⟨rfl, rfl⟩ := Prod.mk.inj (Option.some.inj hnext)
      refine spellsAt_token.append hsimple ?_
      rintro _ us rfl hus ts hts
      exact .qualified hts (Bool.and_eq_true_iff.1 hdotted).1 hus
    · cases hnext

/-! ## Types -/

theorem spellsNode_tupleType : SpellsNode (Spelled .stem) (tupleType g) := by
  have helement : Spells (Spelled .element) (one (build .tupleElement
      (one g.type ++ whenAt atName token))) := by
    have hlabel : Spells (fun ts => ts = [] ∨ ∃ t, ts = [t] ∧ t.kind = .identifier)
        (whenAt atName token) := by
      refine Spells.ifAt (fun c hname parts d h => .inr ?_) (spells_nil (.inl rfl))
      exact ⟨c.current, spellsAt_token parts d h, eq_of_beq hname⟩
    refine (Spells.build (hg.one.append hlabel ?_) _).one
    rintro ts _ hts (rfl | ⟨t, rfl, ht⟩)
    · rw [List.append_nil]
      exact .element hts
    · exact .labelled hts ht
  intro c n d hok
  obtain ⟨opening, ts, close, heq, hopening, hts, hclose⟩ := (spells_enclosed helement).build _ c n d hok
  show Spelled .stem n.tokens
  rw [heq]
  exact .tuple hopening hts hclose

omit hg in
theorem suffix_rank {c : Cursor} (hc : atRank c = true) : SpellsAt Suffix (one rank) c := by
  have hbetween : Spells (fun ts => ∀ t ∈ ts, t.is "," = true) (repeatWhile (sees ",") token) := by
    have hround : ∀ c, sees "," c = true → SpellsAt (fun ts => ∀ t ∈ ts, t.is "," = true) token c := by
      intro c hcomma parts d h
      rw [spellsAt_token parts d h, List.forall_mem_singleton]
      exact hcomma
    exact spells_repeatWhile hround (by simp) fun ts us hts hus => List.forall_mem_append.2 ⟨hts, hus⟩
  have hopened : SpellsAt (fun ts => ∃ us, ts = c.current :: us ∧ ∀ t ∈ us, t.is "," = true)
      (token ++ repeatWhile (sees ",") token) c := by
    refine spellsAt_token.append hbetween ?_
    rintro _ us rfl hus
    exact ⟨us, rfl, hus⟩
  intro parts d h
  obtain ⟨n, e, hn, h⟩ := bind_eq_ok h
  obtain ⟨rfl, rfl⟩ := Prod.mk.inj (Except.ok.inj h)
  have hrank : Suffix n.tokens := by
    refine (hopened.append (spells_mark "]") ?_).build hn
    rintro _ _ ⟨us, rfl, hus⟩ ⟨close, rfl, hclose⟩
    exact .rank (Bool.and_eq_true_iff.1 hc).1 hus hclose
  simpa using hrank

omit hg in
/-- A type that already has suffixes gets more of them. -/
theorem Spelled.append_suffixes {ts : List Token} (h : Spelled .type ts)
    {suffixes : List (List Token)} (hsuffixes : ∀ s ∈ suffixes, Suffix s) :
    Spelled .type (ts ++ suffixes.flatten) := by
  cases h with
  | @suffixed ts first hstem hfirst =>
    rw [List.append_assoc, ← List.flatten_append]
    exact .suffixed hstem (List.forall_mem_append.2 ⟨hfirst, hsuffixes⟩)

theorem spellsNode_typeOf : SpellsNode (Spelled .type) (typeOf g) := by
  refine spellsNode_grow (fun c n d hok => ?_) fun c kind rest hnext => ?_
  · -- A type without suffixes is a stem.
    have hstem : Spelled .stem n.tokens := by
      split at hok
      · exact spellsNode_tupleType hg c n d hok
      · split at hok
        · rename_i hkeyword
          refine SpellsAt.build (fun parts d h => ?_) hok
          rw [spellsAt_token parts d h]
          exact .predefined hkeyword
        · exact .named (spellsNode_typeName hg c n d hok)
    simpa using Spelled.suffixed hstem (List.forall_mem_nil Suffix)
  · simp only [typeSuffix] at hnext
    split at hnext
    · rename_i hmark
      obtain ⟨rfl, rfl⟩ := Prod.mk.inj (Option.some.inj hnext)
      intro parts d h ts hts
      rw [spellsAt_token parts d h]
      have hsuffix : ∀ s ∈ [[c.current]], Suffix s := by simpa using Suffix.nullable hmark
      exact hts.append_suffixes hsuffix
    · split at hnext
      · obtain ⟨rfl, rfl⟩ := Prod.mk.inj (Option.some.inj hnext)
        have hranks : Spells (fun ts => ∃ suffixes : List (List Token), ts = suffixes.flatten ∧
            ∀ s ∈ suffixes, Suffix s) (repeatWhile atRank (one rank)) := by
          refine spells_repeatWhile (fun c hc => suffix_rank hc) ⟨[], rfl, by simp⟩ ?_
          rintro ts _ hts ⟨suffixes, rfl, hsuffixes⟩
          exact ⟨ts :: suffixes, rfl, List.forall_mem_cons.2 ⟨hts, hsuffixes⟩⟩
        intro parts d h ts hts
        obtain ⟨suffixes, heq, hsuffixes⟩ := hranks c parts d h
        rw [heq]
        exact hts.append_suffixes hsuffixes
      · cases hnext

end Types

/-! ## Modifiers -/

theorem isWord_of_atModifier {reserved contextual : List String} {c : Cursor}
    (h : atModifier reserved contextual c = true) : c.current.isWord = true := by
  unfold atModifier at h
  split at h
  · rename_i hkind
    simp only [isWord, hkind]
  · rename_i hkind
    simp only [isWord, hkind]
  · cases h

theorem gives_isModifiers (reserved contextual : List String) :
    Gives Node.IsModifiers (modifiers reserved contextual) := by
  have hwords : ∀ bound, Gives (fun parts => ∀ e ∈ parts, ∃ t, e = .token t ∧ t.isWord = true)
      (rounds (atModifier reserved contextual) token bound) := by
    intro bound
    induction bound with
    | zero => exact gives_pure (by simp)
    | succ bound ih =>
      intro c parts d h
      simp only [rounds] at h
      split at h
      · rename_i hword
        obtain ⟨xs, e, ys, hxs, hys, rfl⟩ := append_eq_ok h
        rw [(token_reads hxs).1]
        refine List.forall_mem_append.2 ⟨?_, ih e ys d hys⟩
        simpa using isWord_of_atModifier hword
      · obtain ⟨rfl, rfl⟩ := Prod.mk.inj (Except.ok.inj h)
        simp
  intro c n d h
  obtain ⟨parts, e, hparts, h⟩ := bind_eq_ok h
  obtain ⟨rfl, rfl⟩ := Prod.mk.inj (Except.ok.inj h)
  exact ⟨rfl, hwords _ c parts e hparts⟩

end Grammar

end Recast
