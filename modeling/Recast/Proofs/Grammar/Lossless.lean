-- SUMMARY: Reading a file or a fragment of one keeps every token, so what was read prints to the text it was read from.
import Recast.Proofs.Grammar.Declarations
import Recast.Proofs.Source.Scanning

/-! # Reading is lossless

The grammar of every depth returns what it takes (`Grammar.sound_nesting`), and a scan of a text
prints to the text (`Token.Scanned`). A file ends with the empty token at the end of its text; the
nodes of a fragment leave that token out, and with it the trivia in front of it. -/

namespace Recast

open Recast.Grammar Recast.Parser

theorem ok_of_bind {ε α β : Type} {x : Except ε α} {f : α → Except ε β} {b : β}
    (h : (x >>= f) = .ok b) : ∃ a, x = .ok a ∧ f a = .ok b := by
  cases x with
  | error e => cases h
  | ok a => exact ⟨a, rfl, h⟩

/-- A run whose result was evaluated goes through. -/
theorem exists_ok_of_map {ε α β : Type} {x : Except ε α} {f : α → β} {b : β}
    (h : x.toOption.map f = some b) : ∃ a, x = .ok a ∧ f a = b := by
  cases x with
  | error e => cases h
  | ok a => exact ⟨a, rfl, Option.some.inj h⟩

theorem toOption_eq_some_iff {ε α : Type} {x : Except ε α} {a : α} :
    x.toOption = some a ↔ x = .ok a := by
  cases x with
  | error e => exact ⟨nofun, nofun⟩
  | ok b => exact ⟨fun h => congrArg _ (Option.some.inj h), fun h => congrArg _ (Except.ok.inj h)⟩

/-- A mapped answer is there when the answer is. -/
theorem ok_of_map {ε α β : Type} {x : Except ε α} {f : α → β} {b : β}
    (h : f <$> x = .ok b) : ∃ a, x = .ok a ∧ f a = b := by
  cases x with
  | error e => cases h
  | ok a => exact ⟨a, rfl, Except.ok.inj h⟩

/-- What a table answers is one of its entries. -/
theorem mem_of_lookup {α β : Type} [BEq α] [LawfulBEq α] {table : List (α × β)} {key : α} {value : β}
    (h : table.lookup key = some value) : (key, value) ∈ table := by
  obtain ⟨before, after, hsplit, -⟩ := List.lookup_eq_some_iff.1 h
  simp [hsplit]

namespace Token.Scanned

variable {source : String} {ts : List Token}

/-- The cursor at the start of a scanned text has all of its tokens ahead but the last, which ends
    the text. -/
theorem cursor_eq (h : Scanned source ts) :
    ∃ trivia stop, ts = (Cursor.ofTokens ts).ahead ++ [endOfText trivia stop] ∧
      (Cursor.ofTokens ts).finish = endOfText trivia stop := by
  obtain ⟨init, trivia, stop, rfl, -⟩ := h.finish
  exact ⟨trivia, stop, by simp [Cursor.ofTokens], by simp [Cursor.ofTokens]⟩

theorem closed (h : Scanned source ts) : (Cursor.ofTokens ts).Closed := by
  obtain ⟨trivia, stop, -, hfinish⟩ := h.cursor_eq
  rw [Cursor.Closed, hfinish]
  rfl

end Token.Scanned

/-! ## Files -/

theorem Grammar.readWith_eq_ok {α : Type} {p : Grammar → Parser α} {source : String} {a : α}
    {d : Cursor} (h : readWith p source = .ok (a, d)) :
    ∃ ts, Token.scan source = .ok ts ∧
      p (nesting (ts.length + 1)) (Cursor.ofTokens ts) = .ok (a, d) :=
  ok_of_bind h

/-- What a tree that was read from a text is like: the grammar built its root, which is a file that
    holds the tokens of the text, the last of them as its last part. -/
structure Tree.ReadFrom (source : String) (t : Tree) : Prop where
  scan : Token.scan source = .ok t.root.tokens
  built : t.root.Built
  kind_eq : t.root.kind = .compilationUnit
  children_eq : ∃ parts last, t.root.children = parts ++ [.token last]

theorem Tree.readFrom_of_parse {source : String} {reading : Nat} {t : Tree}
    (h : Tree.parse source reading = .ok t) : t.ReadFrom source := by
  simp only [Tree.parse, Node.parse, bind, Except.bind] at h
  split at h
  · cases h
  · rename_i root hroot
    obtain rfl := Except.ok.inj h
    split at hroot
    · cases hroot
    · rename_i pair hread
      obtain rfl := Except.ok.inj hroot
      obtain ⟨ts, hscan, hunit⟩ := readWith_eq_ok hread
      have hscanned := Token.scanned_of_scan hscan
      obtain ⟨hbuilt, hkind, parts, hchildren, hparts⟩ :=
        built_compilationUnit (sound_nesting _) hscanned.closed hunit
      refine ⟨?_, hbuilt, hkind, parts, _, hchildren⟩
      -- All tokens of the scan but the last are ahead of the cursor, and the last is its end.
      obtain ⟨trivia, stop, hts, hfinish⟩ := hscanned.cursor_eq
      have htokens : pair.1.tokens = ts := by
        rw [Node.tokens_eq, hchildren, Element.tokensIn_append, hparts, hfinish]
        exact hts.symm
      rw [hscan]
      exact congrArg Except.ok htokens.symm

namespace Tree.ReadFrom

variable {source : String} {t : Tree}

theorem scanned (h : t.ReadFrom source) : Token.Scanned source t.root.tokens :=
  Token.scanned_of_scan h.scan

theorem source_eq (h : t.ReadFrom source) : t.source = source :=
  h.scanned.source_eq

end Tree.ReadFrom

/-! ## Fragments -/

theorem Grammar.readAll_eq_ok {α : Type} {p : Grammar → Parser α} {source : String} {a : α}
    (h : readAll p source = .ok a) :
    ∃ ts d, Token.scan source = .ok ts ∧ d.ahead = [] ∧
      p (nesting (ts.length + 1)) (Cursor.ofTokens ts) = .ok (a, d) := by
  simp only [readAll, bind, Except.bind] at h
  split at h
  · cases h
  · rename_i pair hread
    split at h
    · rename_i hend
      obtain rfl := Except.ok.inj h
      obtain ⟨ts, hscan, hp⟩ := readWith_eq_ok hread
      exact ⟨ts, pair.2, hscan, by simpa [Cursor.atEnd] using hend, hp⟩
    · cases h

theorem Element.tokensIn_nodes (nodes : List Node) :
    tokensIn (nodes.map .node) = nodes.flatMap Node.tokens := by
  induction nodes with
  | nil => rfl
  | cons n nodes ih => simp [ih]

namespace Fragment

/-- The nodes hold the tokens of a text but for the last, which ends it. -/
def HoldsText (source : String) (nodes : List Node) : Prop :=
  ∃ last, Token.scan source = .ok (nodes.flatMap Node.tokens ++ [last]) ∧ last.kind = .endOfFile ∧
    Text.concat (nodes.map Node.source) ++ Trivia.textOf last.leading = source

theorem sourceOf_nodes (nodes : List Node) :
    Token.sourceOf (nodes.flatMap Node.tokens) = Text.concat (nodes.map Node.source) := by
  induction nodes with
  | nil => rfl
  | cons n nodes ih => simp [ih, Node.source]

/-- The nodes are read from the tokens of a text, up to its end. -/
def ReadFrom (source : String) (nodes : List Node) : Prop :=
  ∃ ts d, Token.scan source = .ok ts ∧ d.ahead = [] ∧
    (Cursor.ofTokens ts).Reads (nodes.map .node) d

theorem ReadFrom.built {source : String} {nodes : List Node} (h : ReadFrom source nodes) :
    ∀ n ∈ nodes, n.Built := by
  obtain ⟨ts, d, -, -, hreads⟩ := h
  exact fun n hn => hreads.built n (List.mem_map_of_mem hn)

theorem ReadFrom.holdsText {source : String} {nodes : List Node} (h : ReadFrom source nodes) :
    HoldsText source nodes := by
  obtain ⟨ts, d, hscan, hend, hreads⟩ := h
  have hscanned := Token.scanned_of_scan hscan
  obtain ⟨trivia, stop, hts, -⟩ := hscanned.cursor_eq
  have hahead := hreads.ahead
  rw [hend, List.append_nil, Element.tokensIn_nodes] at hahead
  rw [hahead] at hts
  refine ⟨_, hts ▸ hscan, rfl, ?_⟩
  have hsource := hscanned.source_eq
  rw [hts, Token.sourceOf_append, sourceOf_nodes] at hsource
  simpa [Token.source, Token.endOfText] using hsource

/-- A fragment that is one node. -/
theorem readFrom_single {p : Grammar → Parser Node} {w l : Nat}
    (hp : ∀ {g : Grammar}, g.Sound → Makes 0 w l (p g)) {source : String} {nodes : List Node}
    (h : (do return [← readAll p source]) = .ok nodes) : ReadFrom source nodes := by
  simp only [bind, Except.bind] at h
  split at h
  · cases h
  · rename_i n hread
    obtain rfl := Except.ok.inj h
    obtain ⟨ts, d, hscan, hend, hn⟩ := readAll_eq_ok hread
    have hclosed := (Token.scanned_of_scan hscan).closed
    obtain ⟨hreads, -, -⟩ := hp (sound_nesting _) hclosed (Nat.zero_le _) hn
    exact ⟨ts, d, hscan, hend, hreads⟩

/-- Rounds of nodes return nodes only, so none of the parts is dropped from a list of statements. -/
theorem rounds_nodes {test : Cursor → Bool} {p : Parser Node} {bound : Nat} {c d : Cursor}
    {parts : List Element} (h : rounds test (one p) bound c = .ok (parts, d)) :
    parts = (parts.filterMap Element.node?).map .node := by
  induction bound generalizing c parts with
  | zero =>
    obtain ⟨rfl, rfl⟩ := Prod.mk.inj (Except.ok.inj h)
    rfl
  | succ bound ih =>
    simp only [rounds] at h
    split at h
    · obtain ⟨xs, e, ys, hxs, hys, rfl⟩ := append_eq_ok h
      obtain ⟨n, e, -, hxs⟩ := bind_eq_ok hxs
      obtain ⟨rfl, rfl⟩ := Prod.mk.inj (Except.ok.inj hxs)
      have hrest := ih hys
      simpa [Element.node?] using hrest
    · obtain ⟨rfl, rfl⟩ := Prod.mk.inj (Except.ok.inj h)
      rfl

theorem readFrom_statements {source : String} {nodes : List Node}
    (h : readStatements source = .ok nodes) : ReadFrom source nodes := by
  simp only [readStatements, bind, Except.bind] at h
  split at h
  · cases h
  · rename_i parts hread
    obtain rfl := Except.ok.inj h
    obtain ⟨ts, d, hscan, hend, hparts⟩ := readAll_eq_ok hread
    have hclosed := (Token.scanned_of_scan hscan).closed
    have hstatements := (sound_nesting (ts.length + 1)).statement.one.repeatWhile
      (Cursor.needs_zero fun c => !c.atEnd)
    obtain ⟨hreads, -, -⟩ := hstatements hclosed (Nat.zero_le _) hparts
    rw [rounds_nodes hparts] at hreads
    exact ⟨ts, d, hscan, hend, hreads⟩

theorem readFrom_of_read {fragment : Fragment} {source : String} {nodes : List Node}
    (h : fragment.read source = .ok nodes) : ReadFrom source nodes := by
  match fragment with
  | .expression => exact readFrom_single (fun hg => hg.expression) h
  | .statements => exact readFrom_statements h
  | .type => exact readFrom_single (fun hg => hg.type) h
  | .name => exact readFrom_single makes_typeName h
  | .attribute => exact readFrom_single makes_attributeOf h
  | .attributeList => exact readFrom_single makes_attributeList h
  | .attributeArgumentList => exact readFrom_single makes_attributeArguments h
  | .member => exact readFrom_single (fun hg => hg.member) h

end Fragment

/-- A file that was read holds the tokens of its text, each once and in order, the empty one at its
    end last, and prints to the text. The nodes of a fragment do too, but for the token at the end:
    the trivia in front of that is all that they miss of the text. -/
theorem parse_lossless (source : String) :
    (∀ reading t, Tree.parse source reading = .ok t →
      Token.scan source = .ok t.root.tokens ∧
      (∃ init last, t.root.tokens = init ++ [last] ∧ last.kind = .endOfFile ∧
        ∀ u ∈ init, u.kind ≠ .endOfFile) ∧
      t.source = source) ∧
    ∀ (fragment : Fragment) nodes, fragment.read source = .ok nodes →
      ∃ last, Token.scan source = .ok (nodes.flatMap Node.tokens ++ [last]) ∧
        last.kind = .endOfFile ∧
        Text.concat (nodes.map Node.source) ++ Trivia.textOf last.leading = source := by
  refine ⟨?_, fun _ _ h => (Fragment.readFrom_of_read h).holdsText⟩
  intro reading t h
  have hread := Tree.readFrom_of_parse h
  obtain ⟨init, trivia, stop, htokens, hinit⟩ := hread.scanned.finish
  exact ⟨hread.scan, ⟨init, _, htokens, rfl, hinit⟩, hread.source_eq⟩

theorem parse_lossless_sample :
    (∃ t, Tree.parse "class C;\n// end" = .ok t ∧ t.source = "class C;\n// end") ∧
    ∃ nodes, ∃ last : Token, Fragment.read .type "int?\n// end" = .ok nodes ∧ last.kind = .endOfFile ∧
      Text.concat (nodes.map Node.source) ++ Trivia.textOf last.leading = "int?\n// end" := by
  constructor
  · have hread : (Tree.parse "class C;\n// end").toOption.isSome := by decide +kernel
    rcases ht : Tree.parse "class C;\n// end" with e | t
    · simp [ht, Except.toOption] at hread
    · exact ⟨t, rfl, ((parse_lossless _).1 0 t ht).2.2⟩
  · have hread : (Fragment.read .type "int?\n// end").toOption.isSome := by decide +kernel
    rcases hnodes : Fragment.read .type "int?\n// end" with e | nodes
    · simp [hnodes, Except.toOption] at hread
    · obtain ⟨last, -, hlast, hsource⟩ := (parse_lossless _).2 .type nodes hnodes
      exact ⟨nodes, last, rfl, hlast, hsource⟩

end Recast
