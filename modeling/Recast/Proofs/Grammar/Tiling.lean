-- SUMMARY: The tokens of a text and the trivia between them tile the text, and so do the nodes of a tree that was read from it: a span shows the text of what it belongs to.
import Recast.Proofs.Source.Rescanning
import Recast.Proofs.Tree.Splicing
import Recast.Source.Slice

/-! # Spans tile the text

A token that is printed behind others starts where what they print ends (`Token.placeAfter`), and a
scan gives every token the span of its place. Since the tokens print to the text, the span of a
token shows its text, and what lies between two spans is the trivia between the two tokens. The
tokens of a node are a contiguous run of those of the tree, so the same holds of nodes. -/

namespace Recast

/-! ## Trivia -/

namespace Trivia

/-- Every piece of the run is one that is read from some text. -/
def Read (run : List Trivia) : Prop :=
  ∀ piece ∈ run, ∃ rest, Stands piece rest

theorem Read.size_eq_zero_iff {run : List Trivia} (h : Read run) :
    (textOf run).utf8ByteSize = 0 ↔ run = [] := by
  cases run with
  | nil => simp
  | cons piece run =>
    obtain ⟨rest, hstands⟩ := h piece List.mem_cons_self
    have hpiece : piece.text ≠ "" := fun hempty => hstands.text_ne (hempty ▸ rfl)
    simp [hpiece]

theorem read_readLeading (cs : List Char) : Read (readLeading cs).1 := by
  unfold readLeading
  fun_induction leadingRun cs.length cs with
  | case1 cs => exact List.forall_mem_nil _
  | case2 bound cs hnone => exact List.forall_mem_nil _
  | case3 bound cs piece rest hpiece pieces rest' hrun ih =>
    rw [hrun] at ih
    exact List.forall_mem_cons.2 ⟨⟨_, stands_of_leadingPiece hpiece⟩, ih⟩

theorem read_readTrailing (cs : List Char) : Read (readTrailing cs).1 := by
  unfold readTrailing
  fun_induction trailingRun cs.length cs with
  | case1 cs => exact List.forall_mem_nil _
  | case2 bound cs hnone => exact List.forall_mem_nil _
  | case3 bound cs piece rest hpiece hend =>
    exact List.forall_mem_singleton.2 ⟨_, (stands_of_trailingPiece hpiece).1⟩
  | case4 bound cs piece rest hpiece hend pieces rest' hrun ih =>
    rw [hrun] at ih
    exact List.forall_mem_cons.2 ⟨⟨_, (stands_of_trailingPiece hpiece).1⟩, ih⟩

end Trivia

/-! ## Tokens -/

namespace Token

/-- Where a token stands in what is printed when it comes behind others. -/
def placeAfter (before : List Token) (t : Token) : Span :=
  let start := (sourceOf before ++ Trivia.textOf t.leading).utf8ByteSize
  ⟨start, start + t.text.utf8ByteSize⟩

theorem utf8ByteSize_source (t : Token) : t.source.utf8ByteSize =
    (Trivia.textOf t.leading).utf8ByteSize + t.text.utf8ByteSize
      + (Trivia.textOf t.trailing).utf8ByteSize := by
  rw [source, String.utf8ByteSize_append, String.utf8ByteSize_append]

/-- The offsets of a scan are those of the places. The induction is on the steps of the scan, for
    all that was printed in front of the trivia at hand. -/
theorem scanFrom_placeAfter {bound offset : Nat} {leading : List Trivia} {cs : List Char}
    {ts : List Token} (h : scanFrom bound offset leading cs = .ok ts) (front : List Token)
    (hoffset : offset = (sourceOf front ++ Trivia.textOf leading).utf8ByteSize)
    {before after : List Token} {t : Token} (hts : ts = before ++ t :: after) :
    t.span = some (t.placeAfter (front ++ before)) := by
  revert front before
  refine scanFrom_induction (motive := fun offset leading _ ts => ∀ front,
    offset = (sourceOf front ++ Trivia.textOf leading).utf8ByteSize → ∀ {before},
      ts = before ++ t :: after → t.span = some (t.placeAfter (front ++ before))) ?_ ?_ h
  · intro offset leading front hoffset before hts
    obtain ⟨rfl, hts⟩ : before = [] ∧ [endOfText leading offset] = t :: after := by
      cases before <;> simp_all
    obtain ⟨rfl, -⟩ := List.cons.inj hts
    simp [endOfText, placeAfter, hoffset]
  · intro offset leading cs u next following rest us hstep ih front hoffset before hts
    cases before with
    | nil =>
      obtain ⟨rfl, -⟩ := List.cons.inj hts
      rw [hstep.span_eq, hoffset, placeAfter, hstep.leading_eq, List.append_nil]
    | cons v before =>
      obtain ⟨rfl, hus⟩ := List.cons.inj hts
      have hplace := ih (front ++ [u]) ?_ hus
      · rwa [List.append_assoc] at hplace
      · rw [hstep.next_eq, hoffset, ← hstep.leading_eq]
        simp only [sourceOf_append, sourceOf_cons, sourceOf_nil, String.utf8ByteSize_append,
          String.append_empty, utf8ByteSize_source]
        omega

theorem scanFrom_read {bound offset : Nat} {leading : List Trivia} {cs : List Char}
    {ts : List Token} (h : scanFrom bound offset leading cs = .ok ts)
    (hleading : Trivia.Read leading) :
    ∀ t ∈ ts, Trivia.Read t.leading ∧ Trivia.Read t.trailing := by
  revert hleading
  refine scanFrom_induction (motive := fun _ leading _ ts => Trivia.Read leading →
    ∀ t ∈ ts, Trivia.Read t.leading ∧ Trivia.Read t.trailing) ?_ ?_ h
  · intro offset leading hleading
    exact List.forall_mem_singleton.2 ⟨hleading, List.forall_mem_nil _⟩
  · intro offset leading cs t next following rest us hstep ih hleading
    have htrailing := Trivia.read_readTrailing ((Trivia.textOf t.trailing).toList
      ++ ((Trivia.textOf following).toList ++ rest))
    have hfollowing := Trivia.read_readLeading ((Trivia.textOf following).toList ++ rest)
    rw [hstep.trailing_eq] at htrailing
    rw [hstep.following_eq] at hfollowing
    exact List.forall_mem_cons.2 ⟨⟨hstep.leading_eq ▸ hleading, htrailing⟩, ih hfollowing⟩

theorem span_eq_placeAfter {source : String} {before after : List Token} {t : Token}
    (h : scan source = .ok (before ++ t :: after)) : t.span = some (t.placeAfter before) :=
  scanFrom_placeAfter h [] (by simp) rfl

theorem read_of_scan {source : String} {ts : List Token} (h : scan source = .ok ts) :
    ∀ t ∈ ts, Trivia.Read t.leading ∧ Trivia.Read t.trailing :=
  scanFrom_read h (Trivia.read_readLeading _)

/-- A run of tokens prints to its text between the trivia at its two ends. -/
theorem sourceOf_eq_append_textOf {ts : List Token} {first last : Token}
    (hfirst : ts.head? = some first) (hlast : ts.getLast? = some last) :
    sourceOf ts = Trivia.textOf first.leading ++ textOf ts ++ Trivia.textOf last.trailing := by
  induction ts generalizing first with
  | nil => cases hfirst
  | cons t ts ih =>
    obtain rfl := Option.some.inj hfirst
    cases ts with
    | nil =>
      obtain rfl := Option.some.inj hlast
      simp [textOf, source]
    | cons u ts =>
      rw [List.getLast?_cons_cons] at hlast
      rw [textOf_cons_cons, sourceOf_cons, ih rfl hlast, source]
      simp only [String.append_assoc]

/-- The tokens of a contiguous part of a text: the span of the part shows its text. -/
theorem slice?_spanOf {source : String} {before part after : List Token}
    (h : scan source = .ok (before ++ part ++ after)) (hne : part ≠ []) :
    ∃ S, Node.spanOf part = some S ∧ S.slice? source = some (textOf part) := by
  obtain ⟨first, tail, hfirst⟩ := List.exists_cons_of_ne_nil hne
  obtain ⟨init, last, hlast⟩ := (List.eq_nil_or_concat part).resolve_left hne
  rw [List.concat_eq_append] at hlast
  have hsource := (scanned_of_scan h).source_eq
  have hatFirst : scan source = .ok (before ++ first :: (tail ++ after)) := by
    rw [h, hfirst]
    simp
  have hatLast : scan source = .ok (before ++ init ++ last :: after) := by
    rw [h, hlast]
    simp
  have hfirstSpan := span_eq_placeAfter hatFirst
  have hlastSpan := span_eq_placeAfter hatLast
  have hhead : part.head? = some first := by rw [hfirst]; rfl
  have hend : part.getLast? = some last := by rw [hlast]; simp
  have hspan : Node.spanOf part =
      some ((first.placeAfter before).cover (last.placeAfter (before ++ init))) := by
    rw [Node.spanOf, hhead, hend, Option.bind_some, Option.bind_some, hfirstSpan, hlastSpan]
  have hpart := sourceOf_eq_append_textOf hhead hend
  -- The text of the part leaves out what stands before its first token and behind its last.
  have hsize : (sourceOf init).utf8ByteSize + (Trivia.textOf last.leading).utf8ByteSize
      + last.text.utf8ByteSize =
        (Trivia.textOf first.leading).utf8ByteSize + (textOf part).utf8ByteSize := by
    have hboth := congrArg String.utf8ByteSize hpart
    rw [hlast, sourceOf_append, ← hlast] at hboth
    simp only [sourceOf_cons, sourceOf_nil, String.utf8ByteSize_append, String.append_empty,
      utf8ByteSize_source] at hboth
    omega
  have hfront : (Trivia.textOf first.leading).utf8ByteSize + first.text.utf8ByteSize
      ≤ (sourceOf init).utf8ByteSize + (Trivia.textOf last.leading).utf8ByteSize
        + last.text.utf8ByteSize ∧ (Trivia.textOf first.leading).utf8ByteSize
      ≤ (sourceOf init).utf8ByteSize + (Trivia.textOf last.leading).utf8ByteSize := by
    cases init with
    | nil =>
      obtain rfl : last = first := by simpa [hlast] using hhead
      simp
    | cons t init =>
      obtain rfl : t = first := by simpa [hlast] using hhead
      simp only [sourceOf_cons, String.utf8ByteSize_append, utf8ByteSize_source]
      omega
  refine ⟨_, hspan, Span.slice?_eq_some_iff.2 ⟨sourceOf before ++ Trivia.textOf first.leading,
    Trivia.textOf last.trailing ++ sourceOf after, ?_, ?_, ?_⟩⟩
  · rw [← hsource, sourceOf_append, sourceOf_append, hpart]
    simp only [String.append_assoc]
  · simp only [placeAfter, Span.cover, sourceOf_append, String.utf8ByteSize_append]
    omega
  · simp only [placeAfter, Span.cover, sourceOf_append, String.utf8ByteSize_append]
    omega

/-- What lies between the spans of two neighbours is the trivia between them. -/
theorem slice?_between {source : String} {before after : List Token} {t u : Token}
    (h : scan source = .ok (before ++ t :: u :: after)) :
    ∃ s r, t.span = some s ∧ u.span = some r ∧ s.stop ≤ r.start ∧
      (⟨s.stop, r.start⟩ : Span).slice? source =
        some (Trivia.textOf t.trailing ++ Trivia.textOf u.leading) ∧
      (t.adjacent u = true ↔ s.stop = r.start) := by
  have hsource := (scanned_of_scan h).source_eq
  have hat : scan source = .ok (before ++ [t] ++ u :: after) := by
    rw [h]
    simp
  have hu := span_eq_placeAfter hat
  have hstart : (u.placeAfter (before ++ [t])).start = (t.placeAfter before).stop
      + ((Trivia.textOf t.trailing).utf8ByteSize + (Trivia.textOf u.leading).utf8ByteSize) := by
    simp only [placeAfter, sourceOf_append, sourceOf_cons, sourceOf_nil, String.append_empty,
      String.utf8ByteSize_append, utf8ByteSize_source]
    omega
  refine ⟨_, _, span_eq_placeAfter h, hu, by omega, ?_, ?_⟩
  · refine Span.slice?_eq_some_iff.2 ⟨sourceOf before ++ Trivia.textOf t.leading ++ t.text,
      u.text ++ Trivia.textOf u.trailing ++ sourceOf after, ?_, ?_, ?_⟩
    · rw [← hsource]
      simp only [sourceOf_append, sourceOf_cons, Token.source, String.append_assoc]
    · rw [String.utf8ByteSize_append]
      rfl
    · rw [hstart]
      simp only [placeAfter, String.utf8ByteSize_append]
  · have htrailing := (read_of_scan h t (by simp)).2.size_eq_zero_iff
    have hleading := (read_of_scan h u (by simp)).1.size_eq_zero_iff
    rw [adjacent, Bool.and_eq_true_iff, List.isEmpty_iff, List.isEmpty_iff, ← htrailing, ← hleading]
    omega

/-- All tokens have a text but the last, which stands at the end. -/
theorem scan_finish {source : String} {ts : List Token} (h : scan source = .ok ts) :
    ∃ init last, ts = init ++ [last] ∧ (∀ t ∈ init, t.text ≠ "" ∧ t.kind ≠ .endOfFile) ∧
      last.kind = .endOfFile ∧ last.text = "" ∧
      last.span = some ⟨source.utf8ByteSize, source.utf8ByteSize⟩ := by
  have hscanned := scanned_of_scan h
  obtain ⟨init, trivia, stop, rfl, hinit⟩ := hscanned.finish
  refine ⟨init, _, rfl, fun t ht => ⟨?_, hinit t ht⟩, rfl, rfl, ?_⟩
  · intro hempty
    obtain ⟨before, after, rfl⟩ := List.append_of_mem ht
    have hat : scan source = .ok (before ++ t :: (after ++ [endOfText trivia stop])) := by
      rw [h]
      simp
    have hplace := span_eq_placeAfter hat
    obtain ⟨s, r, hs, -, hlt, -⟩ :=
      (List.pairwise_append.1 hscanned.ordered).2.2 t ht _ (List.mem_singleton_self _)
    obtain rfl := Option.some.inj (hplace.symm.trans hs)
    simp [placeAfter, hempty] at hlt
  · have hsource := congrArg String.utf8ByteSize hscanned.source_eq
    have hplace := span_eq_placeAfter h
    rw [hplace, placeAfter, ← hsource]
    simp [endOfText, Token.source]

end Token

/-- The tokens of a text tile it. They print to the text; the span of each shows its text; the spans
    of two neighbours are in order and what lies between them is the trivia between the two, of
    which there is none exactly when the spans touch; and all but the last have a text, while the
    last one is empty and stands at the end. -/
theorem scan_tiles {source : String} {ts : List Token} (h : Token.scan source = .ok ts) :
    Token.sourceOf ts = source ∧
    (∀ t ∈ ts, ∃ s, t.span = some s ∧ s.slice? source = some t.text) ∧
    (∀ before t u after, ts = before ++ t :: u :: after →
      ∃ s r, t.span = some s ∧ u.span = some r ∧ s.stop ≤ r.start ∧
        (⟨s.stop, r.start⟩ : Span).slice? source =
          some (Trivia.textOf t.trailing ++ Trivia.textOf u.leading) ∧
        (t.adjacent u = true ↔ s.stop = r.start)) ∧
    ∃ init last, ts = init ++ [last] ∧ (∀ t ∈ init, t.text ≠ "" ∧ t.kind ≠ .endOfFile) ∧
      last.kind = .endOfFile ∧ last.text = "" ∧
      last.span = some ⟨source.utf8ByteSize, source.utf8ByteSize⟩ := by
  refine ⟨(Token.scanned_of_scan h).source_eq, ?_, ?_, Token.scan_finish h⟩
  · intro t ht
    obtain ⟨before, after, rfl⟩ := List.append_of_mem ht
    have hspan := Token.span_eq_placeAfter h
    have hpart : Token.scan source = .ok (before ++ [t] ++ after) := by simpa using h
    obtain ⟨S, hS, hslice⟩ := Token.slice?_spanOf hpart (List.cons_ne_nil t [])
    have hself : Node.spanOf [t] = t.span := by
      simp [Node.spanOf, hspan, Span.cover]
    exact ⟨S, hself ▸ hS, hslice⟩
  · rintro before t u after rfl
    exact Token.slice?_between h

/-- A letter that takes two bytes, a string and a comment, each in its place. -/
theorem scan_tiles_letters : ∃ ts, Token.scan "é>>\"ü\"// ö\n" = .ok ts ∧
    (ts.map fun t => (t.text, t.span)) = [("é", some ⟨0, 2⟩), (">", some ⟨2, 3⟩),
      (">", some ⟨3, 4⟩), ("\"ü\"", some ⟨4, 8⟩), ("", some ⟨14, 14⟩)] ∧
    ∀ t ∈ ts, ∃ s, t.span = some s ∧ s.slice? "é>>\"ü\"// ö\n" = some t.text := by
  have hread : (Token.scan "é>>\"ü\"// ö\n").toOption.map (fun ts =>
      ts.map fun t => (t.text, t.span)) = some [("é", some ⟨0, 2⟩), (">", some ⟨2, 3⟩),
        (">", some ⟨3, 4⟩), ("\"ü\"", some ⟨4, 8⟩), ("", some ⟨14, 14⟩)] := by
    decide +kernel
  obtain ⟨ts, hts, hspans⟩ := exists_ok_of_map hread
  exact ⟨ts, hts, hspans, (scan_tiles hts).2.1⟩

/-! ## Nodes -/

/-- The span of tokens that all come before others ends before the span of those starts. -/
theorem Node.stop_le_start {ts us : List Token} {S T : Span}
    (h : ∀ t ∈ ts, ∀ u ∈ us, t.Precedes u) (hS : spanOf ts = some S) (hT : spanOf us = some T) :
    S.stop ≤ T.start := by
  obtain ⟨f, hf, l, hl, a, b, ha, hb, rfl⟩ := spanOf_eq_some hS
  have hfirst := start_of_precedes ha (h f hf) hT
  have hlast := start_of_precedes hb (h l hl) hT
  simp only [Span.cover]
  omega

namespace Tree.ReadFrom

variable {source : String} {t : Tree} {p : Path} {n : Node}

theorem slice?_eq_text (h : t.ReadFrom source) (hat : t.root.at? p = some n) {S : Span}
    (hS : n.span = some S) : S.slice? source = some n.text := by
  have hscan := h.scan
  rw [Node.tokens_around hat] at hscan
  obtain ⟨T, hT, hslice⟩ := Token.slice?_spanOf hscan (h.tokens_ne_nil hat hS)
  obtain rfl : S = T := Option.some.inj ((hS.symm.trans (h.span_eq hat)).trans hT)
  exact hslice

theorem isSome_span_iff (h : t.ReadFrom source) (hat : t.root.at? p = some n) :
    n.span.isSome = true ↔ n.tokens ≠ [] := by
  rw [Option.isSome_iff_exists]
  exact ⟨fun ⟨S, hS⟩ => h.tokens_ne_nil hat hS, fun hne => h.exists_span hat hne⟩

/-- The spans of child nodes follow one another. -/
theorem child_spans_ordered (h : t.ReadFrom source) (hat : t.root.at? p = some n) {i j : Nat}
    {c d : Node} {S T : Span} (hij : i < j) (hc : n.children[i]? = some (.node c))
    (hd : n.children[j]? = some (.node d)) (hS : c.span = some S) (hT : d.span = some T) :
    S.stop ≤ T.start := by
  have hrow := h.row.sublist (Node.tokens_sublist hat)
  have hcat : t.root.at? (p ++ [i]) = some c := Node.at?_child hat hc
  have hdat : t.root.at? (p ++ [j]) = some d := Node.at?_child hat hd
  exact Node.stop_le_start (Node.precedes_of_lt hrow hij hc hd) ((h.span_eq hcat).symm.trans hS)
    ((h.span_eq hdat).symm.trans hT)

end Tree.ReadFrom

/-- The spans of the nodes of a file that was read show their texts. A node has a span exactly when
    it has a token; a span shows the text of its node; it lies around the spans of the child nodes;
    and those follow one another. -/
theorem parse_spans_show_texts {source : String} {reading : Nat} {t : Tree}
    (hparse : Tree.parse source reading = .ok t) :
    ∀ s ∈ t.sites,
      (s.span.isSome = true ↔ s.node.tokens ≠ []) ∧
      (∀ S, s.span = some S → S.slice? source = some s.text) ∧
      (∀ (i : Nat) (c : Node) C, s.node.children[i]? = some (.node c) → c.span = some C →
        ∃ S, s.span = some S ∧ S.contains C = true) ∧
      ∀ (i j : Nat) (c d : Node) C D, i < j → s.node.children[i]? = some (.node c) →
        s.node.children[j]? = some (.node d) → c.span = some C → d.span = some D →
        C.stop ≤ D.start := by
  have h := Tree.readFrom_of_parse hparse
  intro s hs
  obtain ⟨-, hat⟩ := Tree.mem_sites_iff.1 hs
  refine ⟨h.isSome_span_iff hat, fun S => h.slice?_eq_text hat, fun i c C hc hC => ?_,
    fun i j c d C D hij => h.child_spans_ordered hat hij⟩
  exact h.span_contains hat (q := [i]) (Node.at?_cons_eq_some.2 ⟨c, hc, rfl⟩) hC

/-- A parenthesised name that stands behind a letter of two bytes. -/
theorem parse_spans_show_texts_parenthesized :
    ∃ t, Tree.parse "class C \x7b int é = (b); \x7d" = .ok t ∧ ∃ s ∈ t.sites,
      s.kind = .parenthesizedExpression ∧ s.span = some ⟨19, 22⟩ ∧
        (⟨19, 22⟩ : Span).slice? "class C \x7b int é = (b); \x7d" = some s.text := by
  have hread : (Tree.parse "class C \x7b int é = (b); \x7d").toOption.map (fun t =>
      (t.root.at? [0, 4, 1, 1, 1, 1]).any fun n =>
        n.kind == .parenthesizedExpression && n.span == some ⟨19, 22⟩) = some true := by
    decide +kernel
  obtain ⟨t, ht, hplace⟩ := exists_ok_of_map hread
  obtain ⟨n, hn, hfound⟩ := (Option.any_eq_true _ _).1 hplace
  obtain ⟨hkind, hspan⟩ : n.kind = .parenthesizedExpression ∧ n.span = some ⟨19, 22⟩ := by
    simpa using hfound
  have hsite := Tree.mem_sites_of_at? hn
  exact ⟨t, ht, _, hsite, hkind, hspan, (parse_spans_show_texts ht _ hsite).2.1 _ hspan⟩

end Recast
