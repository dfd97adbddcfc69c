-- SUMMARY: A run of trivia between two tokens is read as the same pieces wherever its own characters and the next token stand.
import Recast.Proofs.Source.Scanning

/-! # Reading trivia again

A piece of trivia is read by looking at its own characters and at little more: at the next
character, or at what ends the line (`Trivia.Stands`). So the trivia between two tokens is split
between them in the same way in any other text in which it stands in front of the second one
(`Trivia.trailingRun_swap`, `Trivia.leadingRun_swap`). -/

namespace Recast

/-! ## Pieces of trivia -/

namespace Scan

theorem literal_eq_some_iff {text : String} {cs l rest : List Char} :
    literal text cs = some (l, rest) ↔ l = text.toList ∧ cs = text.toList ++ rest := by
  unfold literal
  rw [Option.map_eq_some_iff]
  constructor
  · rintro ⟨rest', hrest, heq⟩
    obtain ⟨rfl, rfl⟩ := Prod.mk.inj heq
    exact ⟨rfl, Text.dropHead?_eq_some_iff.1 hrest⟩
  · rintro ⟨rfl, hcs⟩
    exact ⟨rest, Text.dropHead?_eq_some_iff.2 hcs, rfl⟩

theorem seq_eq_some_iff {s t : Scan} {cs l rest : List Char} :
    seq s t cs = some (l, rest) ↔
      ∃ first mid second, s cs = some (first, mid) ∧ t mid = some (second, rest) ∧
        l = first ++ second := by
  unfold seq
  constructor
  · intro h
    split at h
    · cases h
    · rename_i first mid hfirst
      split at h
      · cases h
      · rename_i second rest' hsecond
        obtain ⟨rfl, rfl⟩ := Prod.mk.inj (Option.some.inj h)
        exact ⟨first, mid, second, hfirst, hsecond, rfl⟩
  · rintro ⟨first, mid, second, hfirst, hsecond, rfl⟩
    simp only [hfirst, hsecond]

theorem one_cons (p : Char → Bool) (c : Char) (cs : List Char) :
    one p (c :: cs) = if p c then some ([c], cs) else none := rfl

theorem one_eq_some_iff {p : Char → Bool} {cs l rest : List Char} :
    one p cs = some (l, rest) ↔ ∃ c, p c = true ∧ cs = c :: rest ∧ l = [c] := by
  cases cs with
  | nil => simp [one]
  | cons c cs =>
    rw [one_cons]
    constructor
    · intro h
      split at h
      · rename_i hc
        cases h
        exact ⟨c, hc, rfl, rfl⟩
      · cases h
    · rintro ⟨d, hd, heq, rfl⟩
      cases heq
      exact if_pos hd

theorem opt_eq_some {s : Scan} {cs l rest : List Char} (h : opt s cs = some (l, rest)) :
    l = [] ∧ rest = cs ∨ s cs = some (l, rest) := by
  unfold opt at h
  split at h
  · obtain ⟨rfl, rfl⟩ := Prod.mk.inj (Option.some.inj h)
    exact .inl ⟨rfl, rfl⟩
  · rename_i split hsplit
    exact .inr (hsplit.trans h)

theorem run_append {p : Char → Bool} {l rest : List Char} (hl : ∀ c ∈ l, p c = true)
    (hrest : ∀ c ∈ rest.head?, p c = false) : run p (l ++ rest) = some (l, rest) := by
  have hstop : rest.takeWhile p = [] ∧ rest.dropWhile p = rest := by
    cases rest with
    | nil => exact ⟨rfl, rfl⟩
    | cons c rest => simp [hrest c rfl]
  unfold run
  rw [List.takeWhile_append_of_pos hl, List.dropWhile_append_of_pos hl, hstop.1, hstop.2,
    List.append_nil]

theorem run_eq_some {p : Char → Bool} {cs l rest : List Char} (h : run p cs = some (l, rest)) :
    (∀ c ∈ l, p c = true) ∧ ∀ c ∈ rest.head?, p c = false := by
  obtain ⟨rfl, rfl⟩ := Prod.mk.inj (Option.some.inj h)
  refine ⟨fun c hc => List.all_eq_true.1 List.all_takeWhile c hc, fun c hc => ?_⟩
  have hstop := List.head?_dropWhile_not p cs
  rw [Option.mem_def.1 hc] at hstop
  simpa using hstop

/-- A line ends in front of the rest of a text, or the text does. -/
def LineStops (rest : List Char) : Prop :=
  rest = [] ∨ (∃ more, rest = '\n' :: more) ∨ ∃ more, rest = '\r' :: '\n' :: more

theorem restOfLine_append {line rest : List Char} (hline : ∀ c ∈ line, c ≠ '\r' ∧ c ≠ '\n')
    (hstop : LineStops rest) : restOfLine (line ++ rest) = some (line, rest) := by
  have hall : ∀ c ∈ line, (decide (c ≠ '\r') && decide (c ≠ '\n')) = true := by
    intro c hc
    simpa using hline c hc
  unfold restOfLine
  rw [List.takeWhile_append_of_pos hall, List.dropWhile_append_of_pos hall]
  rcases hstop with rfl | ⟨more, rfl⟩ | ⟨more, rfl⟩ <;> simp

theorem restOfLine_eq_some {cs line rest : List Char} (h : restOfLine cs = some (line, rest)) :
    (∀ c ∈ line, c ≠ '\r' ∧ c ≠ '\n') ∧ LineStops rest := by
  have hline : ∀ c ∈ cs.takeWhile fun c => decide (c ≠ '\r') && decide (c ≠ '\n'),
      c ≠ '\r' ∧ c ≠ '\n' := by
    intro c hc
    simpa using List.all_eq_true.1 List.all_takeWhile c hc
  unfold restOfLine at h
  dsimp only at h
  split at h
  · obtain ⟨rfl, rfl⟩ := Prod.mk.inj (Option.some.inj h)
    exact ⟨hline, .inr (.inr ⟨_, rfl⟩)⟩
  · cases h
  · rename_i hreturn hlone
    obtain ⟨rfl, rfl⟩ := Prod.mk.inj (Option.some.inj h)
    refine ⟨hline, ?_⟩
    cases hdrop : cs.dropWhile fun c => decide (c ≠ '\r') && decide (c ≠ '\n') with
    | nil => exact .inl rfl
    | cons c more =>
      have hnot := List.head?_dropWhile_not (fun c => decide (c ≠ '\r') && decide (c ≠ '\n')) cs
      rw [hdrop] at hnot
      by_cases hc : c = '\r'
      · subst hc
        exact absurd hdrop (hlone more)
      · obtain rfl : c = '\n' := by simpa [hc] using hnot
        exact .inr (.inl ⟨more, rfl⟩)

theorem blockEnd_ne_nil {cs l rest : List Char} (h : blockEnd cs = some (l, rest)) : l ≠ [] := by
  unfold blockEnd at h
  split at h
  · cases h
  · obtain ⟨rfl, -⟩ := Prod.mk.inj (Option.some.inj h)
    exact List.cons_ne_nil _ _
  · split at h
    · cases h
    · obtain ⟨rfl, -⟩ := Prod.mk.inj (Option.some.inj h)
      exact List.cons_ne_nil _ _

theorem blockEnd_append {cs l rest : List Char} (h : blockEnd cs = some (l, rest))
    (rest' : List Char) : blockEnd (l ++ rest') = some (l, rest') := by
  fun_induction blockEnd cs generalizing l rest with
  | case1 => cases h
  | case2 more =>
    obtain ⟨rfl, rfl⟩ := Prod.mk.inj (Option.some.inj h)
    rfl
  | case3 c cs hopen hnone ih => cases h
  | case4 c cs hopen l' rest'' hsome ih =>
    obtain ⟨rfl, rfl⟩ := Prod.mk.inj (Option.some.inj h)
    have hnext := ih hsome
    have hsplit : cs = l' ++ rest'' := (exact_blockEnd hsome).1
    rw [List.cons_append, blockEnd, hnext]
    rintro more rfl hmore
    cases l' with
    | nil => exact absurd rfl (blockEnd_ne_nil hsome)
    | cons d l' =>
      obtain ⟨rfl, -⟩ := List.cons.inj hmore
      exact hopen _ rfl hsplit

end Scan

namespace Trivia

/-- A piece of trivia as it is read in front of the rest of a text. -/
inductive Stands : Trivia → List Char → Prop where
  | whitespace {c : Char} {cs rest : List Char} (blank : ∀ d ∈ c :: cs, Scan.isSpacing d = true)
      (stop : ∀ d ∈ rest.head?, Scan.isSpacing d = false) :
      Stands (.whitespace (String.ofList (c :: cs))) rest
  | lineFeed {rest : List Char} : Stands (.lineEnd "\n") rest
  | returnFeed {rest : List Char} : Stands (.lineEnd "\r\n") rest
  | lineReturn {rest : List Char} (stop : rest.head? ≠ some '\n') : Stands (.lineEnd "\r") rest
  | lineComment {line rest : List Char} (plain : ∀ c ∈ line, c ≠ '\r' ∧ c ≠ '\n')
      (stop : Scan.LineStops rest) : Stands (.comment (String.ofList ('/' :: '/' :: line))) rest
  | blockComment {body rest : List Char}
      (closed : ∀ rest', Scan.blockEnd (body ++ rest') = some (body, rest')) :
      Stands (.comment (String.ofList ('/' :: '*' :: body))) rest
  | directive {line rest : List Char} (plain : ∀ c ∈ line, c ≠ '\r' ∧ c ≠ '\n')
      (stop : Scan.LineStops rest) : Stands (.directive (String.ofList ('#' :: line))) rest

/-- The rest of the text matters up to its first character, or the second after a carriage return. -/
theorem Stands.swap {piece : Trivia} {shared rest : List Char} (h : Stands piece (shared ++ rest))
    (hne : shared ≠ []) (hreturn : shared ≠ ['\r']) (rest' : List Char) :
    Stands piece (shared ++ rest') := by
  obtain ⟨c, cs, rfl⟩ := List.exists_cons_of_ne_nil hne
  have hlines : Scan.LineStops (c :: cs ++ rest) → Scan.LineStops (c :: cs ++ rest') := by
    rintro (hnil | ⟨more, hmore⟩ | ⟨more, hmore⟩)
    · cases hnil
    · obtain ⟨rfl, -⟩ := List.cons.inj hmore
      exact .inr (.inl ⟨_, rfl⟩)
    · obtain ⟨rfl, htail⟩ := List.cons.inj hmore
      cases cs with
      | nil => exact absurd rfl hreturn
      | cons d cs =>
        obtain ⟨rfl, -⟩ := List.cons.inj htail
        exact .inr (.inr ⟨_, rfl⟩)
  cases h with
  | whitespace blank stop => exact .whitespace blank stop
  | lineFeed => exact .lineFeed
  | returnFeed => exact .returnFeed
  | lineReturn stop => exact .lineReturn stop
  | lineComment plain stop => exact .lineComment plain (hlines stop)
  | blockComment closed => exact .blockComment closed
  | directive plain stop => exact .directive plain (hlines stop)

theorem pieceBy_eq_some {make : String → Trivia} {scan : Scan} {cs rest : List Char} {piece : Trivia}
    (h : pieceBy make scan cs = some (piece, rest)) :
    ∃ l, scan cs = some (l, rest) ∧ piece = make (String.ofList l) := by
  obtain ⟨⟨l, rest'⟩, hscan, heq⟩ := Option.map_eq_some_iff.1 h
  obtain ⟨rfl, rfl⟩ := Prod.mk.inj heq
  exact ⟨l, hscan, rfl⟩

theorem stands_of_whitespace {cs rest : List Char} {piece : Trivia}
    (h : pieceBy .whitespace Scan.whitespace cs = some (piece, rest)) : Stands piece rest := by
  obtain ⟨l, hscan, rfl⟩ := pieceBy_eq_some h
  unfold Scan.whitespace Scan.run1 at hscan
  obtain ⟨first, mid, second, hfirst, hsecond, rfl⟩ := Scan.seq_eq_some_iff.1 hscan
  obtain ⟨hblank, hstop⟩ := Scan.run_eq_some hsecond
  obtain ⟨c, hc, -, rfl⟩ := Scan.one_eq_some_iff.1 hfirst
  exact .whitespace (List.forall_mem_cons.2 ⟨hc, hblank⟩) hstop

theorem stands_of_lineEnd {cs rest : List Char} {piece : Trivia}
    (h : pieceBy .lineEnd Scan.lineEnd cs = some (piece, rest)) : Stands piece rest := by
  obtain ⟨l, hscan, rfl⟩ := pieceBy_eq_some h
  simp only [Scan.lineEnd, Scan.choice, Scan.or] at hscan
  split at hscan
  · split at hscan
    · split at hscan
      · cases hscan
      · rename_i hreturnFeed _ _ hreturn
        obtain ⟨rfl, rfl⟩ := Scan.literal_eq_some_iff.1 (hreturn.trans hscan)
        refine .lineReturn fun hfeed => ?_
        obtain ⟨more, rfl⟩ := List.head?_eq_some_iff.1 hfeed
        cases hreturnFeed
    · rename_i hreturnFeed
      obtain ⟨rfl, -⟩ := Scan.literal_eq_some_iff.1 (hreturnFeed.trans hscan)
      exact .returnFeed
  · rename_i hfeed
    obtain ⟨rfl, -⟩ := Scan.literal_eq_some_iff.1 (hfeed.trans hscan)
    exact .lineFeed

theorem stands_of_lineComment {cs rest : List Char} {piece : Trivia}
    (h : pieceBy .comment Scan.lineComment cs = some (piece, rest)) : Stands piece rest := by
  obtain ⟨l, hscan, rfl⟩ := pieceBy_eq_some h
  unfold Scan.lineComment at hscan
  obtain ⟨first, mid, second, hfirst, hsecond, rfl⟩ := Scan.seq_eq_some_iff.1 hscan
  obtain ⟨rfl, -⟩ := Scan.literal_eq_some_iff.1 hfirst
  obtain ⟨hplain, hstop⟩ := Scan.restOfLine_eq_some hsecond
  exact .lineComment hplain hstop

theorem stands_of_blockComment {cs rest : List Char} {piece : Trivia}
    (h : pieceBy .comment Scan.blockComment cs = some (piece, rest)) : Stands piece rest := by
  obtain ⟨l, hscan, rfl⟩ := pieceBy_eq_some h
  unfold Scan.blockComment at hscan
  obtain ⟨first, mid, second, hfirst, hsecond, rfl⟩ := Scan.seq_eq_some_iff.1 hscan
  obtain ⟨rfl, -⟩ := Scan.literal_eq_some_iff.1 hfirst
  exact .blockComment (Scan.blockEnd_append hsecond)

theorem stands_of_directive {cs rest : List Char} {piece : Trivia}
    (h : pieceBy .directive Scan.directive cs = some (piece, rest)) : Stands piece rest := by
  obtain ⟨l, hscan, rfl⟩ := pieceBy_eq_some h
  unfold Scan.directive at hscan
  obtain ⟨first, mid, second, hfirst, hsecond, rfl⟩ := Scan.seq_eq_some_iff.1 hscan
  obtain ⟨rfl, -⟩ := Scan.literal_eq_some_iff.1 hfirst
  obtain ⟨hplain, hstop⟩ := Scan.restOfLine_eq_some hsecond
  exact .directive hplain hstop

theorem stands_of_leadingPiece {cs rest : List Char} {piece : Trivia}
    (h : leadingPiece cs = some (piece, rest)) : Stands piece rest := by
  rcases eq_some_of_orElse h with h | h
  · exact stands_of_whitespace h
  rcases eq_some_of_orElse h with h | h
  · exact stands_of_lineEnd h
  rcases eq_some_of_orElse h with h | h
  · exact stands_of_lineComment h
  rcases eq_some_of_orElse h with h | h
  · exact stands_of_blockComment h
  · exact stands_of_directive h

theorem stands_of_trailingPiece {cs rest : List Char} {piece : Trivia}
    (h : trailingPiece cs = some (piece, rest)) : Stands piece rest ∧ piece.isDirective = false := by
  rcases eq_some_of_orElse h with h | h
  · obtain ⟨l, -, heq⟩ := pieceBy_eq_some h
    exact ⟨stands_of_whitespace h, heq ▸ rfl⟩
  rcases eq_some_of_orElse h with h | h
  · obtain ⟨l, -, heq⟩ := pieceBy_eq_some h
    exact ⟨stands_of_lineComment h, heq ▸ rfl⟩
  rcases eq_some_of_orElse h with h | h
  · obtain ⟨l, -, heq⟩ := pieceBy_eq_some h
    exact ⟨stands_of_blockComment h, heq ▸ rfl⟩
  · obtain ⟨l, -, heq⟩ := pieceBy_eq_some h
    exact ⟨stands_of_lineEnd h, heq ▸ rfl⟩

/-- Only one sort of piece starts with the first two characters of a piece. -/
theorem leadingPiece_of_stands {piece : Trivia} {rest : List Char} (h : Stands piece rest) :
    leadingPiece (piece.text.toList ++ rest) = some (piece, rest) := by
  cases h with
  | @whitespace c cs _ blank stop =>
    obtain ⟨hc, hcs⟩ := List.forall_mem_cons.1 blank
    have hrun := Scan.run_append hcs stop
    simp [leadingPiece, pieceBy, Scan.whitespace, Scan.run1, Scan.seq, Scan.one, text, hc, hrun]
  | lineFeed => rfl
  | returnFeed => rfl
  | lineReturn stop =>
    cases rest with
    | nil => rfl
    | cons d rest =>
      have hd : ¬ ('\n' = d) := fun heq => stop (by rw [heq]; rfl)
      simp [leadingPiece, pieceBy, Scan.whitespace, Scan.run1, Scan.seq, Scan.one, Scan.isSpacing,
        Scan.lineEnd, Scan.choice, Scan.or, Scan.literal, Text.dropHead?, text, hd]
  | lineComment plain stop =>
    simp [leadingPiece, pieceBy, Scan.whitespace, Scan.run1, Scan.seq, Scan.one, Scan.isSpacing,
      Scan.lineEnd, Scan.choice, Scan.or, Scan.literal, Text.dropHead?, text, Scan.lineComment,
      Scan.restOfLine_append plain stop]
  | blockComment closed =>
    simp [leadingPiece, pieceBy, Scan.whitespace, Scan.run1, Scan.seq, Scan.one, Scan.isSpacing,
      Scan.lineEnd, Scan.choice, Scan.or, Scan.literal, Text.dropHead?, text, Scan.lineComment,
      Scan.blockComment, closed]
  | directive plain stop =>
    simp [leadingPiece, pieceBy, Scan.whitespace, Scan.run1, Scan.seq, Scan.one, Scan.isSpacing,
      Scan.lineEnd, Scan.choice, Scan.or, Scan.literal, Text.dropHead?, text, Scan.lineComment,
      Scan.blockComment, Scan.directive, Scan.restOfLine_append plain stop]

theorem trailingPiece_of_stands {piece : Trivia} {rest : List Char} (h : Stands piece rest)
    (hplain : piece.isDirective = false) :
    trailingPiece (piece.text.toList ++ rest) = some (piece, rest) := by
  cases h with
  | @whitespace c cs _ blank stop =>
    obtain ⟨hc, hcs⟩ := List.forall_mem_cons.1 blank
    have hrun := Scan.run_append hcs stop
    simp [trailingPiece, pieceBy, Scan.whitespace, Scan.run1, Scan.seq, Scan.one, text, hc, hrun]
  | lineFeed => rfl
  | returnFeed => rfl
  | lineReturn stop =>
    cases rest with
    | nil => rfl
    | cons d rest =>
      have hd : ¬ ('\n' = d) := fun heq => stop (by rw [heq]; rfl)
      simp [trailingPiece, pieceBy, Scan.whitespace, Scan.run1, Scan.seq, Scan.one, Scan.isSpacing,
        Scan.lineComment, Scan.blockComment, Scan.lineEnd, Scan.choice, Scan.or, Scan.literal,
        Text.dropHead?, text, hd]
  | lineComment plain stop =>
    simp [trailingPiece, pieceBy, Scan.whitespace, Scan.run1, Scan.seq, Scan.one, Scan.isSpacing,
      Scan.literal, Text.dropHead?, text, Scan.lineComment, Scan.restOfLine_append plain stop]
  | blockComment closed =>
    simp [trailingPiece, pieceBy, Scan.whitespace, Scan.run1, Scan.seq, Scan.one, Scan.isSpacing,
      Scan.literal, Text.dropHead?, text, Scan.lineComment, Scan.blockComment, closed]
  | directive plain stop => cases hplain

/-- The characters that a piece of trivia may start with. -/
def starts : List Char :=
  [' ', '\t', '\ufeff', '\x0c', '\n', '\r', '/', '#']

theorem leadingPiece_eq_none {c : Char} (hc : c ∉ starts) (cs : List Char) :
    leadingPiece (c :: cs) = none := by
  obtain ⟨hspace, htab, hmark, hform, hfeed, hreturn, hslash, hhash⟩ := by
    simpa [starts] using hc
  simp [leadingPiece, pieceBy, Scan.whitespace, Scan.run1, Scan.seq, Scan.one, Scan.isSpacing,
    Scan.lineEnd, Scan.choice, Scan.or, Scan.literal, Text.dropHead?, Scan.lineComment,
    Scan.blockComment, Scan.directive, hspace, htab, hmark, hform, Ne.symm hfeed, Ne.symm hreturn,
    Ne.symm hslash, Ne.symm hhash]

theorem readLeading_eq_nil {c : Char} (hc : c ∉ starts) (cs : List Char) :
    readLeading (c :: cs) = ([], c :: cs) := by
  simp only [readLeading, List.length_cons, leadingRun, leadingPiece_eq_none hc]

theorem trailingPiece_eq_none {c : Char} (hc : c ∉ starts ∨ c = '#') (cs : List Char) :
    trailingPiece (c :: cs) = none := by
  obtain ⟨hspace, htab, hmark, hform, hfeed, hreturn, hslash⟩ : (¬c = ' ' ∧ ¬c = '\t' ∧
      ¬c = '\ufeff' ∧ ¬c = '\x0c' ∧ ¬c = '\n' ∧ ¬c = '\r' ∧ ¬c = '/') := by
    rcases hc with hc | rfl
    · obtain ⟨hspace, htab, hmark, hform, hfeed, hreturn, hslash, -⟩ := by simpa [starts] using hc
      exact ⟨hspace, htab, hmark, hform, hfeed, hreturn, hslash⟩
    · decide
  simp [trailingPiece, pieceBy, Scan.whitespace, Scan.run1, Scan.seq, Scan.one, Scan.isSpacing,
    Scan.lineEnd, Scan.choice, Scan.or, Scan.literal, Text.dropHead?, Scan.lineComment,
    Scan.blockComment, hspace, htab, hmark, hform, Ne.symm hfeed, Ne.symm hreturn, Ne.symm hslash]

theorem Stands.text_ne {piece : Trivia} {rest : List Char} (h : Stands piece rest) :
    piece.text.toList ≠ [] := by
  cases h <;> simp [text]

/-! ## Runs of trivia -/

/-- A run of leading trivia ends where no piece starts. -/
theorem leadingRun_stops {bound : Nat} {cs : List Char} (h : cs.length ≤ bound) :
    leadingPiece (leadingRun bound cs).2 = none := by
  fun_induction leadingRun bound cs with
  | case1 cs =>
    rw [List.length_eq_zero_iff.1 (Nat.le_zero.1 h)]
    rfl
  | case2 bound cs hnone => exact hnone
  | case3 bound cs piece rest hpiece pieces rest' hrun ih =>
    rw [hrun] at ih
    have hlength := congrArg List.length (leadingPiece_split hpiece)
    have hpos := List.length_pos_iff.2 (stands_of_leadingPiece hpiece).text_ne
    rw [List.length_append] at hlength
    exact ih (by omega)

/-- What stands between two tokens: the trivia up to the second one, where no trivia starts. -/
theorem leadingRun_swap {bound : Nat} {shared rest rest' : List Char} (hne : shared ≠ [])
    (hreturn : shared ≠ ['\r'])
    (hnone : leadingPiece (shared ++ rest) = none → leadingPiece (shared ++ rest') = none)
    {run : List Trivia}
    (h : leadingRun bound ((textOf run).toList ++ (shared ++ rest)) = (run, shared ++ rest))
    (henough : ((textOf run).toList ++ (shared ++ rest)).length ≤ bound)
    {bound' : Nat} (hbound : ((textOf run).toList ++ (shared ++ rest')).length ≤ bound') :
    leadingRun bound' ((textOf run).toList ++ (shared ++ rest')) = (run, shared ++ rest') := by
  have hpos := List.length_pos_iff.2 hne
  simp only [List.length_append] at henough hbound
  obtain ⟨bound, rfl⟩ : ∃ n, bound = n + 1 := ⟨bound - 1, by omega⟩
  obtain ⟨bound', rfl⟩ : ∃ n, bound' = n + 1 := ⟨bound' - 1, by omega⟩
  induction run generalizing bound bound' with
  | nil =>
    rw [textOf_nil, String.toList_empty, List.nil_append, leadingRun] at h ⊢
    split at h
    · rename_i hstop
      rw [hnone hstop]
    · cases congrArg Prod.fst h
  | cons piece run ih =>
    rw [leadingRun] at h
    split at h
    · cases congrArg Prod.fst h
    · rename_i found mid hfound
      obtain ⟨hrun, hstop⟩ := Prod.mk.inj h
      obtain ⟨rfl, hrun'⟩ := List.cons.inj hrun
      have hsplit := leadingPiece_split hfound
      rw [textOf_cons, String.toList_append, List.append_assoc] at hsplit ⊢
      rw [textOf_cons, String.toList_append, List.length_append] at henough hbound
      obtain rfl := (List.append_cancel_left hsplit).symm
      have hstands := stands_of_leadingPiece hfound
      rw [← List.append_assoc] at hstands
      have hshared : (textOf run).toList ++ shared ≠ ['\r'] := by
        intro heq
        rcases List.append_eq_singleton_iff.1 heq with ⟨-, heq⟩ | ⟨-, heq⟩
        · exact hreturn heq
        · exact hne heq
      -- The piece ends within what both texts share.
      have hpiece := leadingPiece_of_stands (hstands.swap (by simp [hne]) hshared rest')
      rw [List.append_assoc] at hpiece
      have hlength := List.length_pos_iff.2 hstands.text_ne
      obtain ⟨bound, rfl⟩ : ∃ n, bound = n + 1 := ⟨bound - 1, by omega⟩
      obtain ⟨bound', rfl⟩ : ∃ n, bound' = n + 1 := ⟨bound' - 1, by omega⟩
      have hrest := ih bound (Prod.ext hrun' hstop) (by omega) bound' (by omega)
      rw [leadingRun, hpiece]
      simp only [hrest]

/-- The trivia of a token ends in front of that of the next one where it does so for good: the next
    piece is a directive, or there is none. -/
theorem trailingPiece_swap {c : Char} {cs rest : List Char} (hc : c ∉ starts) (rest' : List Char)
    {run : List Trivia}
    (h : readLeading ((textOf run).toList ++ (c :: cs ++ rest)) = (run, c :: cs ++ rest))
    (hnone : trailingPiece ((textOf run).toList ++ c :: cs ++ rest) = none) :
    trailingPiece ((textOf run).toList ++ c :: cs ++ rest') = none := by
  cases run with
  | nil => exact trailingPiece_eq_none (.inl hc) _
  | cons piece run =>
    unfold readLeading at h
    rw [List.length_append, List.cons_append, List.length_cons, ← Nat.add_assoc, leadingRun] at h
    split at h
    · cases congrArg Prod.fst h
    · rename_i found mid hfound
      obtain ⟨rfl, -⟩ := List.cons.inj (Prod.mk.inj h).1
      have hstands := stands_of_leadingPiece hfound
      have hdirective : found.isDirective = true := by
        refine eq_true_of_ne_false fun hplain => ?_
        have hsome := trailingPiece_of_stands hstands hplain
        rw [← leadingPiece_split hfound] at hsome
        rw [List.append_assoc, List.cons_append, hsome] at hnone
        cases hnone
      cases hstands with
      | directive plain stop =>
        simp only [textOf_cons, text, String.toList_append, String.toList_ofList, List.cons_append]
        exact trailingPiece_eq_none (.inr rfl) _
      | _ => cases hdirective

theorem trailingRun_swap {bound : Nat} {shared rest rest' : List Char} (hne : shared ≠ [])
    (hreturn : shared ≠ ['\r'])
    (hnone : trailingPiece (shared ++ rest) = none → trailingPiece (shared ++ rest') = none)
    {run : List Trivia}
    (h : trailingRun bound ((textOf run).toList ++ (shared ++ rest)) = (run, shared ++ rest))
    (henough : ((textOf run).toList ++ (shared ++ rest)).length ≤ bound)
    {bound' : Nat} (hbound : ((textOf run).toList ++ (shared ++ rest')).length ≤ bound') :
    trailingRun bound' ((textOf run).toList ++ (shared ++ rest')) = (run, shared ++ rest') := by
  have hpos := List.length_pos_iff.2 hne
  simp only [List.length_append] at henough hbound
  obtain ⟨bound, rfl⟩ : ∃ n, bound = n + 1 := ⟨bound - 1, by omega⟩
  obtain ⟨bound', rfl⟩ : ∃ n, bound' = n + 1 := ⟨bound' - 1, by omega⟩
  induction run generalizing bound bound' with
  | nil =>
    rw [textOf_nil, String.toList_empty, List.nil_append, trailingRun] at h ⊢
    split at h
    · rename_i hstop
      rw [hnone hstop]
    · split at h
      · cases congrArg Prod.fst h
      · cases congrArg Prod.fst h
  | cons piece run ih =>
    rw [trailingRun] at h
    split at h
    · cases congrArg Prod.fst h
    · rename_i found mid hfound
      obtain ⟨hstands, hplain⟩ := stands_of_trailingPiece hfound
      have hsplit := trailingPiece_split hfound
      rw [textOf_cons, String.toList_append, List.append_assoc] at hsplit ⊢
      rw [textOf_cons, String.toList_append, List.length_append] at henough hbound
      split at h
      · rename_i hline
        obtain ⟨hrun, hmid⟩ := Prod.mk.inj h
        obtain ⟨rfl, rfl⟩ := List.cons.inj hrun
        rw [hmid] at hstands
        have hpiece := trailingPiece_of_stands (hstands.swap hne hreturn rest') hplain
        rw [textOf_nil, String.toList_empty, List.nil_append, trailingRun, hpiece]
        simp only [hline, if_true]
      · rename_i hline
        obtain ⟨hrun, hstop⟩ := Prod.mk.inj h
        obtain ⟨rfl, hrun'⟩ := List.cons.inj hrun
        -- The piece is no line end, so the run goes on behind it.
        obtain rfl := (List.append_cancel_left hsplit).symm
        rw [← List.append_assoc] at hstands
        have hshared : (textOf run).toList ++ shared ≠ ['\r'] := by
          intro heq
          rcases List.append_eq_singleton_iff.1 heq with ⟨-, heq⟩ | ⟨-, heq⟩
          · exact hreturn heq
          · exact hne heq
        have hpiece :=
          trailingPiece_of_stands (hstands.swap (by simp [hne]) hshared rest') hplain
        rw [List.append_assoc] at hpiece
        have hlength := List.length_pos_iff.2 hstands.text_ne
        obtain ⟨bound, rfl⟩ : ∃ n, bound = n + 1 := ⟨bound - 1, by omega⟩
        obtain ⟨bound', rfl⟩ : ∃ n, bound' = n + 1 := ⟨bound' - 1, by omega⟩
        have hrest := ih bound (Prod.ext hrun' hstop) (by omega) bound' (by omega)
        rw [trailingRun, hpiece]
        simp only [hline, hrest]
        rfl

end Trivia

end Recast
