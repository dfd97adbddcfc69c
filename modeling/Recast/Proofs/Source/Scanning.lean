-- SUMMARY: The lexer gives its input back: the tokens of a text print to the text, the empty token comes last, and the spans follow one another.
import Recast.Source.Lexer

/-! # Scanning loses nothing

A scanner is *exact* when the lexeme and the rest that it returns are its input. Exactness is kept
by every combinator, together with a lower bound on the length of the lexeme, so it holds of all
lexemes and pieces of trivia at once. `Token.scanFrom` is then taken apart once, into the step of
reading one token, and what holds of a whole text follows by induction on the steps. -/

namespace Recast

namespace Scan

/-- The scanner gives back what it read, and a lexeme has at least `least` characters. -/
def Exact (least : Nat) (s : Scan) : Prop :=
  ∀ ⦃cs l rest⦄, s cs = some (l, rest) → cs = l ++ rest ∧ least ≤ l.length

/-! ## Combinators -/

theorem Exact.mono {m n : Nat} {s : Scan} (hs : Exact n s) (hle : m ≤ n) : Exact m s := by
  intro cs l rest h
  obtain ⟨hsplit, hlen⟩ := hs h
  exact ⟨hsplit, by omega⟩

theorem exact_literal (text : String) : Exact text.toList.length (literal text) := by
  intro cs l rest h
  obtain ⟨tail, hdrop, heq⟩ := Option.map_eq_some_iff.1 h
  obtain ⟨rfl, rfl⟩ := Prod.mk.inj heq
  exact ⟨Text.dropHead?_eq_some_iff.1 hdrop, Nat.le_refl _⟩

theorem exact_one (p : Char → Bool) : Exact 1 (one p) := by
  intro cs l rest h
  cases cs with
  | nil => simp [one] at h
  | cons c cs =>
    simp only [one] at h
    split at h
    · obtain ⟨rfl, rfl⟩ := Prod.mk.inj (Option.some.inj h)
      exact ⟨rfl, Nat.le_refl _⟩
    · cases h

theorem exact_run (p : Char → Bool) : Exact 0 (run p) := by
  intro cs l rest h
  obtain ⟨rfl, rfl⟩ := Prod.mk.inj (Option.some.inj h)
  exact ⟨List.takeWhile_append_dropWhile.symm, Nat.zero_le _⟩

theorem Exact.seq {m n : Nat} {s t : Scan} (hs : Exact m s) (ht : Exact n t) :
    Exact (m + n) (seq s t) := by
  intro cs l rest h
  simp only [Scan.seq] at h
  split at h
  · cases h
  · rename_i first mid hfirst
    split at h
    · cases h
    · rename_i second tail hsecond
      obtain ⟨rfl, rfl⟩ := Prod.mk.inj (Option.some.inj h)
      obtain ⟨rfl, hm⟩ := hs hfirst
      obtain ⟨rfl, hn⟩ := ht hsecond
      exact ⟨(List.append_assoc ..).symm, by simp only [List.length_append]; omega⟩

theorem exact_run1 (p : Char → Bool) : Exact 1 (run1 p) :=
  (exact_one p).seq (exact_run p)

theorem Exact.opt {n : Nat} {s : Scan} (hs : Exact n s) : Exact 0 (opt s) := by
  intro cs l rest h
  simp only [Scan.opt] at h
  split at h
  · obtain ⟨rfl, rfl⟩ := Prod.mk.inj (Option.some.inj h)
    exact ⟨rfl, Nat.zero_le _⟩
  · rename_i split hsplit
    exact ⟨(hs (hsplit.trans h)).1, Nat.zero_le _⟩

theorem Exact.or {n : Nat} {s t : Scan} (hs : Exact n s) (ht : Exact n t) : Exact n (or s t) := by
  intro cs l rest h
  simp only [Scan.or] at h
  split at h
  · exact ht h
  · rename_i split hsplit
    exact hs (hsplit.trans h)

theorem exact_choice {n : Nat} {scans : List Scan} (h : ∀ s ∈ scans, Exact n s) :
    Exact n (choice scans) := by
  induction scans with
  | nil => intro cs l rest h; cases h
  | cons s rest ih =>
    exact (h s List.mem_cons_self).or (ih fun t ht => h t (List.mem_cons_of_mem _ ht))

/-! ## Lexemes and trivia -/

theorem exact_lineEnd : Exact 1 lineEnd := by
  refine exact_choice fun s hs => ?_
  simp only [List.mem_cons, List.not_mem_nil, or_false] at hs
  obtain rfl | rfl | rfl := hs
  · exact exact_literal "\n"
  · exact (exact_literal "\r\n").mono (by decide)
  · exact exact_literal "\r"

theorem exact_restOfLine : Exact 0 restOfLine := by
  intro cs l rest h
  have hall := List.takeWhile_append_dropWhile (p := fun c => c ≠ '\r' && c ≠ '\n') (l := cs)
  simp only [restOfLine] at h
  split at h
  · rename_i tail htail
    obtain ⟨rfl, rfl⟩ := Prod.mk.inj (Option.some.inj h)
    exact ⟨by rw [← htail]; exact hall.symm, Nat.zero_le _⟩
  · cases h
  · obtain ⟨rfl, rfl⟩ := Prod.mk.inj (Option.some.inj h)
    exact ⟨hall.symm, Nat.zero_le _⟩

theorem exact_blockEnd : Exact 0 blockEnd := by
  intro cs
  fun_induction blockEnd cs with
  | case1 => intro l rest h; cases h
  | case2 rest =>
    intro l rest h
    obtain ⟨rfl, rfl⟩ := Prod.mk.inj (Option.some.inj h)
    exact ⟨rfl, Nat.zero_le _⟩
  | case3 c cs _ hnone ih => intro l rest h; cases h
  | case4 c cs _ l rest hsome ih =>
    intro l' rest' h
    obtain ⟨rfl, rfl⟩ := Prod.mk.inj (Option.some.inj h)
    exact ⟨by rw [List.cons_append, ← (ih hsome).1], Nat.zero_le _⟩

theorem exact_identifier : Exact 1 identifier :=
  ((exact_literal "@").opt.seq ((exact_one _).seq (exact_run _))).mono (by decide)

theorem exact_basedNumber : Exact 1 basedNumber :=
  ((exact_literal "0").seq
    ((exact_one _).seq ((exact_run1 _).seq (exact_run _)))).mono (by decide)

/-- The part of a number after the point. -/
theorem exact_fraction : Exact 0 (opt (seq (literal ".") (run1 Text.isAsciiDigit))) :=
  ((exact_literal ".").seq (exact_run1 _)).opt

/-- The exponent of a number, with its sign. -/
theorem exact_exponent : Exact 0 (opt (seq (one fun c => c == 'e' || c == 'E')
    (seq (opt (one fun c => c == '+' || c == '-')) (run1 Text.isAsciiDigit)))) :=
  ((exact_one _).seq ((exact_one _).opt.seq (exact_run1 _))).opt

theorem exact_decimalNumber : Exact 1 decimalNumber :=
  ((exact_run1 _).seq ((exact_run _).seq
    (exact_fraction.seq (exact_exponent.seq (exact_run _))))).mono (by decide)

theorem exact_number : Exact 1 number :=
  exact_basedNumber.or exact_decimalNumber

theorem push_eq_some {c : Char} {l rest : List Char} {o : Option (List Char × List Char)}
    (h : push c o = some (l, rest)) : ∃ l', l = c :: l' ∧ o = some (l', rest) := by
  cases o with
  | none => cases h
  | some split =>
    obtain ⟨rfl, rfl⟩ := Prod.mk.inj (Option.some.inj h)
    exact ⟨_, rfl, rfl⟩

/-- One character in front of an exact scanner, as every step of a quoted literal is. -/
theorem exact_push {cs : List Char} {o : Option (List Char × List Char)}
    (ih : ∀ ⦃l rest⦄, o = some (l, rest) → cs = l ++ rest ∧ 1 ≤ l.length)
    {c : Char} {l rest : List Char} (h : push c o = some (l, rest)) :
    c :: cs = l ++ rest ∧ 1 ≤ l.length := by
  obtain ⟨l', rfl, ho⟩ := push_eq_some h
  exact ⟨by rw [List.cons_append, ← (ih ho).1], by simp⟩

theorem exact_quoted (style : QuoteStyle) (state : QuoteState) : Exact 1 (quoted style state) := by
  intro cs
  fun_induction quoted style state cs <;> intro l rest h
  case case1 | case6 | case15 => cases h
  case case5 =>
    obtain ⟨rfl, rfl⟩ := Prod.mk.inj (Option.some.inj h)
    exact ⟨rfl, Nat.le_refl _⟩
  -- Every step but the closing quote and the refusals pushes the character that it looks at.
  all_goals
    rename_i ih
    exact exact_push ih h

theorem exact_quotedLiteral (opening : String) (style : QuoteStyle) :
    Exact 1 (quotedLiteral opening style) :=
  ((exact_literal opening).seq (exact_quoted style .text)).mono (Nat.le_add_left ..)

theorem exact_interpolatedString : Exact 1 interpolatedString := by
  refine exact_choice fun s hs => ?_
  simp only [List.mem_cons, List.not_mem_nil, or_false] at hs
  obtain rfl | rfl | rfl := hs <;> exact exact_quotedLiteral _ _

theorem exact_punctuation : Exact 1 punctuation := by
  refine Exact.or (exact_choice fun s hs => ?_) (exact_one _)
  obtain ⟨text, htext, rfl⟩ := List.mem_map.1 hs
  have hlen : ∀ text ∈ longMarks, 1 ≤ text.toList.length := by decide
  exact (exact_literal text).mono (hlen text htext)

end Scan

/-- The first of two readings that applies. -/
theorem eq_some_of_orElse {α : Type} {first second : Option α} {a : α}
    (h : (first <|> second) = some a) : first = some a ∨ second = some a := by
  cases first with
  | none => exact .inr h
  | some b => exact .inl h

/-! ## Tokens and runs of trivia -/

namespace Token

/-- A lexeme at the start of an input: its text is not empty, and it does not end the text. -/
structure Heads (cs : List Char) (found : Lexeme) : Prop where
  split : cs = found.2.1.toList ++ found.2.2
  nonempty : found.2.1 ≠ ""
  notEnd : found.1 ≠ .endOfFile

theorem heads_of_exact {s : Scan} (hs : s.Exact 1) {cs l rest : List Char}
    (h : s cs = some (l, rest)) {kind : TokenKind} (hkind : kind ≠ .endOfFile) :
    Heads cs (kind, String.ofList l, rest) := by
  obtain ⟨hsplit, hlen⟩ := hs h
  refine ⟨by simpa using hsplit, ?_, hkind⟩
  intro hempty
  have : l = [] := by simpa using congrArg String.toList hempty
  simp [this] at hlen

theorem heads_lexemeBy {kind : TokenKind} {s : Scan} (hs : s.Exact 1) (hkind : kind ≠ .endOfFile)
    {cs : List Char} {found : Lexeme} (h : lexemeBy kind s cs = some found) : Heads cs found := by
  obtain ⟨⟨l, rest⟩, hscan, rfl⟩ := Option.map_eq_some_iff.1 h
  exact heads_of_exact hs hscan hkind

theorem heads_word {cs : List Char} {found : Lexeme} (h : word cs = some found) :
    Heads cs found := by
  obtain ⟨⟨l, rest⟩, hscan, rfl⟩ := Option.map_eq_some_iff.1 h
  refine heads_of_exact Scan.exact_identifier hscan ?_
  split <;> simp

theorem heads_lexeme? {cs : List Char} {found : Lexeme} (h : lexeme? cs = some found) :
    Heads cs found := by
  have hstring : Scan.stringLiteral.Exact 1 :=
    (Scan.exact_quotedLiteral ..).or (Scan.exact_quotedLiteral ..)
  rcases eq_some_of_orElse h with h | h
  · exact heads_lexemeBy (Scan.exact_quotedLiteral ..) (by decide) h
  rcases eq_some_of_orElse h with h | h
  · exact heads_lexemeBy Scan.exact_interpolatedString (by decide) h
  rcases eq_some_of_orElse h with h | h
  · exact heads_lexemeBy hstring (by decide) h
  rcases eq_some_of_orElse h with h | h
  · exact heads_lexemeBy Scan.exact_number (by decide) h
  rcases eq_some_of_orElse h with h | h
  · exact heads_word h
  · exact heads_lexemeBy Scan.exact_punctuation (by decide) h

end Token

namespace Trivia

theorem pieceBy_split {make : String → Trivia} (hmake : ∀ text, (make text).text = text)
    {n : Nat} {s : Scan} (hs : s.Exact n) {cs rest : List Char} {piece : Trivia}
    (h : pieceBy make s cs = some (piece, rest)) : cs = piece.text.toList ++ rest := by
  obtain ⟨⟨l, rest⟩, hscan, heq⟩ := Option.map_eq_some_iff.1 h
  obtain ⟨rfl, rfl⟩ := Prod.mk.inj heq
  simpa [hmake] using (hs hscan).1

theorem leadingPiece_split {cs rest : List Char} {piece : Trivia}
    (h : leadingPiece cs = some (piece, rest)) : cs = piece.text.toList ++ rest := by
  rcases eq_some_of_orElse h with h | h
  · exact pieceBy_split (fun _ => rfl) (Scan.exact_run1 _) h
  rcases eq_some_of_orElse h with h | h
  · exact pieceBy_split (fun _ => rfl) Scan.exact_lineEnd h
  rcases eq_some_of_orElse h with h | h
  · exact pieceBy_split (fun _ => rfl) ((Scan.exact_literal _).seq Scan.exact_restOfLine) h
  rcases eq_some_of_orElse h with h | h
  · exact pieceBy_split (fun _ => rfl) ((Scan.exact_literal _).seq Scan.exact_blockEnd) h
  · exact pieceBy_split (fun _ => rfl) ((Scan.exact_literal _).seq Scan.exact_restOfLine) h

theorem trailingPiece_split {cs rest : List Char} {piece : Trivia}
    (h : trailingPiece cs = some (piece, rest)) : cs = piece.text.toList ++ rest := by
  rcases eq_some_of_orElse h with h | h
  · exact pieceBy_split (fun _ => rfl) (Scan.exact_run1 _) h
  rcases eq_some_of_orElse h with h | h
  · exact pieceBy_split (fun _ => rfl) ((Scan.exact_literal _).seq Scan.exact_restOfLine) h
  rcases eq_some_of_orElse h with h | h
  · exact pieceBy_split (fun _ => rfl) ((Scan.exact_literal _).seq Scan.exact_blockEnd) h
  · exact pieceBy_split (fun _ => rfl) Scan.exact_lineEnd h

theorem leadingRun_split (bound : Nat) (cs : List Char) :
    cs = (textOf (leadingRun bound cs).1).toList ++ (leadingRun bound cs).2 := by
  fun_induction leadingRun bound cs with
  | case1 cs => simp
  | case2 bound cs hnone => simp
  | case3 bound cs piece rest hpiece pieces rest' hrun ih =>
    rw [hrun] at ih
    rw [leadingPiece_split hpiece, ih]
    simp

theorem trailingRun_split (bound : Nat) (cs : List Char) :
    cs = (textOf (trailingRun bound cs).1).toList ++ (trailingRun bound cs).2 := by
  fun_induction trailingRun bound cs with
  | case1 cs => simp
  | case2 bound cs hnone => simp
  | case3 bound cs piece rest hpiece hend => simpa using trailingPiece_split hpiece
  | case4 bound cs piece rest hpiece hend pieces rest' hrun ih =>
    rw [hrun] at ih
    rw [trailingPiece_split hpiece, ih]
    simp

end Trivia

/-! ## Texts -/

namespace Token

/-- One token before another: it takes up bytes, all of them in front of the other. -/
def Precedes (t u : Token) : Prop :=
  ∃ s r, t.span = some s ∧ u.span = some r ∧ s.start < s.stop ∧ s.stop ≤ r.start

/-- What one step of `scanFrom` reads: the token at `offset`, the trivia behind it, and the trivia
    in front of what starts at `next`. -/
structure Step (offset : Nat) (leading : List Trivia) (cs : List Char) (t : Token)
    (next : Nat) (following : List Trivia) (rest : List Char) : Prop where
  leading_eq : t.leading = leading
  span_eq : t.span = some ⟨offset, offset + t.text.utf8ByteSize⟩
  next_eq : next = offset + t.text.utf8ByteSize + (Trivia.textOf t.trailing).utf8ByteSize
    + (Trivia.textOf following).utf8ByteSize
  lexeme_eq : lexeme? cs = some (t.kind, t.text, (Trivia.textOf t.trailing).toList
    ++ ((Trivia.textOf following).toList ++ rest))
  trailing_eq : Trivia.readTrailing ((Trivia.textOf t.trailing).toList
    ++ ((Trivia.textOf following).toList ++ rest)) =
      (t.trailing, (Trivia.textOf following).toList ++ rest)
  following_eq : Trivia.readLeading ((Trivia.textOf following).toList ++ rest) = (following, rest)

section Step

variable {offset next : Nat} {leading following : List Trivia} {cs rest : List Char} {t : Token}

theorem Step.heads (h : Step offset leading cs t next following rest) :
    Heads cs (t.kind, t.text, (Trivia.textOf t.trailing).toList
      ++ ((Trivia.textOf following).toList ++ rest)) :=
  heads_lexeme? h.lexeme_eq

theorem Step.split (h : Step offset leading cs t next following rest) :
    cs = t.text.toList ++ (Trivia.textOf t.trailing).toList ++ (Trivia.textOf following).toList
      ++ rest := by
  simpa using h.heads.split

theorem Step.size_pos (h : Step offset leading cs t next following rest) :
    0 < t.text.utf8ByteSize := by
  rw [Nat.pos_iff_ne_zero]
  exact fun hzero => h.heads.nonempty (String.utf8ByteSize_eq_zero_iff.1 hzero)

end Step

theorem scanFrom_cases {bound offset : Nat} {leading : List Trivia} {cs : List Char}
    {ts : List Token} (h : scanFrom bound offset leading cs = .ok ts) :
    (cs = [] ∧ ts = [endOfText leading offset]) ∨
    ∃ bound' next t following rest us, bound = bound' + 1 ∧ ts = t :: us ∧
      Step offset leading cs t next following rest ∧
      scanFrom bound' next following rest = .ok us := by
  cases cs with
  | nil =>
    simp only [scanFrom] at h
    exact .inl ⟨rfl, (Except.ok.inj h).symm⟩
  | cons c cs =>
    cases bound with
    | zero => cases h
    | succ bound =>
      right
      simp only [scanFrom] at h
      split at h
      · cases h
      · rename_i kind text mid hlexeme
        split at h
        · cases h
        · rename_i us hus
          obtain rfl := Except.ok.inj h
          have htrailing := Trivia.trailingRun_split mid.length mid
          have hfollowing := Trivia.leadingRun_split (Trivia.readTrailing mid).2.length
            (Trivia.readTrailing mid).2
          rw [← Trivia.readTrailing] at htrailing
          rw [← Trivia.readLeading] at hfollowing
          refine ⟨bound, _, _, _, _, us, rfl, rfl, ⟨rfl, rfl, rfl, ?_, ?_, ?_⟩, hus⟩
          · rw [← hfollowing, ← htrailing]
            exact hlexeme
          · rw [← hfollowing, ← htrailing]
          · rw [← hfollowing]

/-- Induction over the steps of a scan: what holds of the end of a text, and is handed on from the
    rest of a text to one token more, holds of all tokens that are read. -/
theorem scanFrom_induction {motive : Nat → List Trivia → List Char → List Token → Prop}
    (finish : ∀ offset leading, motive offset leading [] [endOfText leading offset])
    (step : ∀ {offset leading cs t next following rest us},
      Step offset leading cs t next following rest → motive next following rest us →
      motive offset leading cs (t :: us))
    {bound offset : Nat} {leading : List Trivia} {cs : List Char} {ts : List Token}
    (h : scanFrom bound offset leading cs = .ok ts) : motive offset leading cs ts := by
  induction bound generalizing offset leading cs ts with
  | zero =>
    rcases scanFrom_cases h with ⟨rfl, rfl⟩ | ⟨_, _, _, _, _, _, hbound, _⟩
    · exact finish offset leading
    · cases hbound
  | succ bound ih =>
    rcases scanFrom_cases h with ⟨rfl, rfl⟩ | ⟨_, _, _, _, _, _, hbound, rfl, hstep, hus⟩
    · exact finish offset leading
    · cases hbound
      exact step hstep (ih hus)

/-- The tokens of the rest of a text print to the rest, with the trivia in front of it. -/
theorem sourceOf_scanFrom {bound offset : Nat} {leading : List Trivia} {cs : List Char}
    {ts : List Token} (h : scanFrom bound offset leading cs = .ok ts) :
    sourceOf ts = Trivia.textOf leading ++ String.ofList cs := by
  refine scanFrom_induction
    (motive := fun _ leading cs ts => sourceOf ts = Trivia.textOf leading ++ String.ofList cs)
    ?_ ?_ h
  · intro offset leading
    simp [source, endOfText]
  · intro offset leading cs t next following rest us hstep ih
    rw [sourceOf_cons, ih, source, hstep.leading_eq, hstep.split]
    simp [String.ofList_append, String.append_assoc]

/-- The last token is the empty one at the end of the text, and only the last. -/
theorem scanFrom_finish {bound offset : Nat} {leading : List Trivia} {cs : List Char}
    {ts : List Token} (h : scanFrom bound offset leading cs = .ok ts) :
    ∃ init trivia stop, ts = init ++ [endOfText trivia stop] ∧ ∀ t ∈ init, t.kind ≠ .endOfFile := by
  refine scanFrom_induction (motive := fun _ _ _ ts => ∃ init trivia stop,
    ts = init ++ [endOfText trivia stop] ∧ ∀ t ∈ init, t.kind ≠ .endOfFile) ?_ ?_ h
  · intro offset leading
    exact ⟨[], leading, offset, rfl, by simp⟩
  · rintro offset leading cs t next following rest us hstep ⟨init, trivia, stop, rfl, hinit⟩
    refine ⟨t :: init, trivia, stop, rfl, ?_⟩
    simpa using ⟨hstep.heads.notEnd, hinit⟩

/-- The spans follow one another from the offset on. -/
theorem scanFrom_spans {bound offset : Nat} {leading : List Trivia} {cs : List Char}
    {ts : List Token} (h : scanFrom bound offset leading cs = .ok ts) :
    (∀ t ∈ ts, ∃ s, t.span = some s ∧ offset ≤ s.start) ∧ ts.Pairwise Precedes := by
  refine scanFrom_induction (motive := fun offset _ _ ts =>
    (∀ t ∈ ts, ∃ s, t.span = some s ∧ offset ≤ s.start) ∧ ts.Pairwise Precedes) ?_ ?_ h
  · intro offset leading
    simp [endOfText]
  · rintro offset leading cs t next following rest us hstep ⟨hlater, hordered⟩
    have hsize := hstep.size_pos
    have hnext := hstep.next_eq
    refine ⟨?_, List.pairwise_cons.2 ⟨?_, hordered⟩⟩
    · intro u hu
      rcases List.mem_cons.1 hu with rfl | hu
      · exact ⟨_, hstep.span_eq, Nat.le_refl _⟩
      · obtain ⟨s, hs, hle⟩ := hlater u hu
        exact ⟨s, hs, by omega⟩
    · intro u hu
      obtain ⟨s, hs, hle⟩ := hlater u hu
      exact ⟨_, s, hstep.span_eq, hs, by dsimp only; omega, by dsimp only; omega⟩

/-- What the tokens of a text are: they print to the text, the last one is the empty token at its
    end and only that one, and their spans follow one another. -/
structure Scanned (source : String) (ts : List Token) : Prop where
  source_eq : sourceOf ts = source
  finish : ∃ init trivia stop, ts = init ++ [endOfText trivia stop] ∧
    ∀ t ∈ init, t.kind ≠ .endOfFile
  spans : ∀ t ∈ ts, ∃ s, t.span = some s
  ordered : ts.Pairwise Precedes

theorem scanned_of_scan {text : String} {ts : List Token} (h : scan text = .ok ts) :
    Scanned text ts := by
  have hspans := scanFrom_spans h
  refine ⟨?_, scanFrom_finish h, fun t ht => ?_, hspans.2⟩
  · have hsplit := Trivia.leadingRun_split text.toList.length text.toList
    rw [sourceOf_scanFrom h]
    apply String.toList_inj.1
    rw [String.toList_append, String.toList_ofList]
    exact hsplit.symm
  · obtain ⟨s, hs, -⟩ := hspans.1 t ht
    exact ⟨s, hs⟩

end Token

end Recast
