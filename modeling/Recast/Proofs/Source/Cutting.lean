-- SUMMARY: What the lexer reads of a text it reads of every beginning that still holds it, so the text of a node is scanned into the tokens of the node.
import Recast.Proofs.Grammar.Lossless
import Recast.Proofs.Source.Rescanning
import Recast.Proofs.Tree.Splicing

/-! # Texts that are cut short

The lexer takes the longest match and looks ahead, so what it reads at a place may depend on what
comes later. It depends on it in one direction only: a lexeme that was read is read again when the
text ends earlier, anywhere behind it (`Scan.Stays`), and what was not read does not appear in a
shorter text (`Scan.Refuses`). A verbatim literal is the exception to the second: cut after a
doubled quote, one that was never closed is closed. But nothing else is read where a literal opens,
so no lexeme comes out of that (`Token.lexeme?_cut`).

For trivia the second fails for comments in a line that a lone carriage return ends, since there
the lexer reads no comment at all. Texts without such returns are cut anywhere between two tokens
(`Token.rescans`). -/

namespace Recast

namespace Scan

/-! ## Cuts

`Stays` is closed under sequences, `Refuses` only when the rest of the first scanner gets shorter
with the text, which is what `Follows` says. -/

/-- A lexeme is read again where the rest is cut short. -/
def Stays (s : Scan) : Prop :=
  ∀ ⦃cs l rest⦄, s cs = some (l, rest) → ∀ ⦃rest'⦄, rest' <+: rest → s (l ++ rest') = some (l, rest')

/-- What is not read of a text is not read of a beginning of it either. -/
def Refuses (s : Scan) : Prop :=
  ∀ ⦃cs⦄, s cs = none → ∀ ⦃cs'⦄, cs' <+: cs → s cs' = none

/-- What is left of a beginning is a beginning of what is left. -/
def Follows (s : Scan) : Prop :=
  ∀ ⦃cs l rest⦄, s cs = some (l, rest) → ∀ ⦃cs' l' rest'⦄, cs' <+: cs → s cs' = some (l', rest') →
    rest' <+: rest

theorem stays_literal (text : String) : Stays (literal text) := by
  intro cs l rest h rest' _
  exact literal_eq_some_iff.2 ⟨(literal_eq_some_iff.1 h).1, by rw [(literal_eq_some_iff.1 h).1]⟩

theorem refuses_literal (text : String) : Refuses (literal text) := by
  intro cs h cs' hcut
  rw [literal_eq_none_iff] at h ⊢
  exact fun hpre => h (hpre.trans hcut)

theorem follows_literal (text : String) : Follows (literal text) := by
  intro cs l rest h cs' l' rest' hcut h'
  obtain ⟨-, rfl⟩ := literal_eq_some_iff.1 h
  obtain ⟨-, rfl⟩ := literal_eq_some_iff.1 h'
  exact (List.prefix_append_right_inj _).1 hcut

theorem stays_one (p : Char → Bool) : Stays (one p) := by
  intro cs l rest h rest' _
  obtain ⟨c, hc, -, rfl⟩ := one_eq_some_iff.1 h
  exact if_pos hc

theorem refuses_one (p : Char → Bool) : Refuses (one p) := by
  intro cs h cs' hcut
  cases cs' with
  | nil => rfl
  | cons c cs' =>
    obtain ⟨tail, rfl⟩ := hcut
    rw [List.cons_append, one_cons] at h
    rw [one_cons]
    split at h
    · cases h
    · rename_i hc
      exact if_neg hc

theorem follows_one (p : Char → Bool) : Follows (one p) := by
  intro cs l rest h cs' l' rest' hcut h'
  obtain ⟨c, -, rfl, -⟩ := one_eq_some_iff.1 h
  obtain ⟨c', -, rfl, -⟩ := one_eq_some_iff.1 h'
  exact (List.cons_prefix_cons.1 hcut).2

/-- A beginning starts as the whole text does, if with anything. -/
theorem head?_of_cut {cs cs' : List Char} (hcut : cs' <+: cs) {c : Char} (hc : c ∈ cs'.head?) :
    c ∈ cs.head? := by
  obtain ⟨tail, rfl⟩ := hcut
  rw [List.head?_append, Option.mem_def.1 hc]
  rfl

theorem stays_run (p : Char → Bool) : Stays (run p) := by
  intro cs l rest h rest' hcut
  obtain ⟨hall, hstop⟩ := run_eq_some h
  exact run_append hall fun c hc => hstop c (head?_of_cut hcut hc)

theorem follows_run (p : Char → Bool) : Follows (run p) := by
  intro cs l rest h cs' l' rest' hcut h'
  obtain ⟨-, rfl⟩ := Prod.mk.inj (Option.some.inj h)
  obtain ⟨-, rfl⟩ := Prod.mk.inj (Option.some.inj h')
  obtain ⟨tail, rfl⟩ := hcut
  rw [List.dropWhile_append]
  split
  · rename_i hempty
    rw [List.isEmpty_iff.1 hempty]
    exact List.nil_prefix
  · exact List.prefix_append _ _

/-- A scanner that always applies has nothing to refuse. -/
theorem refuses_of_ne_none {s : Scan} (h : ∀ cs, s cs ≠ none) : Refuses s :=
  fun cs hnone => absurd hnone (h cs)

theorem Stays.seq {s t : Scan} (hs : Stays s) (ht : Stays t) {n : Nat} (hexact : Exact n t) :
    Stays (seq s t) := by
  intro cs l rest h rest' hcut
  obtain ⟨first, mid, second, hfirst, hsecond, rfl⟩ := seq_eq_some_iff.1 h
  obtain ⟨rfl, -⟩ := hexact hsecond
  rw [List.append_assoc]
  exact seq_eq_some_iff.2 ⟨first, second ++ rest', second,
    hs hfirst ((List.prefix_append_right_inj _).2 hcut), ht hsecond hcut, rfl⟩

theorem Refuses.seq {s t : Scan} (hs : Refuses s) (hfollows : Follows s) (ht : Refuses t) :
    Refuses (seq s t) := by
  intro cs h cs' hcut
  rw [Option.eq_none_iff_forall_not_mem]
  rintro ⟨l, rest⟩ hsome
  obtain ⟨first, mid, second, hfirst, hsecond, rfl⟩ := seq_eq_some_iff.1 hsome
  -- The whole text is refused by the first scanner or by the second, and so is the beginning.
  cases hwhole : s cs with
  | none => cases (hs hwhole hcut).symm.trans hfirst
  | some split =>
    have hrefused : t split.2 = none := by
      rw [Option.eq_none_iff_forall_not_mem]
      rintro ⟨m, rest'⟩ hm
      cases h.symm.trans (seq_eq_some_iff.2 ⟨split.1, split.2, m, hwhole, hm, rfl⟩)
    cases (ht hrefused (hfollows hwhole hcut hfirst)).symm.trans hsecond

theorem Follows.seq {s t : Scan} (hs : Follows s) (ht : Follows t) : Follows (seq s t) := by
  intro cs l rest h cs' l' rest' hcut h'
  obtain ⟨first, mid, second, hfirst, hsecond, rfl⟩ := seq_eq_some_iff.1 h
  obtain ⟨first', mid', second', hfirst', hsecond', rfl⟩ := seq_eq_some_iff.1 h'
  exact ht hsecond (hs hfirst hcut hfirst') hsecond'

theorem seq_ne_none {s t : Scan} (hs : ∀ cs, s cs ≠ none) (ht : ∀ cs, t cs ≠ none)
    (cs : List Char) : seq s t cs ≠ none := by
  obtain ⟨split, hsplit⟩ := Option.ne_none_iff_exists'.1 (hs cs)
  obtain ⟨split', hsplit'⟩ := Option.ne_none_iff_exists'.1 (ht split.2)
  rw [Option.ne_none_iff_exists']
  exact ⟨_, seq_eq_some_iff.2 ⟨split.1, split.2, split'.1, hsplit, hsplit', rfl⟩⟩

theorem opt_ne_none (s : Scan) (cs : List Char) : opt s cs ≠ none := by
  unfold opt
  split <;> simp

theorem Stays.opt {s : Scan} (hs : Stays s) (hrefuses : Refuses s) : Stays (opt s) := by
  intro cs l rest h rest' hcut
  simp only [Scan.opt] at h ⊢
  split at h
  · rename_i hnone
    obtain ⟨rfl, rfl⟩ := Prod.mk.inj (Option.some.inj h)
    rw [List.nil_append, hrefuses hnone hcut]
  · rename_i split hsplit
    rw [hs (hsplit.trans h) hcut]

/-- One optional character is there in every beginning but the empty one. -/
theorem follows_opt_one (p : Char → Bool) : Follows (opt (one p)) := by
  intro cs l rest h cs' l' rest' hcut h'
  cases cs' with
  | nil =>
    obtain ⟨-, rfl⟩ := Prod.mk.inj (Option.some.inj h')
    exact List.nil_prefix
  | cons c cs' =>
    obtain ⟨tail, rfl⟩ := hcut
    simp only [opt, List.cons_append, one_cons] at h h'
    cases hc : p c with
    | true =>
      simp only [hc, if_true, Option.some.injEq, Prod.mk.injEq] at h h'
      rw [← h.2, ← h'.2]
      exact List.prefix_append _ _
    | false =>
      simp only [hc, Bool.false_eq_true, if_false, Option.some.injEq, Prod.mk.injEq] at h h'
      rw [← h.2, ← h'.2]
      exact List.prefix_append _ _

theorem Stays.or {s t : Scan} (hs : Stays s) (hrefuses : Refuses s) (ht : Stays t) {n : Nat}
    (hexact : Exact n t) : Stays (or s t) := by
  intro cs l rest h rest' hcut
  simp only [Scan.or] at h ⊢
  split at h
  · rename_i hnone
    obtain ⟨rfl, -⟩ := hexact h
    rw [hrefuses hnone ((List.prefix_append_right_inj _).2 hcut)]
    exact ht h hcut
  · rename_i split hsplit
    rw [hs (hsplit.trans h) hcut]

theorem Refuses.or {s t : Scan} (hs : Refuses s) (ht : Refuses t) : Refuses (or s t) := by
  intro cs h cs' hcut
  simp only [Scan.or] at h ⊢
  split at h
  · rename_i hnone
    rw [hs hnone hcut]
    exact ht h hcut
  · cases h

theorem stays_choice {n : Nat} {scans : List Scan} (hstays : ∀ s ∈ scans, Stays s)
    (hrefuses : ∀ s ∈ scans, Refuses s) (hexact : ∀ s ∈ scans, Exact n s) :
    Stays (choice scans) := by
  induction scans with
  | nil => exact fun _ _ _ h => nomatch h
  | cons s scans ih =>
    rw [List.forall_mem_cons] at hstays hrefuses hexact
    exact hstays.1.or hrefuses.1 (ih hstays.2 hrefuses.2 hexact.2) (exact_choice hexact.2)

theorem refuses_choice {scans : List Scan} (h : ∀ s ∈ scans, Refuses s) :
    Refuses (choice scans) := by
  induction scans with
  | nil => exact fun _ _ _ _ => rfl
  | cons s scans ih =>
    rw [List.forall_mem_cons] at h
    exact h.1.or (ih h.2)

/-! ## Words, numbers and marks -/

theorem stays_run1 (p : Char → Bool) : Stays (run1 p) :=
  (stays_one p).seq (stays_run p) (exact_run p)

theorem refuses_run1 (p : Char → Bool) : Refuses (run1 p) :=
  (refuses_one p).seq (follows_one p) (refuses_of_ne_none fun _ => nofun)

theorem follows_run1 (p : Char → Bool) : Follows (run1 p) :=
  (follows_one p).seq (follows_run p)

theorem literal_at : literal "@" = one (· == '@') := by
  funext cs
  cases cs with
  | nil => rfl
  | cons c cs =>
    by_cases hc : '@' = c
    · subst hc
      rfl
    · rw [literal_eq_none rfl hc, one_cons, if_neg (by simpa using Ne.symm hc)]

theorem stays_identifier : Stays identifier :=
  ((stays_literal "@").opt (refuses_literal "@")).seq
    ((stays_one _).seq (stays_run _) (exact_run _)) ((exact_one _).seq (exact_run _))

theorem refuses_identifier : Refuses identifier := by
  refine (refuses_of_ne_none (opt_ne_none _)).seq ?_
    ((refuses_one _).seq (follows_one _) (refuses_of_ne_none fun _ => nofun))
  rw [literal_at]
  exact follows_opt_one _

theorem stays_basedNumber : Stays basedNumber :=
  (stays_literal "0").seq
    ((stays_one _).seq ((stays_run1 _).seq (stays_run _) (exact_run _))
      ((exact_run1 _).seq (exact_run _)))
    ((exact_one _).seq ((exact_run1 _).seq (exact_run _)))

theorem refuses_basedNumber : Refuses basedNumber :=
  (refuses_literal "0").seq (follows_literal "0")
    ((refuses_one _).seq (follows_one _)
      ((refuses_run1 _).seq (follows_run1 _) (refuses_of_ne_none fun _ => nofun)))

/-- The part of a number after the point. -/
theorem stays_fraction : Stays (opt (seq (literal ".") (run1 Text.isAsciiDigit))) :=
  ((stays_literal ".").seq (stays_run1 _) (exact_run1 _)).opt
    ((refuses_literal ".").seq (follows_literal ".") (refuses_run1 _))

/-- The exponent of a number, with its sign. -/
theorem stays_exponent : Stays (opt (seq (one fun c => c == 'e' || c == 'E')
    (seq (opt (one fun c => c == '+' || c == '-')) (run1 Text.isAsciiDigit)))) := by
  have hsign := (stays_one fun c => c == '+' || c == '-').opt (refuses_one _)
  have hdigits := hsign.seq (stays_run1 Text.isAsciiDigit) (exact_run1 _)
  have hrefuses := (refuses_of_ne_none (opt_ne_none (one fun c => c == '+' || c == '-'))).seq
    (follows_opt_one _) (refuses_run1 Text.isAsciiDigit)
  exact ((stays_one _).seq hdigits ((exact_one _).opt.seq (exact_run1 _))).opt
    ((refuses_one _).seq (follows_one _) hrefuses)

theorem stays_decimalNumber : Stays decimalNumber := by
  have hsuffix := exact_run Text.isAsciiLetter
  have hend := stays_exponent.seq (stays_run _) hsuffix
  have hafter := stays_fraction.seq hend (exact_exponent.seq hsuffix)
  have hexact := exact_fraction.seq (exact_exponent.seq hsuffix)
  exact (stays_run1 _).seq ((stays_run _).seq hafter hexact) ((exact_run _).seq hexact)

theorem refuses_decimalNumber : Refuses decimalNumber := by
  refine (refuses_run1 _).seq (follows_run1 _) (refuses_of_ne_none ?_)
  exact seq_ne_none (fun _ => nofun) (seq_ne_none (opt_ne_none _)
    (seq_ne_none (opt_ne_none _) fun _ => nofun))

theorem stays_number : Stays number :=
  stays_basedNumber.or refuses_basedNumber stays_decimalNumber exact_decimalNumber

theorem refuses_number : Refuses number :=
  refuses_basedNumber.or refuses_decimalNumber

theorem stays_punctuation : Stays punctuation := by
  have hmarks : ∀ {P : Scan → Prop}, (∀ text, P (literal text)) →
      ∀ s ∈ longMarks.map literal, P s := by
    intro P hliteral s hs
    obtain ⟨text, -, rfl⟩ := List.mem_map.1 hs
    exact hliteral text
  exact (stays_choice (hmarks stays_literal) (hmarks refuses_literal)
      (hmarks fun text => (exact_literal text).mono (Nat.zero_le _))).or
    (refuses_choice (hmarks refuses_literal)) (stays_one _) (exact_one _)

/-! ## Quoted literals -/

/-- What a quoted literal pushes is read again, with the same character next. -/
theorem push_stays {style : QuoteStyle} {state : QuoteState} {c : Char} {cs l rest rest' : List Char}
    (h : push c (quoted style state cs) = some (l, rest))
    (ih : ∀ ⦃l rest⦄, quoted style state cs = some (l, rest) → ∀ ⦃rest'⦄, rest' <+: rest →
      quoted style state (l ++ rest') = some (l, rest')) (hcut : rest' <+: rest) :
    ∃ l', l = c :: l' ∧ (l' ++ rest').head? = cs.head? ∧
      push c (quoted style state (l' ++ rest')) = some (l, rest') := by
  obtain ⟨l', rfl, ho⟩ := push_eq_some h
  obtain ⟨rfl, hlength⟩ := exact_quoted style state ho
  obtain ⟨d, l', rfl⟩ := List.exists_cons_of_length_pos hlength
  exact ⟨d :: l', rfl, rfl, by rw [ih ho hcut]; rfl⟩

theorem stays_quoted (style : QuoteStyle) (state : QuoteState) : Stays (quoted style state) := by
  intro cs
  fun_induction quoted style state cs <;> intro l rest h rest' hcut
  case case1 | case6 | case15 => cases h
  -- The closing quote is followed by what it was followed by, or by nothing.
  case case5 c cs hescape hhole hquote hdoubled =>
    obtain ⟨rfl, rfl⟩ := Prod.mk.inj (Option.some.inj h)
    have hdoubled' : ¬(style.verbatim && rest'.head? == some style.quote) = true := by
      simp only [Bool.and_eq_true, beq_iff_eq] at hdoubled ⊢
      exact fun hboth => hdoubled ⟨hboth.1, head?_of_cut hcut hboth.2⟩
    rw [List.singleton_append, quoted, if_neg hescape, if_neg hhole, if_pos hquote,
      if_neg hdoubled']
  -- Every other step looks at its own character, and at most at the one that comes next.
  all_goals
    rename_i ih
    obtain ⟨l', rfl, hhead, hagain⟩ := push_stays h ih hcut
    rw [List.cons_append, quoted]
    simp only [*, if_true, if_false, Bool.false_eq_true]

theorem stays_quotedLiteral (opening : String) (style : QuoteStyle) :
    Stays (quotedLiteral opening style) :=
  (stays_literal opening).seq (stays_quoted style .text) (exact_quoted style .text)

end Scan

namespace Token

/-! ## Lexemes -/

/-- The ways in which quoted literals open, with the kinds and the styles of the literals. -/
def openings : List (TokenKind × String × Scan.QuoteStyle) :=
  [(.character, "'", ⟨'\'', false, false⟩), (.interpolated, "$@\"", ⟨'"', true, true⟩),
    (.interpolated, "@$\"", ⟨'"', true, true⟩), (.interpolated, "$\"", ⟨'"', false, true⟩),
    (.string, "@\"", ⟨'"', true, false⟩), (.string, "\"", ⟨'"', false, false⟩)]

/-- A literal, where one opens. -/
def quotation (cs : List Char) : Option Lexeme :=
  openings.findSome? fun entry => lexemeBy entry.1 (Scan.quotedLiteral entry.2.1 entry.2.2) cs

/-- What is read where no literal opens: a number, a word, or a mark. -/
def unquoted (cs : List Char) : Option Lexeme :=
  lexemeBy .number Scan.number cs <|> word cs <|> lexemeBy .punctuation Scan.punctuation cs

theorem lexeme?_eq (cs : List Char) : lexeme? cs = (quotation cs <|> unquoted cs) := by
  simp only [lexeme?, quotation, unquoted, openings, Scan.charLiteral, Scan.interpolatedString,
    Scan.stringLiteral, Scan.choice, Scan.or, lexemeBy, List.findSome?_cons, List.findSome?_nil]
  cases Scan.quotedLiteral "'" ⟨'\'', false, false⟩ cs <;>
  cases Scan.quotedLiteral "$@\"" ⟨'"', true, true⟩ cs <;>
  cases Scan.quotedLiteral "@$\"" ⟨'"', true, true⟩ cs <;>
  cases Scan.quotedLiteral "$\"" ⟨'"', false, true⟩ cs <;>
  cases Scan.quotedLiteral "@\"" ⟨'"', true, false⟩ cs <;>
  cases Scan.quotedLiteral "\"" ⟨'"', false, false⟩ cs <;> rfl

theorem unquoted_eq_none {entry : TokenKind × String × Scan.QuoteStyle} (h : entry ∈ openings)
    (cs : List Char) : unquoted (entry.2.1.toList ++ cs) = none := by
  simp only [openings, List.mem_cons, List.not_mem_nil, or_false] at h
  obtain rfl | rfl | rfl | rfl | rfl | rfl := h <;> rfl

theorem quotation_eq_none {cs : List Char} (h : ∀ entry ∈ openings, ¬entry.2.1.toList <+: cs) :
    quotation cs = none := by
  refine List.findSome?_eq_none_iff.2 fun entry hentry => ?_
  have hnone : Scan.quotedLiteral entry.2.1 entry.2.2 cs = none :=
    Scan.seq_eq_none _ (Scan.literal_eq_none_iff.2 (h entry hentry))
  simp only [lexemeBy, hnone, Option.map_none]

/-- No opening goes on as another one. -/
theorem opening_unique {entry other : TokenKind × String × Scan.QuoteStyle}
    (h : entry ∈ openings) (hother : other ∈ openings) {cs : List Char}
    (hpre : entry.2.1.toList <+: cs) (hpre' : other.2.1.toList <+: cs) : other = entry := by
  have hall : ∀ entry ∈ openings, ∀ other ∈ openings,
      entry.2.1.toList.isPrefixOf other.2.1.toList = true → other = entry := by
    decide
  rcases List.prefix_or_prefix_of_prefix hpre hpre' with hle | hle
  · exact hall entry h other hother (List.isPrefixOf_iff_prefix.2 hle)
  · exact (hall other hother entry h (List.isPrefixOf_iff_prefix.2 hle)).symm

theorem lexeme?_of_opening {entry : TokenKind × String × Scan.QuoteStyle} (h : entry ∈ openings)
    {cs : List Char} (hpre : entry.2.1.toList <+: cs) :
    lexeme? cs = lexemeBy entry.1 (Scan.quotedLiteral entry.2.1 entry.2.2) cs := by
  obtain ⟨more, rfl⟩ := hpre
  rw [lexeme?_eq, unquoted_eq_none h]
  have honly : ∀ {found : Lexeme}, quotation (entry.2.1.toList ++ more) = some found →
      lexemeBy entry.1 (Scan.quotedLiteral entry.2.1 entry.2.2) (entry.2.1.toList ++ more) =
        some found := by
    intro found hfound
    obtain ⟨other, hother, hsome⟩ := List.exists_of_findSome?_eq_some hfound
    obtain ⟨⟨l, rest⟩, hscan, -⟩ := Option.map_eq_some_iff.1 hsome
    obtain ⟨_, _, _, hliteral, -, -⟩ := Scan.seq_eq_some_iff.1 hscan
    have hpre : other.2.1.toList <+: entry.2.1.toList ++ more :=
      ⟨_, (Scan.literal_eq_some_iff.1 hliteral).2.symm⟩
    exact opening_unique h hother (List.prefix_append _ _) hpre ▸ hsome
  cases hfound : quotation (entry.2.1.toList ++ more) with
  | some found => exact (honly hfound).symm
  | none => exact (List.findSome?_eq_none_iff.1 hfound entry h).symm

/-- What the reader reads it reads again where the rest is cut short. -/
def StaysRead (read : List Char → Option Lexeme) : Prop :=
  ∀ ⦃cs kind text rest⦄, read cs = some (kind, text, rest) → ∀ ⦃rest'⦄, rest' <+: rest →
    read (text.toList ++ rest') = some (kind, text, rest')

/-- The class of a lexeme depends on its own characters only. -/
theorem staysRead_map {s : Scan} (hs : s.Stays) (kindOf : List Char → TokenKind) :
    StaysRead fun cs => (s cs).map fun split => (kindOf split.1, String.ofList split.1, split.2) := by
  intro cs kind text rest h rest' hcut
  obtain ⟨⟨l, mid⟩, hscan, heq⟩ := Option.map_eq_some_iff.1 h
  simp only [Prod.mk.injEq] at heq
  obtain ⟨rfl, rfl, rfl⟩ := heq
  simp only [String.toList_ofList, hs hscan hcut, Option.map_some]

theorem staysRead_lexemeBy (kind : TokenKind) {s : Scan} (hs : s.Stays) :
    StaysRead (lexemeBy kind s) :=
  staysRead_map hs fun _ => kind

theorem staysRead_word : StaysRead word :=
  staysRead_map Scan.stays_identifier fun l =>
    if keywords.contains (String.ofList l) then .keyword else .identifier

/-- The second reader is asked again where the first one refuses the whole text. -/
theorem StaysRead.orElse {first second : List Char → Option Lexeme}
    (hfirst : StaysRead first) (hsecond : StaysRead second)
    (hrefuses : ∀ ⦃cs⦄, first cs = none → ∀ ⦃cs'⦄, cs' <+: cs → first cs' = none)
    (hheads : ∀ ⦃cs found⦄, second cs = some found → Heads cs found) :
    StaysRead fun cs => (first cs <|> second cs) := by
  intro cs kind text rest h rest' hcut
  dsimp only at h ⊢
  cases hwhole : first cs with
  | some found =>
    rw [hwhole] at h
    rw [hfirst (hwhole.trans h) hcut]
    rfl
  | none =>
    rw [hwhole] at h
    have hsplit : cs = text.toList ++ rest := (hheads h).split
    rw [hrefuses hwhole (hsplit ▸ (List.prefix_append_right_inj _).2 hcut)]
    exact hsecond h hcut

theorem staysRead_unquoted : StaysRead unquoted := by
  have hnumber : ∀ ⦃cs⦄, lexemeBy .number Scan.number cs = none → ∀ ⦃cs'⦄, cs' <+: cs →
      lexemeBy .number Scan.number cs' = none := by
    intro cs hnone cs' hcut
    exact Option.map_eq_none_iff.2 (Scan.refuses_number (Option.map_eq_none_iff.1 hnone) hcut)
  have hword : ∀ ⦃cs⦄, word cs = none → ∀ ⦃cs'⦄, cs' <+: cs → word cs' = none := by
    intro cs hnone cs' hcut
    exact Option.map_eq_none_iff.2 (Scan.refuses_identifier (Option.map_eq_none_iff.1 hnone) hcut)
  have hmarks : ∀ ⦃cs found⦄, lexemeBy .punctuation Scan.punctuation cs = some found →
      Heads cs found :=
    fun cs found => heads_lexemeBy Scan.exact_punctuation (by decide)
  have hlast := staysRead_word.orElse (staysRead_lexemeBy .punctuation Scan.stays_punctuation) hword
    hmarks
  refine (staysRead_lexemeBy .number Scan.stays_number).orElse hlast hnumber ?_
  intro cs found h
  rcases eq_some_of_orElse h with h | h
  · exact heads_word h
  · exact hmarks h

/-- A lexeme is read again in every beginning of the text that holds it. -/
theorem staysRead_lexeme? : StaysRead lexeme? := by
  intro cs kind text rest h rest' hcut
  have hsplit : cs = text.toList ++ rest := (heads_lexeme? h).split
  by_cases hopening : ∃ entry ∈ openings, entry.2.1.toList <+: cs
  · -- A quotation is read up to its closer, which is part of the lexeme.
    obtain ⟨entry, hentry, hpre⟩ := hopening
    rw [lexeme?_of_opening hentry hpre] at h
    have hagain := staysRead_lexemeBy _ (Scan.stays_quotedLiteral entry.2.1 entry.2.2) h hcut
    obtain ⟨⟨l, mid⟩, hscan, -⟩ := Option.map_eq_some_iff.1 hagain
    obtain ⟨_, _, _, hliteral, -, -⟩ := Scan.seq_eq_some_iff.1 hscan
    rw [lexeme?_of_opening hentry ⟨_, (Scan.literal_eq_some_iff.1 hliteral).2.symm⟩]
    exact hagain
  · have hnone : ∀ entry ∈ openings, ¬entry.2.1.toList <+: cs :=
      fun entry hentry hpre => hopening ⟨entry, hentry, hpre⟩
    have hnone' : ∀ entry ∈ openings, ¬entry.2.1.toList <+: text.toList ++ rest' := by
      intro entry hentry hpre
      refine hnone entry hentry (hpre.trans ?_)
      rw [hsplit]
      exact (List.prefix_append_right_inj _).2 hcut
    rw [lexeme?_eq, quotation_eq_none hnone] at h
    rw [lexeme?_eq, quotation_eq_none hnone']
    exact staysRead_unquoted h hcut

theorem Lexes.cut {t : Token} {rest rest' : List Char} (h : t.Lexes rest) (hcut : rest' <+: rest) :
    t.Lexes rest' :=
  staysRead_lexeme? h hcut

end Token

/-! ## Trivia -/

/-- Every carriage return is followed by a line feed. -/
def Text.pairsReturns : List Char → Bool
  | [] => true
  | c :: cs => (c != '\r' || cs.head? == some '\n') && pairsReturns cs

theorem Text.pairsReturns_of_suffix {cs cs' : List Char} (h : pairsReturns cs = true)
    (hsuffix : cs' <:+ cs) : pairsReturns cs' = true := by
  induction cs with
  | nil => rw [List.suffix_nil.1 hsuffix, pairsReturns]
  | cons c cs ih =>
    rcases List.suffix_cons_iff.1 hsuffix with rfl | hsuffix
    · exact h
    · rw [pairsReturns, Bool.and_eq_true] at h
      exact ih h.2 hsuffix

namespace Scan

theorem restOfLine_ne_none {cs : List Char} (h : Text.pairsReturns cs = true) :
    restOfLine cs ≠ none := by
  have hsuffix := List.dropWhile_suffix (fun c => decide (c ≠ '\r') && decide (c ≠ '\n')) (l := cs)
  have hpairs := Text.pairsReturns_of_suffix h hsuffix
  unfold restOfLine
  dsimp only
  split
  · exact nofun
  · rename_i rest hlone hdrop
    rw [hdrop, Text.pairsReturns] at hpairs
    cases rest with
    | nil => cases hpairs
    | cons d rest =>
      obtain rfl : d = '\n' := by simpa using (Bool.and_eq_true_iff.1 hpairs).1
      exact absurd rfl (hlone rest)
  · exact nofun

/-- A comment up to the end of its line is refused for its mark only. -/
theorem toLineEnd_refused {mark : String} {cs cs' : List Char} (hpairs : Text.pairsReturns cs = true)
    (h : seq (literal mark) restOfLine cs = none) (hcut : cs' <+: cs) :
    seq (literal mark) restOfLine cs' = none := by
  refine seq_eq_none _ (refuses_literal mark ?_ hcut)
  rw [literal_eq_none_iff]
  rintro ⟨rest, rfl⟩
  have hrest := restOfLine_ne_none (Text.pairsReturns_of_suffix hpairs (List.suffix_append _ _))
  obtain ⟨split, hsplit⟩ := Option.ne_none_iff_exists'.1 hrest
  cases h.symm.trans (seq_eq_some_iff.2
    ⟨mark.toList, rest, split.1, literal_eq_some_iff.2 ⟨rfl, rfl⟩, hsplit, rfl⟩)

theorem refuses_blockEnd : Refuses blockEnd := by
  rintro cs h cs' ⟨tail, rfl⟩
  rw [Option.eq_none_iff_forall_not_mem]
  rintro ⟨l, rest⟩ hsome
  obtain ⟨rfl, -⟩ := exact_blockEnd hsome
  rw [List.append_assoc, blockEnd_append hsome] at h
  cases h

theorem refuses_blockComment : Refuses blockComment :=
  (refuses_literal "/*").seq (follows_literal "/*") refuses_blockEnd

theorem refuses_lineEnd : Refuses lineEnd := by
  refine refuses_choice fun s hs => ?_
  simp only [List.mem_cons, List.not_mem_nil, or_false] at hs
  obtain rfl | rfl | rfl := hs <;> exact refuses_literal _

end Scan

namespace Trivia

theorem leadingPiece_eq_none_iff {cs : List Char} : leadingPiece cs = none ↔
    Scan.whitespace cs = none ∧ Scan.lineEnd cs = none ∧ Scan.lineComment cs = none ∧
      Scan.blockComment cs = none ∧ Scan.directive cs = none := by
  simp [leadingPiece, pieceBy]

theorem trailingPiece_eq_none_iff {cs : List Char} : trailingPiece cs = none ↔
    Scan.whitespace cs = none ∧ Scan.lineComment cs = none ∧ Scan.blockComment cs = none ∧
      Scan.lineEnd cs = none := by
  simp [trailingPiece, pieceBy]

theorem leadingPiece_cut {cs cs' : List Char} (hpairs : Text.pairsReturns cs = true)
    (h : leadingPiece cs = none) (hcut : cs' <+: cs) : leadingPiece cs' = none := by
  rw [leadingPiece_eq_none_iff] at h ⊢
  obtain ⟨hblank, hend, hline, hblock, hdirective⟩ := h
  exact ⟨Scan.refuses_run1 _ hblank hcut, Scan.refuses_lineEnd hend hcut,
    Scan.toLineEnd_refused hpairs hline hcut, Scan.refuses_blockComment hblock hcut,
    Scan.toLineEnd_refused hpairs hdirective hcut⟩

theorem trailingPiece_cut {cs cs' : List Char} (hpairs : Text.pairsReturns cs = true)
    (h : trailingPiece cs = none) (hcut : cs' <+: cs) : trailingPiece cs' = none := by
  rw [trailingPiece_eq_none_iff] at h ⊢
  obtain ⟨hblank, hline, hblock, hend⟩ := h
  exact ⟨Scan.refuses_run1 _ hblank hcut, Scan.toLineEnd_refused hpairs hline hcut,
    Scan.refuses_blockComment hblock hcut, Scan.refuses_lineEnd hend hcut⟩

end Trivia

namespace Token

/-! ## Runs of tokens -/

/-- The trivia between each token and the next one. -/
def gaps : List Token → List (List Trivia × List Trivia)
  | t :: u :: ts => (t.trailing, u.leading) :: gaps (u :: ts)
  | _ => []

theorem textOf_congr {us ts : List Token} (hbare : us.map bare = ts.map bare)
    (hgaps : gaps us = gaps ts) : textOf us = textOf ts := by
  have htext : ∀ {u t : Token}, u.bare = t.bare → u.text = t.text := congrArg Prod.snd
  induction ts generalizing us with
  | nil =>
    obtain rfl := List.map_eq_nil_iff.1 hbare
    rfl
  | cons t ts ih =>
    obtain ⟨u, us, rfl, hu, hus⟩ := List.map_eq_cons_iff.1 hbare
    cases ts with
    | nil =>
      obtain rfl := List.map_eq_nil_iff.1 hus
      exact htext hu
    | cons t' ts =>
      obtain ⟨u', us, rfl, hu', hus'⟩ := List.map_eq_cons_iff.1 hus
      rw [gaps, gaps] at hgaps
      obtain ⟨hgap, hgaps⟩ := List.cons.inj hgaps
      obtain ⟨htrailing, hleading⟩ := Prod.mk.inj hgap
      rw [textOf_cons_cons, textOf_cons_cons, htext hu, htrailing, hleading, ih hus hgaps]

theorem Lexes.text_ne_return {t : Token} {rest : List Char} (h : t.Lexes rest) :
    t.text.toList ≠ ['\r'] := by
  intro hreturn
  unfold Lexes at h
  rw [hreturn, List.singleton_append, lexeme?_of_head (.inl (by decide)) (by decide),
    word_eq_none (by decide) (by decide)] at h
  cases h

/-- The next token of the run is cut short behind its lexeme. -/
theorem ReadsOn.cut {t u : Token} {following : List Trivia} {rest rest' : List Char}
    (h : t.ReadsOn following (u.text.toList ++ rest)) (hu : u.Lexes rest)
    (hplain : Text.pairsReturns ((Trivia.textOf following).toList ++ u.text.toList ++ rest) = true ∨
      u.InType) (hcut : rest' <+: rest) : t.ReadsOn following (u.text.toList ++ rest') := by
  have hlonger : ∀ cs : List Char, cs ++ rest' <+: cs ++ rest :=
    fun cs => (List.prefix_append_right_inj cs).2 hcut
  have hne : u.text.toList ≠ [] := fun hnil => hu.text_ne (String.toList_eq_nil_iff.1 hnil)
  have hlexes : t.Lexes ((Trivia.textOf t.trailing).toList ++
      ((Trivia.textOf following).toList ++ (u.text.toList ++ rest'))) := by
    refine h.lexes.cut ?_
    simp only [← List.append_assoc]
    exact hlonger _
  refine h.swap_rest hne hu.text_ne_return hlexes ?_ ?_
  · intro hnone
    rcases hplain with hpairs | htype
    · rw [List.append_assoc] at hpairs
      exact Trivia.leadingPiece_cut
        (Text.pairsReturns_of_suffix hpairs (List.suffix_append _ _)) hnone (hlonger _)
    · obtain ⟨c, cs, hc, hstarts, -⟩ := hu.exists_head htype
      rw [hc]
      exact Trivia.leadingPiece_eq_none hstarts _
  · intro hnone
    rcases hplain with hpairs | htype
    · exact Trivia.trailingPiece_cut hpairs hnone (hlonger _)
    · obtain ⟨c, cs, hc, hstarts, -⟩ := hu.exists_head htype
      have hfollowing := h.following
      rw [hc] at hnone hfollowing ⊢
      exact Trivia.trailingPiece_swap hstarts rest' hfollowing hnone

/-- A run of tokens starts the text that it is read from. -/
theorem textOf_start {t : Token} {ts after : List Token} (hafter : after ≠ []) {bound offset : Nat}
    {leading : List Trivia} {cs : List Char}
    (h : scanFrom bound offset leading cs = .ok (t :: (ts ++ after))) :
    (textOf (t :: ts)).toList <+: cs := by
  induction ts generalizing t bound offset leading cs with
  | nil =>
    obtain ⟨_, _, _, _, -, -, rfl, -⟩ := scanFrom_eq_ok_cons h hafter
    exact List.prefix_append _ _
  | cons u ts ih =>
    obtain ⟨_, _, _, _, -, -, rfl, hnext⟩ := scanFrom_eq_ok_cons h (by simp)
    obtain ⟨_, _, _, _, rfl, -, -, -⟩ := scanFrom_eq_ok_cons hnext (by simp [hafter])
    rw [textOf_cons_cons]
    simp only [String.toList_append]
    exact (List.prefix_append_right_inj _).2 ((List.prefix_append_right_inj _).2
      ((List.prefix_append_right_inj _).2 (ih hnext)))

/-- A run of a text is read again from its own text. The induction is on the run: of the token
    behind the one at hand its lexeme is all that has to be there. -/
theorem rescans {t : Token} {ts after : List Token} (hafter : after ≠ []) {bound offset : Nat}
    {leading : List Trivia} {cs : List Char}
    (h : scanFrom bound offset leading cs = .ok (t :: (ts ++ after)))
    (hplain : Text.pairsReturns cs = true ∨ ∀ u ∈ t :: ts, u.InType) {bound' : Nat}
    (hbound : (textOf (t :: ts)).toList.length ≤ bound') (offset' : Nat) (leading' : List Trivia) :
    ∃ u us last, scanFrom bound' offset' leading' (textOf (t :: ts)).toList = .ok (u :: us ++ [last]) ∧
      last.kind = .endOfFile ∧ u.leading = leading' ∧ (u :: us).map bare = (t :: ts).map bare ∧
      gaps (u :: us) = gaps (t :: ts) := by
  induction ts generalizing t bound offset leading cs bound' offset' leading' with
  | nil =>
    obtain ⟨_, _, _, _, -, hreads, rfl, -⟩ := scanFrom_eq_ok_cons h hafter
    have hne := hreads.lexes.text_ne
    have hpos := List.length_pos_iff.2 fun hnil => hne (String.toList_eq_nil_iff.1 hnil)
    obtain ⟨bound', rfl⟩ : ∃ n, bound' = n + 1 := ⟨bound' - 1, by rw [textOf] at hbound; omega⟩
    -- Nothing comes behind the last token, so what it was read with is cut short to nothing.
    have hlast : ({ t with trailing := [] } : Token).ReadsOn [] [] :=
      ⟨hreads.lexes.cut List.nil_prefix, rfl, rfl⟩
    have hend : ∀ stop, scanFrom bound' stop [] [] = .ok [endOfText [] stop] := by simp [scanFrom]
    have hscan := hlast.scanFrom_eq leading' (hend (offset' + _ + _ + _))
    simp only [Trivia.textOf_nil, String.toList_empty, List.append_nil] at hscan
    exact ⟨_, [], _, hscan, rfl, rfl, rfl, rfl⟩
  | cons u ts ih =>
    obtain ⟨_, _, _, _, -, hreads, rfl, hnext⟩ := scanFrom_eq_ok_cons h (by simp)
    have hprefix := textOf_start hafter hnext
    have hplain' := hplain.imp
      (fun hpairs => Text.pairsReturns_of_suffix hpairs
        ((List.suffix_append _ _).trans ((List.suffix_append _ _).trans (List.suffix_append _ _))))
      fun hall v hv => hall v (List.mem_cons_of_mem _ hv)
    obtain ⟨_, _, _, _, rfl, hreads', rfl, -⟩ := scanFrom_eq_ok_cons hnext (by simp [hafter])
    have hagain : t.ReadsOn u.leading (textOf (u :: ts)).toList := by
      obtain ⟨more, hmore⟩ := exists_textOf_cons u ts
      rw [hmore, String.toList_append] at hprefix ⊢
      refine hreads.cut hreads'.lexes ?_ ((List.prefix_append_right_inj _).1 hprefix)
      refine hplain.imp (fun hpairs => ?_) fun hall => hall u (by simp)
      rw [List.append_assoc]
      exact Text.pairsReturns_of_suffix hpairs
        ((List.suffix_append _ _).trans (List.suffix_append _ _))
    have hsplit : (textOf (t :: u :: ts)).toList = t.text.toList ++
        ((Trivia.textOf t.trailing).toList ++ ((Trivia.textOf u.leading).toList ++
          (textOf (u :: ts)).toList)) := by
      rw [textOf_cons_cons]
      simp only [String.toList_append]
    have hpos := List.length_pos_iff.2 fun hnil =>
      hreads.lexes.text_ne (String.toList_eq_nil_iff.1 hnil)
    have hlength := congrArg List.length hsplit
    simp only [List.length_append] at hlength
    obtain ⟨bound', rfl⟩ : ∃ n, bound' = n + 1 := ⟨bound' - 1, by omega⟩
    obtain ⟨v, vs, last, hscan, hlast, hleading, hwords, hgaps⟩ := ih hnext hplain'
      (show (textOf (u :: ts)).toList.length ≤ bound' by omega) _ u.leading
    refine ⟨{ t with leading := leading', span := some ⟨offset', offset' + t.text.utf8ByteSize⟩ },
      v :: vs, last, ?_, hlast, rfl, ?_, ?_⟩
    · rw [hsplit]
      exact hagain.scanFrom_eq leading' hscan
    · rw [List.map_cons, hwords]
      rfl
    · rw [gaps, gaps, hleading, hgaps]

/-- A run of tokens of a text is read again from its own text, with the same trivia between its
    tokens, when the text has no lone carriage return, or when no token of the run looks like
    trivia. -/
theorem exists_scan_textOf {source : String} {before ts after : List Token}
    (h : scan source = .ok (before ++ (ts ++ after))) (hafter : after ≠ [])
    (hplain : Text.pairsReturns source.toList = true ∨ ∀ u ∈ ts, u.InType) :
    ∃ us last, scan (textOf ts) = .ok (us ++ [last]) ∧ last.kind = .endOfFile ∧
      us.map bare = ts.map bare ∧ gaps us = gaps ts := by
  cases ts with
  | nil => exact ⟨[], endOfText [] 0, rfl, rfl, rfl, rfl⟩
  | cons t ts =>
    obtain ⟨bound, offset, leading, cs, hinside, hsuffix, hstop⟩ :=
      exists_scanFrom_of_scan (by simp) h
    have hplain' := hplain.imp_left fun hpairs => Text.pairsReturns_of_suffix hpairs hsuffix
    obtain ⟨u, us, last, hscan, hlast, -, hwords, hgaps⟩ :=
      rescans hafter hinside hplain' (Nat.le_refl _) 0 []
    refine ⟨u :: us, last, ?_, hlast, hwords, hgaps⟩
    -- No trivia starts at the first token, so the scan of its text starts with it.
    have hnone : Trivia.leadingPiece (textOf (t :: ts)).toList = none := by
      rcases hplain' with hpairs | htype
      · exact Trivia.leadingPiece_cut hpairs hstop (textOf_start hafter hinside)
      · obtain ⟨_, _, _, _, -, hreads, -, -⟩ := scanFrom_eq_ok_cons hinside (by simp [hafter])
        obtain ⟨c, text, hc, hstarts, -⟩ := hreads.lexes.exists_head (htype t (by simp))
        obtain ⟨more, hmore⟩ := exists_textOf_cons t ts
        rw [hmore, String.toList_append, hc]
        exact Trivia.leadingPiece_eq_none hstarts _
    have hleading : Trivia.readLeading (textOf (t :: ts)).toList = ([], (textOf (t :: ts)).toList) := by
      unfold Trivia.readLeading
      cases (textOf (t :: ts)).toList.length with
      | zero => rfl
      | succ bound => rw [Trivia.leadingRun, hnone]
    simp only [scan, hleading]
    exact hscan

end Token

/-! ## Nodes -/

/-- The token that ends a file follows every node in it. -/
theorem Tree.ReadFrom.tokensAfter_ne_nil {source : String} {t : Tree} (h : t.ReadFrom source)
    {p : Path} (hp : p ≠ []) {n : Node} (hat : t.root.at? p = some n) :
    t.root.tokensAfter p ≠ [] := by
  obtain ⟨parts, last, hchildren⟩ := h.children_eq
  cases p with
  | nil => exact absurd rfl hp
  | cons i p =>
    obtain ⟨c, hc, -⟩ := Node.at?_cons_eq_some.1 hat
    rw [Node.tokensAfter_cons hc]
    refine List.append_ne_nil_of_right_ne_nil _ ?_
    rw [hchildren] at hc ⊢
    have hlt : i < parts.length := by
      by_contra hge
      rw [List.getElem?_append_right (Nat.le_of_not_lt hge), List.getElem?_singleton] at hc
      split at hc <;> cases hc
    rw [List.drop_append_of_le_length hlt]
    simp

/-- The text of a node below the root is scanned into the tokens of the node, with the same trivia
    between them, when every carriage return of the file is followed by a line feed. -/
theorem scan_text_of_node {source : String} {reading : Nat} {t : Tree}
    (h : Tree.parse source reading = .ok t) (hpairs : Text.pairsReturns source.toList = true)
    {p : Path} (hp : p ≠ []) {n : Node} (hat : t.root.at? p = some n) :
    ∃ us last, Token.scan n.text = .ok (us ++ [last]) ∧ last.kind = .endOfFile ∧
      us.map Token.bare = n.tokens.map Token.bare ∧ Token.gaps us = Token.gaps n.tokens := by
  have hread := Tree.readFrom_of_parse h
  have hscan := hread.scan
  rw [Node.tokens_around hat, List.append_assoc] at hscan
  exact Token.exists_scan_textOf hscan (hread.tokensAfter_ne_nil hp hat) (.inl hpairs)

theorem scan_text_of_node_sample :
    ∃ t n us last, Tree.parse "class C { int x = 1.5e+3 / 2; }\r\n// end" = .ok t ∧
      t.root.at? [0, 4, 1, 1, 1] = some n ∧ n.text = "= 1.5e+3 / 2" ∧
      Token.scan n.text = .ok (us ++ [last]) ∧ us.map Token.text = ["=", "1.5e+3", "/", "2"] := by
  obtain ⟨t, ht, hnode⟩ := exists_ok_of_map
    (x := Tree.parse "class C { int x = 1.5e+3 / 2; }\r\n// end")
    (f := fun t => (t.root.at? [0, 4, 1, 1, 1]).map fun n => (n.text, n.tokens.map Token.text))
    (b := some ("= 1.5e+3 / 2", ["=", "1.5e+3", "/", "2"])) (by decide +kernel)
  obtain ⟨n, hn, heq⟩ := Option.map_eq_some_iff.1 hnode
  obtain ⟨htext, hwords⟩ := Prod.mk.inj heq
  obtain ⟨us, last, hscan, -, hbare, -⟩ :=
    scan_text_of_node ht (by decide +kernel) (by decide) hn
  refine ⟨t, n, us, last, ht, hn, htext, hscan, ?_⟩
  have htexts := congrArg (List.map Prod.snd) hbare
  rw [List.map_map, List.map_map] at htexts
  exact htexts.trans hwords

end Recast
