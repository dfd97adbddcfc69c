-- SUMMARY: The lexer recovers at a line end: lines without quotes and stars are read behind any text as they are read by themselves.
import Recast.Proofs.Source.Cutting

/-! # Lines behind any text

What is read of a line may depend on all that stands in front of it, since a literal or a comment
may go on over the end of a line. But then it is closed farther on, which takes a quote or a star.
So no lexeme and no comment goes over a line end that no such character comes after
(`Scan.Halts`), whatever the text in front of it is, and what follows is read as behind any other
line end (`Token.Opens.leads_behind`).

The text that follows is put together from the right. `Token.Leads` says what is read behind a
token, with one rule for each kind of gap between two tokens. All of this is said of the scans that
succeed. -/

namespace Recast

/-- The characters that close what may go over a line end. -/
def Text.closers : List Char :=
  ['"', '\'', '*']

/-- No character of the text closes anything. -/
def Text.Plain (cs : List Char) : Prop :=
  ∀ c ∈ cs, c ∉ closers

theorem suffix_of_not_mem {tail l rest : List Char} (h : '\n' :: tail <:+ l ++ rest)
    (hl : '\n' ∉ l) : '\n' :: tail <:+ rest := by
  induction l with
  | nil => exact h
  | cons c l ih =>
    obtain ⟨hc, hl⟩ : '\n' ≠ c ∧ '\n' ∉ l := by simpa using hl
    rcases List.suffix_cons_iff.1 h with heq | h
    · exact absurd (List.cons.inj heq).1 hc
    · exact ih h hl

namespace Scan

/-! ## Scanners at a line end -/

variable {tail : List Char} {s t : Scan}

/-- What is read ends in front of the line end that the tail comes after. -/
def Halts (tail : List Char) (s : Scan) : Prop :=
  ∀ ⦃cs l rest⦄, s cs = some (l, rest) → '\n' :: tail <:+ cs → '\n' :: tail <:+ rest

theorem halts_of_not_mem {n : Nat} (hs : s.Exact n)
    (h : ∀ ⦃cs l rest⦄, s cs = some (l, rest) → '\n' ∉ l) : Halts tail s := by
  intro cs l rest hread hbehind
  rw [(hs hread).1] at hbehind
  exact suffix_of_not_mem hbehind (h hread)

theorem halts_literal {text : String} (h : '\n' ∉ text.toList) : Halts tail (literal text) :=
  halts_of_not_mem (exact_literal text) fun _ _ _ hread => (literal_eq_some_iff.1 hread).1 ▸ h

theorem halts_one {p : Char → Bool} (hp : p '\n' = false) : Halts tail (one p) := by
  refine halts_of_not_mem (exact_one p) fun cs l rest hread hmem => ?_
  obtain ⟨c, hc, -, rfl⟩ := one_eq_some_iff.1 hread
  obtain rfl := List.mem_singleton.1 hmem
  rw [hp] at hc
  cases hc

theorem halts_run {p : Char → Bool} (hp : p '\n' = false) : Halts tail (run p) := by
  refine halts_of_not_mem (exact_run p) fun cs l rest hread hmem => ?_
  have hfeed := (run_eq_some hread).1 _ hmem
  rw [hp] at hfeed
  cases hfeed

theorem Halts.seq (hs : Halts tail s) (ht : Halts tail t) : Halts tail (seq s t) := by
  intro cs l rest hread hbehind
  obtain ⟨first, mid, second, hfirst, hsecond, -⟩ := seq_eq_some_iff.1 hread
  exact ht hsecond (hs hfirst hbehind)

theorem Halts.opt (hs : Halts tail s) : Halts tail (opt s) := by
  intro cs l rest hread hbehind
  rcases opt_eq_some hread with ⟨-, rfl⟩ | hsome
  · exact hbehind
  · exact hs hsome hbehind

theorem Halts.or (hs : Halts tail s) (ht : Halts tail t) : Halts tail (or s t) := by
  intro cs l rest hread hbehind
  unfold Scan.or at hread
  split at hread
  · exact ht hread hbehind
  · rename_i split hsplit
    exact hs (hsplit.trans hread) hbehind

theorem halts_choice {scans : List Scan} (h : ∀ s ∈ scans, Halts tail s) :
    Halts tail (choice scans) := by
  induction scans with
  | nil => exact fun _ _ _ hread => nomatch hread
  | cons s scans ih =>
    obtain ⟨hs, hscans⟩ := List.forall_mem_cons.1 h
    exact hs.or (ih hscans)

theorem halts_run1 {p : Char → Bool} (hp : p '\n' = false) : Halts tail (run1 p) :=
  (halts_one hp).seq (halts_run hp)

theorem halts_identifier : Halts tail identifier :=
  (halts_literal (by decide)).opt.seq ((halts_one (by decide)).seq (halts_run (by decide)))

theorem halts_number : Halts tail number := by
  have hdigits : Halts tail (run1 Text.isAsciiDigit) := halts_run1 (by decide)
  have hbased : Halts tail basedNumber := (halts_literal (by decide)).seq
    ((halts_one (by decide)).seq ((halts_run1 (by decide)).seq (halts_run (by decide))))
  have hfraction : Halts tail (Scan.opt (Scan.seq (literal ".") (run1 Text.isAsciiDigit))) :=
    ((halts_literal (by decide)).seq hdigits).opt
  have hexponent : Halts tail (Scan.opt (Scan.seq (one fun c => c == 'e' || c == 'E')
      (Scan.seq (Scan.opt (one fun c => c == '+' || c == '-')) (run1 Text.isAsciiDigit)))) :=
    ((halts_one (by decide)).seq ((halts_one (by decide)).opt.seq hdigits)).opt
  exact hbased.or (hdigits.seq ((halts_run (by decide)).seq
    (hfraction.seq (hexponent.seq (halts_run (by decide))))))

theorem halts_punctuation : Halts tail punctuation := by
  have hmarks : ∀ text ∈ longMarks, '\n' ∉ text.toList := by decide
  refine (halts_choice fun s hs => ?_).or (halts_one (by decide))
  obtain ⟨text, htext, rfl⟩ := List.mem_map.1 hs
  exact halts_literal (hmarks text htext)

/-! ### Literals and comments

What goes over the line end would have to be closed in the tail. -/

theorem quoted_eq_none {style : QuoteStyle} {state : QuoteState} {cs : List Char}
    (h : style.quote ∉ cs) : quoted style state cs = none := by
  fun_induction quoted style state cs
  case case1 | case6 | case15 => rfl
  case case5 hquote _ => exact absurd (by rw [eq_of_beq hquote]; exact List.mem_cons_self) h
  all_goals
    rename_i ih
    rw [ih fun hmem => h (List.mem_cons_of_mem _ hmem)]
    rfl

theorem halts_quoted {style : QuoteStyle} (hfeed : style.quote ≠ '\n') (hquote : style.quote ∉ tail)
    (state : QuoteState) : Halts tail (quoted style state) := by
  have hpush : ∀ {c : Char} {cs l rest : List Char} {state : QuoteState},
      push c (quoted style state cs) = some (l, rest) → '\n' :: tail <:+ c :: cs →
      (∀ ⦃l rest⦄, quoted style state cs = some (l, rest) → '\n' :: tail <:+ cs →
        '\n' :: tail <:+ rest) → '\n' :: tail <:+ rest := by
    intro c cs l rest state hread hbehind ih
    obtain ⟨l', -, hbody⟩ := push_eq_some hread
    rcases List.suffix_cons_iff.1 hbehind with heq | hbehind
    · rw [← (List.cons.inj heq).2, quoted_eq_none hquote] at hbody
      cases hbody
    · exact ih hbody hbehind
  intro cs
  fun_induction quoted style state cs <;> intro l rest hread hbehind
  -- These cases end the text within the literal.
  case case1 | case6 | case15 => cases hread
  case case5 c cs hescape hhole hclose hdoubled =>
    obtain ⟨-, rfl⟩ := Prod.mk.inj (Option.some.inj hread)
    rcases List.suffix_cons_iff.1 hbehind with heq | hbehind
    · exact absurd ((eq_of_beq hclose).symm.trans (List.cons.inj heq).1.symm) hfeed
    · exact hbehind
  all_goals
    rename_i ih
    exact hpush hread hbehind ih

theorem halts_quotedLiteral {opening : String} {style : QuoteStyle}
    (hopening : '\n' ∉ opening.toList) (hfeed : style.quote ≠ '\n') (hquote : style.quote ∉ tail) :
    Halts tail (quotedLiteral opening style) :=
  (halts_literal hopening).seq (halts_quoted hfeed hquote .text)

theorem blockEnd_eq_none {cs : List Char} (h : '*' ∉ cs) : blockEnd cs = none := by
  induction cs with
  | nil => rfl
  | cons c cs ih =>
    obtain ⟨hc, hcs⟩ : '*' ≠ c ∧ '*' ∉ cs := by simpa using h
    rw [blockEnd, ih hcs]
    exact fun _ heq _ => hc heq.symm

theorem halts_blockEnd (hstar : '*' ∉ tail) : Halts tail blockEnd := by
  intro cs
  fun_induction blockEnd cs <;> intro l rest hread hbehind
  case case1 | case3 => cases hread
  case case2 more =>
    obtain ⟨-, rfl⟩ := Prod.mk.inj (Option.some.inj hread)
    exact suffix_of_not_mem (l := ['*', '/']) hbehind (by decide)
  case case4 c cs hopen l' rest' hsome ih =>
    obtain ⟨-, rfl⟩ := Prod.mk.inj (Option.some.inj hread)
    rcases List.suffix_cons_iff.1 hbehind with heq | hbehind
    · rw [← (List.cons.inj heq).2, blockEnd_eq_none hstar] at hsome
      cases hsome
    · exact ih hsome hbehind

end Scan

namespace Token

variable {tail : List Char}

theorem halts_lexemeBy {kind k : TokenKind} {s : Scan} (hs : s.Halts tail) {cs rest : List Char}
    {text : String} (h : lexemeBy kind s cs = some (k, text, rest))
    (hbehind : '\n' :: tail <:+ cs) : '\n' :: tail <:+ rest := by
  obtain ⟨⟨l, mid⟩, hscan, heq⟩ := Option.map_eq_some_iff.1 h
  simp only [Prod.mk.injEq] at heq
  obtain ⟨-, -, rfl⟩ := heq
  exact hs hscan hbehind

/-- No lexeme goes over a line end that no quote comes after. -/
theorem halts_lexeme? (hplain : Text.Plain tail) {cs rest : List Char} {kind : TokenKind}
    {text : String} (h : lexeme? cs = some (kind, text, rest)) (hbehind : '\n' :: tail <:+ cs) :
    '\n' :: tail <:+ rest := by
  rw [lexeme?_eq] at h
  rcases eq_some_of_orElse h with h | h
  · -- No opening holds a line end, and each quotation ends with a closer, of which none comes
    -- behind.
    have hstyles : ∀ entry ∈ openings, '\n' ∉ entry.2.1.toList ∧ entry.2.2.quote ≠ '\n' ∧
        entry.2.2.quote ∈ Text.closers := by
      decide
    obtain ⟨entry, hentry, hread⟩ := List.exists_of_findSome?_eq_some h
    obtain ⟨hopening, hfeed, hquote⟩ := hstyles entry hentry
    exact halts_lexemeBy (Scan.halts_quotedLiteral hopening hfeed fun hmem => hplain _ hmem hquote)
      hread hbehind
  · rcases eq_some_of_orElse h with h | h
    · exact halts_lexemeBy Scan.halts_number h hbehind
    rcases eq_some_of_orElse h with h | h
    · obtain ⟨⟨l, mid⟩, hscan, heq⟩ := Option.map_eq_some_iff.1 h
      simp only [Prod.mk.injEq] at heq
      obtain ⟨-, -, rfl⟩ := heq
      exact Scan.halts_identifier hscan hbehind
    · exact halts_lexemeBy Scan.halts_punctuation h hbehind

end Token

namespace Trivia

/-! ## Trivia at a line end -/

variable {tail cs rest : List Char} {piece : Trivia}

/-- A piece ends in front of the line end or is the line end itself. -/
theorem Stands.behind (hplain : Text.Plain tail) (h : Stands piece rest)
    (hbehind : '\n' :: tail <:+ piece.text.toList ++ rest) :
    '\n' :: tail <:+ rest ∨ piece.isLineEnd = true ∧ rest = tail := by
  have hline : ∀ (first : List Char) {line : List Char}, '\n' ∉ first →
      (∀ c ∈ line, c ≠ '\r' ∧ c ≠ '\n') → '\n' :: tail <:+ first ++ line ++ rest →
      '\n' :: tail <:+ rest := by
    intro first line hfirst hall hbehind
    refine suffix_of_not_mem hbehind fun hmem => ?_
    rcases List.mem_append.1 hmem with hmem | hmem
    · exact hfirst hmem
    · exact (hall _ hmem).2 rfl
  have hfeed : '\n' :: tail <:+ '\n' :: rest → '\n' :: tail <:+ rest ∨ rest = tail := by
    intro hbehind
    rcases List.suffix_cons_iff.1 hbehind with heq | hbehind
    · exact .inr (List.cons.inj heq).2.symm
    · exact .inl hbehind
  cases h with
  | whitespace blank stop =>
    rw [text, String.toList_ofList] at hbehind
    refine .inl (suffix_of_not_mem hbehind fun hmem => ?_)
    exact absurd (blank _ hmem) (by decide)
  | lineFeed => exact (hfeed hbehind).imp_right fun heq => ⟨rfl, heq⟩
  | returnFeed =>
    have hbehind' : '\n' :: tail <:+ '\n' :: rest :=
      suffix_of_not_mem (l := ['\r']) hbehind (by decide)
    exact (hfeed hbehind').imp_right fun heq => ⟨rfl, heq⟩
  | lineReturn stop => exact .inl (suffix_of_not_mem (l := ['\r']) hbehind (by decide))
  | @lineComment line _ plain stop =>
    rw [text, String.toList_ofList] at hbehind
    exact .inl (hline ['/', '/'] (by decide) plain hbehind)
  | @blockComment body _ closed =>
    -- A comment over the line end would need its closer behind, where there is none.
    rw [text, String.toList_ofList] at hbehind
    have hbody : '\n' :: tail <:+ body ++ rest :=
      suffix_of_not_mem (l := ['/', '*']) hbehind (by decide)
    exact .inl (Scan.halts_blockEnd (fun hmem => hplain _ hmem (by decide)) (closed rest) hbody)
  | @directive line _ plain stop =>
    rw [text, String.toList_ofList] at hbehind
    exact .inl (hline ['#'] (by decide) plain hbehind)

theorem leadingRun_behind (hplain : Text.Plain tail) {bound : Nat} (hbound : cs.length ≤ bound)
    (hbehind : '\n' :: tail <:+ cs) :
    '\n' :: tail <:+ (leadingRun bound cs).2 ∨
      ∃ bound', tail.length ≤ bound' ∧ (leadingRun bound cs).2 = (leadingRun bound' tail).2 := by
  fun_induction leadingRun bound cs with
  | case1 cs => exact .inl hbehind
  | case2 bound cs hnone => exact .inl hbehind
  | case3 bound cs piece rest hpiece pieces rest' hrun ih =>
    have hstands := stands_of_leadingPiece hpiece
    have hsplit := leadingPiece_split hpiece
    rw [hsplit] at hbehind
    have hpos := List.length_pos_iff.2 hstands.text_ne
    rw [hsplit, List.length_append] at hbound
    rw [hrun] at ih
    rcases hstands.behind hplain hbehind with hbehind | ⟨-, rfl⟩
    · exact ih (by omega) hbehind
    · exact .inr ⟨bound, by omega, by rw [hrun]⟩

theorem readTrailing_behind (hplain : Text.Plain tail) (hbehind : '\n' :: tail <:+ cs) :
    '\n' :: tail <:+ (readTrailing cs).2 ∨ (readTrailing cs).2 = tail := by
  unfold readTrailing
  fun_induction trailingRun cs.length cs with
  | case1 cs => exact .inl hbehind
  | case2 bound cs hnone => exact .inl hbehind
  | case3 bound cs piece rest hpiece hend =>
    rw [trailingPiece_split hpiece] at hbehind
    exact ((stands_of_trailingPiece hpiece).1.behind hplain hbehind).imp_right And.right
  | case4 bound cs piece rest hpiece hend pieces rest' hrun ih =>
    rw [trailingPiece_split hpiece] at hbehind
    rw [hrun] at ih
    rcases (stands_of_trailingPiece hpiece).1.behind hplain hbehind with hbehind | ⟨hend', -⟩
    · exact ih hbehind
    · exact absurd hend' hend

end Trivia

namespace Token

/-! ## Texts put together from the right

`front` are the words that a text starts with, and `W` is what is known of those that come after
them. -/

section Reading

/-- When the text can be scanned, it is read as these words and others. -/
def Reads (cs : List Char) (front : List (TokenKind × String))
    (W : List (TokenKind × String) → Prop) : Prop :=
  ∀ ⦃bound offset leading us⦄, scanFrom bound offset leading cs = .ok us →
    ∃ later, us.map bare = front ++ later ∧ W later

/-- The text is read as these words and others, after trivia. -/
def Opens (cs : List Char) (front : List (TokenKind × String))
    (W : List (TokenKind × String) → Prop) : Prop :=
  ∀ ⦃bound⦄, cs.length ≤ bound → Reads (Trivia.leadingRun bound cs).2 front W

/-- The text is read as these words and others, behind a token. -/
def Leads (cs : List Char) (front : List (TokenKind × String))
    (W : List (TokenKind × String) → Prop) : Prop :=
  Opens (Trivia.readTrailing cs).2 front W

/-- The text is read as these words and others, and does not start with trivia. -/
structure Begins (cs : List Char) (front : List (TokenKind × String))
    (W : List (TokenKind × String) → Prop) : Prop where
  stop : Trivia.leadingPiece cs = none
  reads : Reads cs front W

variable {cs tail : List Char} {front : List (TokenKind × String)}
  {W : List (TokenKind × String) → Prop} {t : Token}

theorem begins_nil : Begins [] [] (· = [(.endOfFile, "")]) := by
  refine ⟨rfl, fun bound offset leading us h => ⟨_, rfl, ?_⟩⟩
  rw [scanFrom] at h
  rw [← Except.ok.inj h]
  rfl

theorem Opens.scan {source : String} {us : List Token} (h : Opens source.toList front W)
    (hscan : scan source = .ok us) : ∃ later, us.map bare = front ++ later ∧ W later :=
  h (Nat.le_refl _) hscan

/-! ### A token in front -/

theorem Leads.reads (h : Leads cs front W) (ht : t.Lexes cs) :
    Reads (t.text.toList ++ cs) (t.bare :: front) W := by
  intro bound offset leading us hscan
  rcases scanFrom_cases hscan with ⟨hnil, -⟩ |
    ⟨bound', next, u, following, rest, us, -, rfl, hstep, hus⟩
  · exact absurd (String.toList_eq_nil_iff.1 (List.append_eq_nil_iff.1 hnil).1) ht.text_ne
  have heq := hstep.lexeme_eq.symm.trans ht
  simp only [Option.some.injEq, Prod.mk.injEq] at heq
  obtain ⟨hkind, htext, hcs⟩ := heq
  have htrailing := hstep.trailing_eq
  have hfollowing := hstep.following_eq
  rw [hcs] at htrailing
  have hrest := h (Nat.le_refl _)
  rw [htrailing] at hrest
  obtain ⟨later, hlater, hW⟩ := hrest (by rw [← Trivia.readLeading, hfollowing]; exact hus)
  refine ⟨later, ?_, hW⟩
  rw [List.map_cons, hlater, List.cons_append, bare, bare, hkind, htext]

/-- A word in front of anything that does not go on with it. -/
theorem Leads.word (h : Leads cs front W) (ht : t.Lexes []) (hword : t.isWord = true)
    (hcs : cs.head?.any (fun c => Text.isLetterOrDigit c || c == '_') = false) :
    Begins (t.text.toList ++ cs) (t.bare :: front) W := by
  obtain ⟨c, rest, hc, hstarts, -⟩ := ht.exists_head (.inl hword)
  obtain ⟨first, d, more, hfirst, hd, hmore, -, htext, hkind⟩ := ht.exists_name hword
  have hstop : ∀ c ∈ cs.head?, (Text.isLetterOrDigit c || c == '_') = false := by
    intro c hc
    rw [Option.mem_def.1 hc] at hcs
    exact hcs
  refine ⟨?_, h.reads (lexes_of_name hfirst hd hmore hstop htext hkind)⟩
  rw [hc, List.cons_append]
  exact Trivia.leadingPiece_eq_none hstarts _

/-- A mark that starts no trivia, in front of anything that does not go on with it. -/
theorem Leads.mark (h : Leads cs front W) (text : String) (ht : (Token.ofMark text).Lexes cs)
    (htext : (text.toList.head?.all fun c => !Trivia.starts.contains c) = true) :
    Begins (text.toList ++ cs) ((.punctuation, text) :: front) W := by
  refine ⟨?_, h.reads ht⟩
  obtain ⟨c, rest, hc⟩ := List.exists_cons_of_ne_nil fun hnil =>
    ht.text_ne (String.toList_eq_nil_iff.1 hnil)
  have hc : text.toList = c :: rest := hc
  have hstart : c ∉ Trivia.starts := by simpa [hc] using htext
  rw [hc, List.cons_append]
  exact Trivia.leadingPiece_eq_none hstart _

/-! ### A gap in front -/

theorem Begins.opens (h : Begins cs front W) : Opens cs front W := by
  intro bound _
  cases bound with
  | zero => exact h.reads
  | succ bound =>
    rw [Trivia.leadingRun, h.stop]
    exact h.reads

/-- The next token follows without a gap. -/
theorem Begins.leads (h : Begins cs front W) : Leads cs front W := by
  obtain ⟨hblank, hend, hline, hblock, -⟩ := Trivia.leadingPiece_eq_none_iff.1 h.stop
  have hnone : Trivia.trailingPiece cs = none :=
    Trivia.trailingPiece_eq_none_iff.2 ⟨hblank, hline, hblock, hend⟩
  have hrun : Trivia.readTrailing cs = ([], cs) := by
    unfold Trivia.readTrailing
    cases cs.length with
    | zero => rfl
    | succ bound => rw [Trivia.trailingRun, hnone]
  rw [Leads, hrun]
  exact h.opens

/-- A run of blanks ends where the text begins. -/
theorem Begins.stands (h : Begins cs front W) {indent : List Char}
    (hindent : ∀ c ∈ indent, Scan.isSpacing c = true) (hne : indent ≠ []) :
    Trivia.Stands (.whitespace (String.ofList indent)) cs := by
  obtain ⟨c, indent, rfl⟩ := List.exists_cons_of_ne_nil hne
  obtain ⟨hblank, -⟩ := Trivia.leadingPiece_eq_none_iff.1 h.stop
  refine .whitespace hindent fun d hd => Bool.eq_false_iff.2 fun hspacing => ?_
  obtain ⟨rest, rfl⟩ := List.head?_eq_some_iff.1 hd
  simp [Scan.whitespace, Scan.run1, Scan.seq, Scan.one, Scan.run, hspacing] at hblank

/-- The next token follows after a space. -/
theorem Begins.leads_space (h : Begins cs front W) : Leads (' ' :: cs) front W := by
  have hblank : Trivia.Stands (.whitespace (String.ofList [' '])) cs :=
    h.stands (List.forall_mem_singleton.2 (by decide)) (by simp)
  have hpiece : Trivia.trailingPiece (' ' :: cs) = some (.whitespace (String.ofList [' ']), cs) :=
    Trivia.trailingPiece_of_stands hblank rfl
  have hrun : (Trivia.readTrailing (' ' :: cs)).2 = (Trivia.readTrailing cs).2 := by
    simp [Trivia.readTrailing, Trivia.trailingRun, hpiece, Trivia.isLineEnd]
  rw [Leads, hrun]
  exact h.leads

theorem Begins.opens_indented (h : Begins cs front W) {indent : List Char}
    (hindent : ∀ c ∈ indent, Scan.isSpacing c = true) : Opens (indent ++ cs) front W := by
  rcases List.eq_nil_or_concat indent with rfl | ⟨_, _, rfl⟩
  · exact h.opens
  intro bound hbound
  have hpiece := Trivia.leadingPiece_of_stands (h.stands hindent (by simp))
  rw [Trivia.text, String.toList_ofList] at hpiece
  rw [List.length_append, List.length_concat] at hbound
  obtain ⟨bound, rfl⟩ : ∃ n, bound = n + 1 := ⟨bound - 1, by omega⟩
  rw [Trivia.leadingRun, hpiece]
  exact h.opens (by omega)

/-- What comes after a line end comes after a token that ends its line. -/
theorem Opens.leads_line (h : Opens cs front W) : Leads ('\n' :: cs) front W := by
  have hpiece : Trivia.trailingPiece ('\n' :: cs) = some (.lineEnd "\n", cs) :=
    Trivia.trailingPiece_of_stands .lineFeed rfl
  have hrun : (Trivia.readTrailing ('\n' :: cs)).2 = cs := by
    simp [Trivia.readTrailing, Trivia.trailingRun, hpiece, Trivia.isLineEnd]
  rw [Leads, hrun]
  exact h

/-! ### Any text in front -/

/-- The words end as the tail does. -/
def Resumes (front : List (TokenKind × String)) (W : List (TokenKind × String) → Prop)
    (words : List (TokenKind × String)) : Prop :=
  ∃ middle later, words = middle ++ (front ++ later) ∧ W later

section Behind

variable (hplain : Text.Plain tail) (h : Opens tail front W)

include hplain h

/-- After trivia that starts in front of the line end or right behind it. -/
theorem Opens.resumes {mid : List Char} (hmid : '\n' :: tail <:+ mid ∨ mid = tail)
    {bound bound' offset : Nat} {leading : List Trivia} {us : List Token}
    (hreads : ∀ {cs}, '\n' :: tail <:+ cs → scanFrom bound offset leading cs = .ok us →
      Resumes front W (us.map bare))
    (hbound : mid.length ≤ bound')
    (hscan : scanFrom bound offset leading (Trivia.leadingRun bound' mid).2 = .ok us) :
    Resumes front W (us.map bare) := by
  have hopens : ∀ {bound'}, tail.length ≤ bound' →
      scanFrom bound offset leading (Trivia.leadingRun bound' tail).2 = .ok us →
      Resumes front W (us.map bare) := by
    intro bound' hbound hscan
    obtain ⟨later, hlater, hW⟩ := h hbound hscan
    exact ⟨[], later, hlater, hW⟩
  rcases hmid with hbehind | rfl
  · rcases Trivia.leadingRun_behind hplain hbound hbehind with hbehind | ⟨_, hbound', heq⟩
    · exact hreads hbehind hscan
    · exact hopens hbound' (heq ▸ hscan)
  · exact hopens hbound hscan

theorem Opens.reads_behind {bound offset : Nat} {leading : List Trivia} {us : List Token}
    (hbehind : '\n' :: tail <:+ cs) (hscan : scanFrom bound offset leading cs = .ok us) :
    Resumes front W (us.map bare) := by
  induction bound generalizing offset leading cs us with
  | zero =>
    rcases scanFrom_cases hscan with ⟨rfl, -⟩ | ⟨_, _, _, _, _, _, hbound, -⟩
    · cases List.suffix_nil.1 hbehind
    · cases hbound
  | succ bound ih =>
    rcases scanFrom_cases hscan with ⟨rfl, -⟩ |
      ⟨_, next, t, following, rest, us, hbound, rfl, hstep, hus⟩
    · cases List.suffix_nil.1 hbehind
    obtain rfl := Nat.succ.inj hbound
    have htrailing := Trivia.readTrailing_behind hplain
      (halts_lexeme? hplain hstep.lexeme_eq hbehind)
    rw [hstep.trailing_eq] at htrailing
    have hus' : scanFrom bound next following
        (Trivia.readLeading ((Trivia.textOf following).toList ++ rest)).2 = .ok us := by
      rw [hstep.following_eq]
      exact hus
    obtain ⟨middle, later, hmiddle, hW⟩ := h.resumes hplain htrailing ih (Nat.le_refl _) hus'
    exact ⟨t.bare :: middle, later, by rw [List.map_cons, hmiddle, List.cons_append], hW⟩

/-- Behind any text, what comes after the line end is read as by itself. -/
theorem Opens.leads_behind (hbehind : '\n' :: tail <:+ cs) : Leads cs [] (Resumes front W) := by
  have htrailing := Trivia.readTrailing_behind hplain hbehind
  intro bound hbound _ _ _ us hscan
  exact ⟨_, rfl, h.resumes hplain htrailing (h.reads_behind hplain) hbound hscan⟩

end Behind

end Reading

end Token

end Recast
