-- SUMMARY: A run of words and of the marks that types are made of is scanned into the same tokens where it stands in angle brackets.
import Recast.Proofs.Source.Pieces

/-! # Scanning a run again

A word or a mark is read by looking at its own characters and at the next one. So a run of tokens
that is cut out of a text and put into another one is scanned as before, given that what follows it
there cannot become part of its last token. This is shown for the tokens of types, with a closing
angle bracket after them (`Token.exists_scan_wrapped`). -/

namespace Recast

/-! ## Words and marks -/

namespace Scan

theorem seq_eq_none {s : Scan} (t : Scan) {cs : List Char} (h : s cs = none) :
    seq s t cs = none := by
  simp only [seq, h]

theorem literal_eq_none_iff {text : String} {cs : List Char} :
    literal text cs = none ↔ ¬text.toList <+: cs := by
  rw [Option.eq_none_iff_forall_not_mem]
  constructor
  · rintro h ⟨rest, heq⟩
    exact h (text.toList, rest) (literal_eq_some_iff.2 ⟨rfl, heq.symm⟩)
  · rintro h ⟨l, rest⟩ hmem
    exact h ⟨rest, (literal_eq_some_iff.1 hmem).2.symm⟩

theorem literal_eq_none {text : String} {h c : Char} {hs cs : List Char}
    (htext : text.toList = h :: hs) (hne : h ≠ c) : literal text (c :: cs) = none := by
  rw [literal_eq_none_iff, htext, List.cons_prefix_cons]
  exact fun hpre => hne hpre.1

theorem number_eq_none {c : Char} (hc : Text.isAsciiDigit c = false) (cs : List Char) :
    number (c :: cs) = none := by
  have hzero : '0' ≠ c := by
    rintro rfl
    cases hc
  have hbased : basedNumber (c :: cs) = none := seq_eq_none _ (literal_eq_none rfl hzero)
  have hdecimal : decimalNumber (c :: cs) = none := by
    apply seq_eq_none
    apply seq_eq_none
    simp only [one, hc]
    rfl
  simp only [number, or, hbased, hdecimal]

theorem choice_eq_none_iff {scans : List Scan} {cs : List Char} :
    choice scans cs = none ↔ ∀ s ∈ scans, s cs = none := by
  induction scans with
  | nil => simp [choice]
  | cons s scans ih =>
    rw [List.forall_mem_cons, ← ih, choice, or]
    cases s cs <;> simp

theorem choice_eq_some {scans : List Scan} {cs : List Char} {split : List Char × List Char}
    (h : choice scans cs = some split) : ∃ s ∈ scans, s cs = some split := by
  induction scans with
  | nil => cases h
  | cons s scans ih =>
    rw [choice, or] at h
    split at h
    · obtain ⟨s', hs', h⟩ := ih h
      exact ⟨s', List.mem_cons_of_mem _ hs', h⟩
    · rename_i found hfound
      exact ⟨s, List.mem_cons_self .., hfound.trans h⟩

theorem identifier_append {c : Char} {first cs rest : List Char}
    (hfirst : first = [] ∨ first = ['@']) (hat : c ≠ '@')
    (hc : (Text.isLetter c || c == '_') = true)
    (hcs : ∀ d ∈ cs, (Text.isLetterOrDigit d || d == '_') = true)
    (hrest : ∀ d ∈ rest.head?, (Text.isLetterOrDigit d || d == '_') = false) :
    identifier (first ++ c :: cs ++ rest) = some (first ++ c :: cs, rest) := by
  have hopt : opt (literal "@") (first ++ c :: cs ++ rest) = some (first, c :: cs ++ rest) := by
    rcases hfirst with rfl | rfl
    · have hnone : literal "@" (c :: cs ++ rest) = none := literal_eq_none rfl (Ne.symm hat)
      simp only [opt, List.nil_append, hnone]
    · rfl
  have hone : one (fun c => Text.isLetter c || c == '_') (c :: cs ++ rest) =
      some ([c], cs ++ rest) := if_pos hc
  unfold identifier
  rw [seq_eq_some_iff]
  refine ⟨_, _, c :: cs, hopt, ?_, rfl⟩
  rw [seq_eq_some_iff]
  exact ⟨_, _, cs, hone, run_append hcs hrest, rfl⟩

theorem identifier_eq_some {cs l rest : List Char} (h : identifier cs = some (l, rest)) :
    ∃ first c more, (first = [] ∨ first = ['@']) ∧ (Text.isLetter c || c == '_') = true ∧
      (∀ d ∈ more, (Text.isLetterOrDigit d || d == '_') = true) ∧
      (∀ d ∈ rest.head?, (Text.isLetterOrDigit d || d == '_') = false) ∧
      l = first ++ c :: more := by
  unfold identifier at h
  obtain ⟨first, mid, second, hfirst, hsecond, rfl⟩ := seq_eq_some_iff.1 h
  obtain ⟨head, mid', more, hhead, hmore, rfl⟩ := seq_eq_some_iff.1 hsecond
  obtain ⟨hall, hstop⟩ := run_eq_some hmore
  have hat : first = [] ∨ first = ['@'] := by
    rcases opt_eq_some hfirst with ⟨hnone, -⟩ | hsome
    · exact .inl hnone
    · exact .inr (literal_eq_some_iff.1 hsome).1
  obtain ⟨c, hc, -, rfl⟩ := one_eq_some_iff.1 hhead
  exact ⟨first, c, more, hat, hc, hall, hstop, rfl⟩

/-- A long mark starts with a mark of two characters. -/
theorem take_mem_longMarks :
    ∀ text ∈ longMarks, 2 ≤ text.toList.length ∧
      String.ofList (text.toList.take 2) ∈ longMarks := by
  decide

end Scan

namespace Token

/-- The characters that quoted literals start with. -/
def quoting : List Char :=
  ['\'', '"', '$', '@']

/-- A character that starts a name starts nothing else. -/
theorem not_mem_of_isLetter {c : Char} (hc : (Text.isLetter c || c == '_') = true) :
    c ∉ quoting ∧ c ∉ Trivia.starts ∧ Text.isAsciiDigit c = false := by
  have hall : (quoting ++ Trivia.starts).all (fun d => (Text.isLetter d || d == '_') = false) = true :=
    by decide +kernel
  have hother : ∀ d ∈ quoting ++ Trivia.starts, (Text.isLetter d || d == '_') = false :=
    fun d hd => of_decide_eq_true (List.all_eq_true.1 hall d hd)
  refine ⟨fun hmem => ?_, fun hmem => ?_, ?_⟩
  · rw [hother c (List.mem_append_left _ hmem)] at hc
    cases hc
  · rw [hother c (List.mem_append_right _ hmem)] at hc
    cases hc
  · -- The digits stand below all letters in the code.
    refine Bool.eq_false_iff.2 fun hdigit => ?_
    simp only [Text.isAsciiDigit, Bool.and_eq_true, decide_eq_true_eq,
      Char.le_def, UInt32.le_iff_toNat_le] at hdigit
    have hlow : c.toNat < 128 := Nat.lt_of_le_of_lt hdigit.2 (by decide)
    have hunder : c ≠ '_' := by
      rintro rfl
      exact absurd hdigit.2 (by decide)
    simp only [Text.isLetter, hlow, if_true, Text.isAsciiLetter, Bool.or_eq_true, Bool.and_eq_true,
      decide_eq_true_eq, Char.le_def, UInt32.le_iff_toNat_le, beq_iff_eq, hunder, or_false] at hc
    have hnine : ('9' : Char).val.toNat < ('A' : Char).val.toNat := by decide
    have hupper : ('A' : Char).val.toNat < ('a' : Char).val.toNat := by decide
    omega

/-- Where no literal starts, a word or a mark does. -/
theorem lexeme?_of_head {c : Char} {cs : List Char}
    (hquote : c ∉ quoting ∨ c = '@' ∧ ∀ d ∈ cs.head?, d ∉ quoting)
    (hdigit : Text.isAsciiDigit c = false) :
    lexeme? (c :: cs) = (word (c :: cs) <|> lexemeBy .punctuation Scan.punctuation (c :: cs)) := by
  have hmiss : ∀ {opening : String} (style : Scan.QuoteStyle) {h : Char} {hs : List Char},
      opening.toList = h :: hs → h ≠ c → Scan.quotedLiteral opening style (c :: cs) = none :=
    fun _ _ _ hopening hne => Scan.seq_eq_none _ (Scan.literal_eq_none hopening hne)
  have hother : ∀ d ∈ quoting, d = '@' ∨ d ≠ c := by
    intro d hd
    rcases hquote with hquote | ⟨rfl, -⟩
    · exact .inr fun heq => hquote (heq ▸ hd)
    · exact Decidable.em (d = '@')
  obtain ⟨hsingle, hdouble, hdollar⟩ : '\'' ≠ c ∧ '"' ≠ c ∧ '$' ≠ c :=
    ⟨(hother _ (by decide)).resolve_left (by decide),
      (hother _ (by decide)).resolve_left (by decide),
      (hother _ (by decide)).resolve_left (by decide)⟩
  -- After `@` a literal goes on with a quote or a dollar.
  have hat : ∀ {opening : String} (style : Scan.QuoteStyle) {h : Char} {hs : List Char},
      opening.toList = '@' :: h :: hs → h ∈ quoting →
      Scan.quotedLiteral opening style (c :: cs) = none := by
    intro opening style h hs hopening hh
    apply Scan.seq_eq_none
    rw [Scan.literal_eq_none_iff, hopening, List.cons_prefix_cons]
    rintro ⟨rfl, more, rfl⟩
    rcases hquote with hquote | ⟨-, hquote⟩
    · exact hquote (by decide)
    · exact hquote h rfl hh
  have hchar : Scan.charLiteral (c :: cs) = none := hmiss _ rfl hsingle
  have hinterpolated : Scan.interpolatedString (c :: cs) = none := by
    apply Scan.choice_eq_none_iff.2
    simp only [List.forall_mem_cons, List.not_mem_nil, false_imp_iff, implies_true, and_true]
    exact ⟨hmiss _ rfl hdollar, hat _ rfl (by decide), hmiss _ rfl hdollar⟩
  have hstring : Scan.stringLiteral (c :: cs) = none := by
    have hverbatim : Scan.quotedLiteral "@\"" ⟨'"', true, false⟩ (c :: cs) = none :=
      hat _ rfl (by decide)
    have hplain : Scan.quotedLiteral "\"" ⟨'"', false, false⟩ (c :: cs) = none :=
      hmiss _ rfl hdouble
    simp only [Scan.stringLiteral, Scan.or, hverbatim, hplain]
  simp only [lexeme?, lexemeBy, hchar, hinterpolated, hstring, Scan.number_eq_none hdigit,
    Option.map_none]
  rfl

theorem word_eq_none {c : Char} {cs : List Char} (hat : c ≠ '@')
    (hc : (Text.isLetter c || c == '_') = false) : word (c :: cs) = none := by
  have hopt : Scan.opt (Scan.literal "@") (c :: cs) = some ([], c :: cs) := by
    have hnone : Scan.literal "@" (c :: cs) = none := Scan.literal_eq_none rfl (Ne.symm hat)
    simp only [Scan.opt, hnone]
  simp only [word, Scan.identifier, Scan.seq, hopt, Scan.one, hc]
  rfl

/-- The marks that types are made of. -/
def typeMarks : List String :=
  ["<", ">", ",", ".", "::", "(", ")", "[", "]", "?"]

/-- A token of a type: a word or a mark. -/
def InType (t : Token) : Prop :=
  t.isWord = true ∨ t.kind = .punctuation ∧ t.text ∈ typeMarks

/-- The token is what is read in front of the rest of a text. -/
def Lexes (t : Token) (rest : List Char) : Prop :=
  lexeme? (t.text.toList ++ rest) = some (t.kind, t.text, rest)

theorem lexemeBy_eq_some {kind other : TokenKind} {scan : Scan} {cs rest : List Char} {text : String}
    (h : lexemeBy other scan cs = some (kind, text, rest)) :
    kind = other ∧ scan cs = some (text.toList, rest) := by
  obtain ⟨⟨l, rest⟩, hscan, heq⟩ := Option.map_eq_some_iff.1 h
  simp only [Prod.mk.injEq] at heq
  obtain ⟨rfl, rfl, rfl⟩ := heq
  exact ⟨rfl, by rwa [String.toList_ofList]⟩

theorem word_of_lexeme? {cs rest : List Char} {kind : TokenKind} {text : String}
    (h : lexeme? cs = some (kind, text, rest)) (hkind : kind = .identifier ∨ kind = .keyword) :
    word cs = some (kind, text, rest) := by
  have hother : ∀ {other : TokenKind} {scan : Scan}, other ≠ .identifier → other ≠ .keyword →
      lexemeBy other scan cs ≠ some (kind, text, rest) := by
    intro other scan hidentifier hkeyword hsome
    obtain ⟨rfl, -⟩ := lexemeBy_eq_some hsome
    exact hkind.elim hidentifier hkeyword
  -- The scans for the other kinds come first, and none of them gives a word.
  rcases eq_some_of_orElse h with h | h
  · exact absurd h (hother (by decide) (by decide))
  rcases eq_some_of_orElse h with h | h
  · exact absurd h (hother (by decide) (by decide))
  rcases eq_some_of_orElse h with h | h
  · exact absurd h (hother (by decide) (by decide))
  rcases eq_some_of_orElse h with h | h
  · exact absurd h (hother (by decide) (by decide))
  rcases eq_some_of_orElse h with h | h
  · exact h
  · exact absurd h (hother (by decide) (by decide))

/-- The name that a word token is. -/
theorem Lexes.exists_name {t : Token} {rest : List Char} (h : t.Lexes rest)
    (hword : t.isWord = true) :
    ∃ first c more, (first = [] ∨ first = ['@']) ∧ (Text.isLetter c || c == '_') = true ∧
      (∀ d ∈ more, (Text.isLetterOrDigit d || d == '_') = true) ∧
      (∀ d ∈ rest.head?, (Text.isLetterOrDigit d || d == '_') = false) ∧
      t.text.toList = first ++ c :: more ∧
      t.kind = if keywords.contains t.text then .keyword else .identifier := by
  have hkind : t.kind = .identifier ∨ t.kind = .keyword := by
    unfold isWord at hword
    split at hword
    · rename_i hkind
      exact .inl hkind
    · rename_i hkind
      exact .inr hkind
    · cases hword
  obtain ⟨⟨l, more⟩, hscan, heq⟩ := Option.map_eq_some_iff.1 (word_of_lexeme? h hkind)
  obtain ⟨hkind', heq'⟩ := Prod.mk.inj heq
  obtain ⟨htext, rfl⟩ := Prod.mk.inj heq'
  obtain ⟨first, c, cs, hfirst, hc, hcs, hstop, rfl⟩ := Scan.identifier_eq_some hscan
  refine ⟨first, c, cs, hfirst, hc, hcs, hstop, ?_, ?_⟩
  · rw [← htext, String.toList_ofList]
  · rw [← hkind', ← htext]

theorem lexes_of_name {t : Token} {first more rest : List Char} {c : Char}
    (hfirst : first = [] ∨ first = ['@']) (hc : (Text.isLetter c || c == '_') = true)
    (hmore : ∀ d ∈ more, (Text.isLetterOrDigit d || d == '_') = true)
    (hrest : ∀ d ∈ rest.head?, (Text.isLetterOrDigit d || d == '_') = false)
    (htext : t.text.toList = first ++ c :: more)
    (hkind : t.kind = if keywords.contains t.text then .keyword else .identifier) :
    t.Lexes rest := by
  obtain ⟨hquote, -, hdigit⟩ := not_mem_of_isLetter hc
  have hat : c ≠ '@' := by
    rintro rfl
    exact hquote (by decide)
  have hword : word (t.text.toList ++ rest) = some (t.kind, t.text, rest) := by
    have hname := Scan.identifier_append hfirst hat hc hmore hrest
    rw [word, htext, hname, Option.map_some, ← htext]
    simp only [String.ofList_toList, ← hkind]
  unfold Lexes
  -- No quotation and no number starts with a letter, nor with the mark of a verbatim name.
  have hhead : lexeme? (t.text.toList ++ rest) = (word (t.text.toList ++ rest) <|>
      lexemeBy .punctuation Scan.punctuation (t.text.toList ++ rest)) := by
    rw [htext]
    rcases hfirst with rfl | rfl
    · exact lexeme?_of_head (.inl hquote) hdigit
    · refine lexeme?_of_head (.inr ⟨rfl, fun d hd => ?_⟩) (by decide)
      obtain rfl := Option.some.inj hd
      exact hquote
  rw [hhead, hword]
  rfl

/-- At a mark of types neither a literal nor a name starts. -/
theorem lexeme?_of_mark {text : String} (htext : text ∈ typeMarks) (rest : List Char) :
    lexeme? (text.toList ++ rest) =
      lexemeBy .punctuation Scan.punctuation (text.toList ++ rest) := by
  have hplain : ∀ text ∈ typeMarks, text.toList.head?.all (fun c => c ∉ quoting ∧
      Text.isAsciiDigit c = false ∧ (Text.isLetter c || c == '_') = false) = true := by
    decide
  cases hcs : text.toList with
  | nil =>
    have hne : ∀ text ∈ typeMarks, text.toList ≠ [] := by decide
    exact absurd hcs (hne text htext)
  | cons c cs =>
    obtain ⟨hquote, hdigit, hletter⟩ :=
      of_decide_eq_true ((Option.all_eq_true _ _).1 (hplain text htext) c (by rw [hcs]; rfl))
    have hat : c ≠ '@' := by
      rintro rfl
      exact hquote (by decide)
    rw [List.cons_append, lexeme?_of_head (.inl hquote) hdigit, word_eq_none hat hletter]
    rfl

/-- No long mark starts the text. -/
def NoLongMark (cs : List Char) : Prop :=
  ∀ text ∈ Scan.longMarks, ¬text.toList <+: cs

theorem NoLongMark.swap {c : Char} {rest rest' : List Char} (h : NoLongMark (c :: rest))
    (hrest : rest'.head? = rest.head?) : NoLongMark (c :: rest') := by
  rintro text htext hpre
  obtain ⟨hlength, hshort⟩ := Scan.take_mem_longMarks text htext
  apply h _ hshort
  rw [String.toList_ofList]
  obtain ⟨a, b, more, hlist⟩ : ∃ a b more, text.toList = a :: b :: more := by
    match hlist : text.toList with
    | a :: b :: more => exact ⟨a, b, more, rfl⟩
    | [] => simp [hlist] at hlength
    | [a] => simp [hlist] at hlength
  rw [hlist, List.cons_prefix_cons] at hpre
  obtain ⟨rfl, hpre⟩ := hpre
  have hb : rest.head? = some b := by
    rw [← hrest]
    obtain ⟨tail, htail⟩ := hpre
    rw [← htail]
    rfl
  obtain ⟨tail, rfl⟩ := List.head?_eq_some_iff.1 hb
  rw [hlist]
  exact ⟨tail, rfl⟩

theorem noLongMark_of_take {c d : Char} (h : ∀ long ∈ Scan.longMarks, long.toList.take 2 ≠ [c, d])
    (rest : List Char) : NoLongMark (c :: d :: rest) := by
  rintro text htext ⟨tail, htail⟩
  apply h text htext
  have hlength := (Scan.take_mem_longMarks text htext).1
  have htake := congrArg (List.take 2) htail
  rw [List.take_append_of_le_length hlength] at htake
  exact htake

theorem punctuation_eq_some_iff {c : Char} {rest : List Char} (hc : Scan.shortMarks.contains c) :
    Scan.punctuation (c :: rest) = some ([c], rest) ↔ NoLongMark (c :: rest) := by
  have hchoice : Scan.choice (Scan.longMarks.map Scan.literal) (c :: rest) = none ↔
      NoLongMark (c :: rest) := by
    rw [Scan.choice_eq_none_iff, List.forall_mem_map]
    simp only [Scan.literal_eq_none_iff, NoLongMark]
  rw [← hchoice, Scan.punctuation, Scan.or]
  constructor
  · intro h
    split at h
    · rename_i hnone
      exact hnone
    · rename_i found hfound
      obtain ⟨s, hs, hfound⟩ := Scan.choice_eq_some (hfound.trans h)
      obtain ⟨text, htext, rfl⟩ := List.mem_map.1 hs
      have hlength := (Scan.take_mem_longMarks text htext).1
      rw [← (Scan.literal_eq_some_iff.1 hfound).1] at hlength
      exact absurd hlength (by simp)
  · intro h
    rw [h]
    exact if_pos hc

/-- A mark of one character is read where it does not start a longer one. -/
theorem lexes_iff_noLongMark {t : Token} {c : Char} (hc : c ∈ Scan.shortMarks)
    (hkind : t.kind = .punctuation) (hmark : t.text ∈ typeMarks) (htext : t.text = String.ofList [c])
    {rest : List Char} : t.Lexes rest ↔ NoLongMark (c :: rest) := by
  rw [← punctuation_eq_some_iff (List.contains_iff_mem.2 hc)]
  unfold Lexes
  rw [lexeme?_of_mark hmark, hkind, htext, String.toList_ofList, lexemeBy, Option.map_eq_some_iff]
  constructor
  · rintro ⟨⟨l, mid⟩, hl, heq⟩
    obtain ⟨-, heq⟩ := Prod.mk.inj heq
    obtain ⟨hl', rfl⟩ := Prod.mk.inj heq
    rw [← String.ofList_inj.1 hl']
    exact hl
  · intro hl
    exact ⟨_, hl, rfl⟩

theorem lexes_colons {t : Token} (hkind : t.kind = .punctuation) (htext : t.text = "::")
    (rest : List Char) : t.Lexes rest := by
  unfold Lexes
  rw [htext, hkind, lexeme?_of_mark (by decide)]
  have hsome : Scan.choice (Scan.longMarks.map Scan.literal) ("::".toList ++ rest) =
      some ("::".toList, rest) := by
    cases hchoice : Scan.choice (Scan.longMarks.map Scan.literal) ("::".toList ++ rest) with
    | none =>
      have hmark : Scan.literal "::" ∈ Scan.longMarks.map Scan.literal :=
        List.mem_map_of_mem (by decide)
      have hnone := Scan.choice_eq_none_iff.1 hchoice _ hmark
      exact absurd ⟨rest, rfl⟩ (Scan.literal_eq_none_iff.1 hnone)
    | some found =>
      obtain ⟨s, hs, hfound⟩ := Scan.choice_eq_some hchoice
      obtain ⟨text, hmark, rfl⟩ := List.mem_map.1 hs
      obtain ⟨l, more⟩ := found
      obtain ⟨rfl, hsplit⟩ := Scan.literal_eq_some_iff.1 hfound
      have honly : ∀ text ∈ Scan.longMarks, text.toList.head? = some ':' → text = "::" := by decide
      have hhead : text.toList.head? = some ':' := by
        have hne := (Scan.take_mem_longMarks text hmark).1
        cases hlist : text.toList with
        | nil => simp [hlist] at hne
        | cons a as =>
          rw [hlist] at hsplit
          rw [← (List.cons.inj hsplit).1]
          rfl
      obtain rfl := honly text hmark hhead
      rw [List.append_cancel_left hsplit]
  simp only [lexemeBy, Scan.punctuation, Scan.or, hsome, Option.map_some, String.ofList_toList]

/-- A token of a type is read as before when the next character is the same, or a closing angle
    bracket. -/
theorem Lexes.swap {t : Token} (ht : t.InType) {rest rest' : List Char} (h : t.Lexes rest)
    (hrest : rest'.head? = rest.head? ∨ rest'.head? = some '>') : t.Lexes rest' := by
  rcases ht with hword | ⟨hkind, htext⟩
  · obtain ⟨first, c, more, hfirst, hc, hmore, hstop, htext, hkind⟩ := h.exists_name hword
    refine lexes_of_name hfirst hc hmore (fun d hd => ?_) htext hkind
    rcases hrest with hrest | hrest
    · exact hstop d (hrest ▸ hd)
    · rw [hrest] at hd
      obtain rfl := Option.some.inj hd
      decide
  · have hshort : ∀ text ∈ typeMarks, text = "::" ∨ Scan.shortMarks.any (fun c =>
        text = String.ofList [c] ∧ ∀ long ∈ Scan.longMarks, long.toList.take 2 ≠ [c, '>']) = true := by
      decide
    rcases hshort t.text htext with hcolons | hsome
    · exact lexes_colons hkind hcolons rest'
    · obtain ⟨c, hc, hmark⟩ := List.any_eq_true.1 hsome
      obtain ⟨hsingle, hangle⟩ := of_decide_eq_true hmark
      rw [lexes_iff_noLongMark hc hkind htext hsingle] at h ⊢
      rcases hrest with hrest | hrest
      · exact h.swap hrest
      · obtain ⟨more, rfl⟩ := List.head?_eq_some_iff.1 hrest
        exact noLongMark_of_take hangle more

/-- No trivia starts at a token of a type, and only an angle bracket starts like one. -/
theorem Lexes.exists_head {t : Token} (ht : t.InType) {rest : List Char} (h : t.Lexes rest) :
    ∃ c cs, t.text.toList = c :: cs ∧ c ∉ Trivia.starts ∧ (c ∈ ['<', '='] → t.text = "<") := by
  rcases ht with hword | ⟨-, htext⟩
  · obtain ⟨first, c, more, hfirst, hc, -, -, htext, -⟩ := h.exists_name hword
    rcases hfirst with rfl | rfl
    · refine ⟨c, more, htext, (not_mem_of_isLetter hc).2.1, fun hangle => ?_⟩
      have hother : ['<', '='].all (fun d => (Text.isLetter d || d == '_') = false) = true := by decide
      rw [of_decide_eq_true (List.all_eq_true.1 hother c hangle)] at hc
      cases hc
    · exact ⟨'@', c :: more, htext, by decide, fun hangle => absurd hangle (by decide)⟩
  · have hmarks : ∀ text ∈ typeMarks, text.toList.head?.any (fun c =>
        c ∉ Trivia.starts ∧ (c ∈ ['<', '='] → text = "<")) = true := by
      decide
    obtain ⟨c, hhead, hc⟩ := (Option.any_eq_true _ _).1 (hmarks t.text htext)
    obtain ⟨hstarts, hangle⟩ := of_decide_eq_true hc
    obtain ⟨cs, hcs⟩ := List.head?_eq_some_iff.1 hhead
    exact ⟨c, cs, hcs, hstarts, hangle⟩

theorem Lexes.text_ne {t : Token} {rest : List Char} (h : t.Lexes rest) : t.text ≠ "" :=
  (heads_lexeme? h).nonempty

/-! ## Runs of tokens -/

/-- What is left of a token without its trivia and its place. -/
def bare (t : Token) : TokenKind × String :=
  (t.kind, t.text)

/-- The token is read in front of its trivia, of the trivia of the next token, and of the rest. -/
structure ReadsOn (t : Token) (following : List Trivia) (rest : List Char) : Prop where
  lexes : t.Lexes ((Trivia.textOf t.trailing).toList ++ ((Trivia.textOf following).toList ++ rest))
  trailing : Trivia.readTrailing
    ((Trivia.textOf t.trailing).toList ++ ((Trivia.textOf following).toList ++ rest)) =
      (t.trailing, (Trivia.textOf following).toList ++ rest)
  following : Trivia.readLeading ((Trivia.textOf following).toList ++ rest) = (following, rest)

theorem scanFrom_eq_ok_cons {bound offset : Nat} {leading : List Trivia} {cs : List Char} {t : Token}
    {ts : List Token} (h : scanFrom bound offset leading cs = .ok (t :: ts)) (hts : ts ≠ []) :
    ∃ bound' next following rest, t.leading = leading ∧ t.ReadsOn following rest ∧
      cs = t.text.toList ++ ((Trivia.textOf t.trailing).toList ++
        ((Trivia.textOf following).toList ++ rest)) ∧
      scanFrom bound' next following rest = .ok ts := by
  rcases scanFrom_cases h with ⟨-, heq⟩ | ⟨bound', next, u, following, rest, us, -, heq, hstep, hus⟩
  · exact absurd (List.cons.inj heq).2 hts
  · obtain ⟨rfl, rfl⟩ := List.cons.inj heq
    have hsplit := hstep.heads.split
    refine ⟨bound', next, following, rest, hstep.leading_eq,
      ⟨?_, hstep.trailing_eq, hstep.following_eq⟩, hsplit, hus⟩
    unfold Lexes
    rw [← hsplit]
    exact hstep.lexeme_eq

/-- These words are read from a text, wherever it starts. -/
def Scans (bound : Nat) (leading : List Trivia) (cs : List Char)
    (words : List (TokenKind × String)) : Prop :=
  ∀ offset, ∃ us, scanFrom bound offset leading cs = .ok us ∧ us.map bare = words

theorem scans_nil (bound : Nat) (leading : List Trivia) : Scans bound leading [] [(.endOfFile, "")] :=
  fun offset => ⟨[endOfText leading offset], by rw [scanFrom], rfl⟩

theorem ReadsOn.scanFrom_eq {t : Token} {following : List Trivia} {rest : List Char}
    (h : t.ReadsOn following rest) {bound offset : Nat} (leading : List Trivia) {ts : List Token}
    (hrest : scanFrom bound (offset + t.text.utf8ByteSize + (Trivia.textOf t.trailing).utf8ByteSize +
      (Trivia.textOf following).utf8ByteSize) following rest = .ok ts) :
    scanFrom (bound + 1) offset leading (t.text.toList ++
      ((Trivia.textOf t.trailing).toList ++ ((Trivia.textOf following).toList ++ rest))) =
      .ok ({ t with leading, span := some ⟨offset, offset + t.text.utf8ByteSize⟩ } :: ts) := by
  have hlexes := h.lexes
  obtain ⟨c, cs, htext⟩ := List.exists_cons_of_ne_nil fun hnil =>
    hlexes.text_ne (String.toList_eq_nil_iff.1 hnil)
  unfold Lexes at hlexes
  rw [htext, List.cons_append] at hlexes ⊢
  simp only [scanFrom, hlexes, h.trailing, h.following, hrest]

theorem ReadsOn.scans {t : Token} {following : List Trivia} {rest : List Char}
    (h : t.ReadsOn following rest) {bound : Nat} {words : List (TokenKind × String)}
    (hrest : Scans bound following rest words) (leading : List Trivia) :
    Scans (bound + 1) leading (t.text.toList ++
      ((Trivia.textOf t.trailing).toList ++ ((Trivia.textOf following).toList ++ rest)))
      (t.bare :: words) := by
  intro offset
  obtain ⟨ts, hts, hwords⟩ := hrest (offset + t.text.utf8ByteSize +
    (Trivia.textOf t.trailing).utf8ByteSize + (Trivia.textOf following).utf8ByteSize)
  refine ⟨_, h.scanFrom_eq leading hts, ?_⟩
  rw [List.map_cons, hwords]
  rfl

theorem readsOn_of_head {t : Token} {c : Char} {cs : List Char} (hc : c ∉ Trivia.starts)
    (hlexes : t.Lexes (c :: cs)) : ({ t with trailing := [] } : Token).ReadsOn [] (c :: cs) := by
  refine ⟨hlexes, ?_, ?_⟩
  · simp [Trivia.readTrailing, Trivia.trailingRun, Trivia.trailingPiece_eq_none (.inl hc)]
  · exact Trivia.readLeading_eq_nil hc cs

theorem readsOn_angle : (Token.ofMark ">").ReadsOn [] [] :=
  ⟨rfl, rfl, rfl⟩

/-- What follows the start of the next token is another text: the trivia in front of that start is
    read as before where no trivia starts there. -/
theorem ReadsOn.swap_rest {t : Token} {following : List Trivia} {shared rest rest' : List Char}
    (h : t.ReadsOn following (shared ++ rest)) (hne : shared ≠ []) (hreturn : shared ≠ ['\r'])
    (hlexes : t.Lexes ((Trivia.textOf t.trailing).toList ++
      ((Trivia.textOf following).toList ++ (shared ++ rest'))))
    (hleading : Trivia.leadingPiece (shared ++ rest) = none →
      Trivia.leadingPiece (shared ++ rest') = none)
    (htrailing : Trivia.trailingPiece ((Trivia.textOf following).toList ++ shared ++ rest) = none →
      Trivia.trailingPiece ((Trivia.textOf following).toList ++ shared ++ rest') = none) :
    t.ReadsOn following (shared ++ rest') := by
  have hboth : (Trivia.textOf following).toList ++ shared ≠ ['\r'] := by
    intro heq
    rcases List.append_eq_singleton_iff.1 heq with ⟨-, heq⟩ | ⟨-, heq⟩
    · exact hreturn heq
    · exact hne heq
  have hread := h.trailing
  unfold Trivia.readTrailing at hread
  rw [← List.append_assoc (Trivia.textOf following).toList] at hread
  refine ⟨hlexes, ?_, Trivia.leadingRun_swap hne hreturn hleading h.following (Nat.le_refl _)
    (Nat.le_refl _)⟩
  unfold Trivia.readTrailing
  rw [← List.append_assoc (Trivia.textOf following).toList]
  exact Trivia.trailingRun_swap (by simp [hne]) hboth htrailing hread (Nat.le_refl _)
    (Nat.le_refl _)

/-- The next token of the run is followed by something else. -/
theorem ReadsOn.swap {t u : Token} {following : List Trivia} {rest rest' : List Char}
    (h : t.ReadsOn following (u.text.toList ++ rest)) (ht : t.InType) (hu : u.InType)
    (hlexes : u.Lexes rest) : t.ReadsOn following (u.text.toList ++ rest') := by
  obtain ⟨c, cs, hcs, hstarts, -⟩ := hlexes.exists_head hu
  rw [hcs] at h ⊢
  refine h.swap_rest (by simp) (fun heq => hstarts ?_) (h.lexes.swap ht (.inl (by simp)))
    (fun _ => Trivia.leadingPiece_eq_none hstarts _)
    (Trivia.trailingPiece_swap hstarts rest' h.following)
  rw [(List.cons.inj heq).1]
  decide

theorem textOf_cons_cons (t u : Token) (ts : List Token) :
    textOf (t :: u :: ts) =
      t.text ++ (Trivia.textOf t.trailing ++ (Trivia.textOf u.leading ++ textOf (u :: ts))) := by
  have hinner : textOf.inner u ts = Trivia.textOf u.leading ++ textOf (u :: ts) := by
    cases ts with
    | nil => rfl
    | cons v ts => simp only [textOf.inner, textOf, source, String.append_assoc]
  rw [← hinner, ← String.append_assoc]
  rfl

theorem exists_textOf_cons (t : Token) (ts : List Token) :
    ∃ more, textOf (t :: ts) = t.text ++ more := by
  cases ts with
  | nil => exact ⟨"", String.append_empty.symm⟩
  | cons u ts => exact ⟨_, String.append_assoc⟩

/-- What is read from the text of a run that a closing angle bracket ends. -/
def enclosed (ts : List Token) : List (TokenKind × String) :=
  ts.map bare ++ [(.punctuation, ">"), (.endOfFile, "")]

/-- A run of a text is read again where a closing angle bracket follows it. The induction is on the
    run: what is read of a token depends on the next one only. -/
theorem scans_enclosed {t : Token} {ts after : List Token} (hafter : after ≠ [])
    (hall : ∀ u ∈ t :: ts, u.InType) {bound offset : Nat} {leading : List Trivia} {cs : List Char}
    (h : scanFrom bound offset leading cs = .ok (t :: (ts ++ after))) {bound' : Nat}
    (hbound : (textOf (t :: ts)).toList.length < bound') (leading' : List Trivia) :
    Scans bound' leading' ((textOf (t :: ts)).toList ++ ['>']) (enclosed (t :: ts)) := by
  induction ts generalizing t bound offset leading cs bound' leading' with
  | nil =>
    obtain ⟨_, _, _, _, -, hreads, -, -⟩ := scanFrom_eq_ok_cons h hafter
    have ht := hall t (List.mem_cons_self ..)
    have hne := hreads.lexes.text_ne
    have hpos := List.length_pos_iff.2 fun hnil => hne (String.toList_eq_nil_iff.1 hnil)
    obtain ⟨bound', rfl⟩ : ∃ n, bound' = n + 2 := ⟨bound' - 2, by rw [textOf] at hbound; omega⟩
    have hclose := readsOn_angle.scans (scans_nil bound' []) []
    exact (readsOn_of_head (by decide) (hreads.lexes.swap ht (.inr rfl))).scans hclose leading'
  | cons u ts ih =>
    obtain ⟨_, _, _, _, -, hreads, -, hnext⟩ := scanFrom_eq_ok_cons h (by simp)
    obtain ⟨_, _, _, _, rfl, hreads', rfl, -⟩ := scanFrom_eq_ok_cons hnext (by simp [hafter])
    have ht := hall t (List.mem_cons_self ..)
    have hu := hall u (List.mem_cons_of_mem _ (List.mem_cons_self ..))
    have hsplit : (textOf (t :: u :: ts)).toList ++ ['>'] = t.text.toList ++
        ((Trivia.textOf t.trailing).toList ++ ((Trivia.textOf u.leading).toList ++
          ((textOf (u :: ts)).toList ++ ['>']))) := by
      rw [textOf_cons_cons]
      simp only [String.toList_append, List.append_assoc]
    have hagain : t.ReadsOn u.leading ((textOf (u :: ts)).toList ++ ['>']) := by
      obtain ⟨more, hmore⟩ := exists_textOf_cons u ts
      rw [hmore, String.toList_append, List.append_assoc]
      exact hreads.swap ht hu hreads'.lexes
    have hne := hreads.lexes.text_ne
    have hpos := List.length_pos_iff.2 fun hnil => hne (String.toList_eq_nil_iff.1 hnil)
    have hlength := congrArg List.length hsplit
    simp only [List.length_append] at hlength
    obtain ⟨bound', rfl⟩ : ∃ n, bound' = n + 1 := ⟨bound' - 1, by omega⟩
    have hbound' : (textOf (u :: ts)).toList.length < bound' := by omega
    have hrest := ih (fun v hv => hall v (List.mem_cons_of_mem _ hv)) hnext hbound' u.leading
    rw [hsplit]
    exact hagain.scans hrest leading'

theorem exists_scanFrom_of_append {before ts : List Token} (hts : ts ≠ []) {bound offset : Nat}
    {leading : List Trivia} {cs : List Char}
    (h : scanFrom bound offset leading cs = .ok (before ++ ts))
    (hstop : Trivia.leadingPiece cs = none) :
    ∃ bound' offset' leading' cs', scanFrom bound' offset' leading' cs' = .ok ts ∧ cs' <:+ cs ∧
      Trivia.leadingPiece cs' = none := by
  induction before generalizing bound offset leading cs with
  | nil => exact ⟨_, _, _, _, h, List.suffix_rfl, hstop⟩
  | cons t before ih =>
    obtain ⟨_, _, following, rest, -, hreads, rfl, hrest⟩ := scanFrom_eq_ok_cons h (by simp [hts])
    have hstop' := Trivia.leadingRun_stops
      (Nat.le_refl ((Trivia.textOf following).toList ++ rest).length)
    rw [← Trivia.readLeading, hreads.following] at hstop'
    obtain ⟨bound', offset', leading', cs', hscan, hsuffix, hnone⟩ := ih hrest hstop'
    refine ⟨bound', offset', leading', cs', hscan, hsuffix.trans ?_, hnone⟩
    simp only [← List.append_assoc]
    exact List.suffix_append _ _

/-- The later tokens of a text are read from where no trivia starts. -/
theorem exists_scanFrom_of_scan {source : String} {before ts : List Token} (hts : ts ≠ [])
    (h : scan source = .ok (before ++ ts)) :
    ∃ bound offset leading cs, scanFrom bound offset leading cs = .ok ts ∧ cs <:+ source.toList ∧
      Trivia.leadingPiece cs = none := by
  have hstop := Trivia.leadingRun_stops (Nat.le_refl source.toList.length)
  obtain ⟨bound, offset, leading, cs, hscan, hsuffix, hnone⟩ :=
    exists_scanFrom_of_append hts h hstop
  refine ⟨bound, offset, leading, cs, hscan, hsuffix.trans ?_, hnone⟩
  have hsplit := Trivia.leadingRun_split source.toList.length source.toList
  exact ⟨_, hsplit.symm⟩

/-- Where no longer mark starts with it, an angle bracket opens a list. -/
theorem lexes_open {c : Char} (hc : c ∉ ['<', '=']) (cs : List Char) :
    (Token.ofMark "<").Lexes (c :: cs) := by
  have hlong : ∀ long ∈ Scan.longMarks, long.toList.head? = some '<' →
      long.toList.take 2 ∈ [['<', '<'], ['<', '=']] := by
    decide
  rw [lexes_iff_noLongMark (c := '<') (by decide) rfl (by decide) rfl]
  refine noLongMark_of_take (fun long hmem htake => hc ?_) cs
  have hhead := congrArg List.head? htake
  rw [List.head?_take, if_neg (by decide)] at hhead
  have hmem' := hlong long hmem hhead
  rw [htake] at hmem'
  simpa using hmem'

/-- The tokens of a type that stands in a text are read again where the type is wrapped. -/
theorem exists_scan_wrapped {source : String} {before after ts : List Token} {t : Token}
    (h : scan source = .ok (before ++ (t :: ts ++ after))) (hafter : after ≠ [])
    (hall : ∀ u ∈ t :: ts, u.InType) (hfirst : t.text ≠ "<") :
    ∃ us, scan ("Task<" ++ textOf (t :: ts) ++ ">") = .ok us ∧
      us.map bare = (.identifier, "Task") :: (.punctuation, "<") :: enclosed (t :: ts) := by
  obtain ⟨bound, offset, leading, cs, hinside, -, -⟩ := exists_scanFrom_of_scan (by simp) h
  obtain ⟨_, _, _, _, -, hreads, -, -⟩ := scanFrom_eq_ok_cons hinside (by simp [hafter])
  obtain ⟨c, text, hc, hstarts, hangle⟩ := hreads.lexes.exists_head (hall t (List.mem_cons_self ..))
  obtain ⟨more, hmore⟩ := exists_textOf_cons t ts
  have hinner : (textOf (t :: ts)).toList ++ ['>'] = c :: (text ++ more.toList ++ ['>']) := by
    rw [hmore, String.toList_append, hc]
    rfl
  have hbound : (textOf (t :: ts)).toList.length < (textOf (t :: ts)).toList.length + 4 := by omega
  have htype := scans_enclosed hafter hall hinside hbound []
  have hopen : Scans ((textOf (t :: ts)).toList.length + 5) []
      ('<' :: ((textOf (t :: ts)).toList ++ ['>'])) ((.punctuation, "<") :: enclosed (t :: ts)) := by
    rw [hinner] at htype ⊢
    exact (readsOn_of_head hstarts (lexes_open (fun hmem => hfirst (hangle hmem)) _)).scans
      htype []
  have hname : ({ kind := .identifier, text := "Task" } : Token).Lexes
      ('<' :: ((textOf (t :: ts)).toList ++ ['>'])) :=
    have hmore : ['a', 's', 'k'].all (fun d => Text.isLetterOrDigit d || d == '_') = true := by decide
    lexes_of_name (c := 'T') (.inl rfl) (by decide) (List.all_eq_true.1 hmore) (by simp; decide) rfl
      (by decide)
  obtain ⟨us, hscan, hwords⟩ := (readsOn_of_head (by decide) hname).scans hopen [] 0
  refine ⟨us, ?_, hwords⟩
  have hlist : ("Task<" ++ textOf (t :: ts) ++ ">").toList =
      "Task".toList ++ '<' :: ((textOf (t :: ts)).toList ++ ['>']) := by
    simp only [String.toList_append, List.append_assoc]
    rfl
  have hleading : Trivia.readLeading ("Task<" ++ textOf (t :: ts) ++ ">").toList =
      ([], ("Task<" ++ textOf (t :: ts) ++ ">").toList) := by
    rw [hlist]
    exact Trivia.readLeading_eq_nil (by decide) _
  simp only [scan, hleading]
  have hlength : ("Task<" ++ textOf (t :: ts) ++ ">").toList.length =
      (textOf (t :: ts)).toList.length + 5 + 1 := by
    rw [hlist, List.length_append, List.length_cons, List.length_append]
    exact Nat.add_comm 4 _
  rw [hlength, hlist]
  exact hscan

end Token

end Recast
