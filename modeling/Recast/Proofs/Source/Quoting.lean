-- SUMMARY: Quoted literals end where their grammar says: the scanner takes pieces of plain or verbatim text up to the first quote that closes them.
import Recast.Proofs.Source.Scanning
import Recast.Source.Slice

/-! # Quoted literals

The body of a quoted literal is a run of pieces with the closing quote behind it. A piece of plain
text is a character that stands for itself or a backslash with what it takes along; a piece of
verbatim text is a character that is no quote or a quote written twice. Read from the left there is
one way to split a text into pieces, so a plain body ends at one place at most; a verbatim one does
when no further quote follows. -/

namespace Recast.Scan

/-! ## Grammar -/

/-- A piece of plain text. -/
inductive PlainPiece (q : Char) : List Char → Prop
  | char {c : Char} (quote : c ≠ q) (backslash : c ≠ '\\') (line : c ≠ '\n') : PlainPiece q [c]
  | escape (x : Char) : PlainPiece q ['\\', x]

/-- A piece of verbatim text. -/
inductive VerbatimPiece (q : Char) : List Char → Prop
  | char {c : Char} (quote : c ≠ q) : VerbatimPiece q [c]
  | doubled : VerbatimPiece q [q, q]

/-- Any number of pieces and the closing quote. -/
inductive Body (Piece : List Char → Prop) (q : Char) : List Char → Prop
  | close : Body Piece q [q]
  | piece {p l : List Char} (first : Piece p) (more : Body Piece q l) : Body Piece q (p ++ l)

/-- The first `n` bytes of a text are a plain body. -/
def PlainEnd (q : Char) (body : String) (n : Nat) : Prop :=
  ∃ l rest, body.toList = l ++ rest ∧ Text.byteSize l = n ∧ Body (PlainPiece q) q l

/-- The first `n` bytes of a text are a verbatim body, and no further quote follows them. -/
def VerbatimEnd (q : Char) (body : String) (n : Nat) : Prop :=
  ∃ l rest, body.toList = l ++ rest ∧ Text.byteSize l = n ∧ Body (VerbatimPiece q) q l ∧
    rest.head? ≠ some q

/-- The number of bytes that the scanner takes for the body of a quoted literal. -/
def bodySize? (style : QuoteStyle) (body : String) : Option Nat :=
  (quoted style .text body.toList).map fun (l, _) => Text.byteSize l

theorem bodySize?_eq_some_iff {style : QuoteStyle} {body : String} {n : Nat} :
    bodySize? style body = some n ↔
      ∃ l rest, quoted style .text body.toList = some (l, rest) ∧ Text.byteSize l = n := by
  simp [bodySize?]

/-! ## Plain text -/

/-- A body is read to its end whatever follows it. -/
theorem quoted_of_plainBody {q : Char} (hq : q ≠ '\\') {l : List Char}
    (h : Body (PlainPiece q) q l) (rest : List Char) :
    quoted ⟨q, false, false⟩ .text (l ++ rest) = some (l, rest) := by
  induction h with
  | close => simp [quoted, hq]
  | piece first _ ih =>
    cases first with
    | char quote backslash line => simp [quoted, quote, backslash, line, ih, push]
    | escape x => simp [quoted, ih, push]

/-- What is read is a body, and behind a backslash any character with a body. The induction is on
    the input, for both states at once. -/
theorem plainBody_of_quoted {q : Char} (cs : List Char) :
    (∀ l rest, quoted ⟨q, false, false⟩ .text cs = some (l, rest) → Body (PlainPiece q) q l) ∧
    ∀ l rest, quoted ⟨q, false, false⟩ .taken cs = some (l, rest) →
      ∃ x l', l = x :: l' ∧ Body (PlainPiece q) q l' := by
  induction cs with
  | nil => exact ⟨nofun, nofun⟩
  | cons c cs ih =>
    constructor
    · intro l rest h
      simp only [quoted, Bool.not_false, Bool.and_true, Bool.and_false, Bool.false_and,
        beq_iff_eq, Bool.false_eq_true, if_false] at h
      split at h
      · rename_i hbackslash
        obtain ⟨taken, rfl, htaken⟩ := push_eq_some h
        obtain ⟨x, l, rfl, hbody⟩ := ih.2 _ _ htaken
        exact hbackslash ▸ .piece (.escape x) hbody
      · rename_i hbackslash
        split at h
        · rename_i hquote
          obtain ⟨rfl, -⟩ := Prod.mk.inj (Option.some.inj h)
          exact hquote ▸ .close
        · rename_i hquote
          split at h
          · cases h
          · rename_i hline
            obtain ⟨l, rfl, hmore⟩ := push_eq_some h
            exact .piece (.char hquote hbackslash hline) (ih.1 _ _ hmore)
    · intro l rest h
      rw [quoted] at h
      obtain ⟨l, rfl, hmore⟩ := push_eq_some h
      exact ⟨c, l, rfl, ih.1 _ _ hmore⟩

theorem quoted_plain_iff {q : Char} (hq : q ≠ '\\') {cs l rest : List Char} :
    quoted ⟨q, false, false⟩ .text cs = some (l, rest) ↔
      cs = l ++ rest ∧ Body (PlainPiece q) q l := by
  constructor
  · intro h
    exact ⟨(exact_quoted _ _ h).1, (plainBody_of_quoted cs).1 _ _ h⟩
  · rintro ⟨rfl, hbody⟩
    exact quoted_of_plainBody hq hbody rest

/-! ## Verbatim text -/

theorem quoted_of_verbatimBody {q : Char} {l : List Char} (h : Body (VerbatimPiece q) q l)
    {rest : List Char} (hrest : rest.head? ≠ some q) :
    quoted ⟨q, true, false⟩ .text (l ++ rest) = some (l, rest) := by
  induction h with
  | close => simp [quoted, hrest]
  | piece first _ ih =>
    cases first with
    | char quote => simp [quoted, quote, ih, push]
    | doubled => simp [quoted, ih, push]

/-- What is read is a body without a further quote behind it, and behind the first of two quotes
    the other one with such a body. -/
theorem verbatimBody_of_quoted {q : Char} (cs : List Char) :
    (∀ l rest, quoted ⟨q, true, false⟩ .text cs = some (l, rest) →
      Body (VerbatimPiece q) q l ∧ rest.head? ≠ some q) ∧
    ∀ l rest, quoted ⟨q, true, false⟩ .taken cs = some (l, rest) → cs.head? = some q →
      ∃ l', l = q :: l' ∧ Body (VerbatimPiece q) q l' ∧ rest.head? ≠ some q := by
  induction cs with
  | nil => exact ⟨nofun, nofun⟩
  | cons c cs ih =>
    constructor
    · intro l rest h
      simp only [quoted, Bool.not_true, Bool.and_false, Bool.true_and, beq_iff_eq,
        Bool.false_eq_true, if_false] at h
      split at h
      · rename_i hquote
        subst hquote
        -- A quote closes unless another one follows, which is then taken with it.
        split at h
        · rename_i hnext
          obtain ⟨taken, rfl, htaken⟩ := push_eq_some h
          obtain ⟨l, rfl, hbody, hrest⟩ := ih.2 _ _ htaken hnext
          exact ⟨.piece .doubled hbody, hrest⟩
        · rename_i hnext
          obtain ⟨rfl, rfl⟩ := Prod.mk.inj (Option.some.inj h)
          exact ⟨.close, hnext⟩
      · rename_i hquote
        obtain ⟨l, rfl, hmore⟩ := push_eq_some h
        obtain ⟨hbody, hrest⟩ := ih.1 _ _ hmore
        exact ⟨.piece (.char hquote) hbody, hrest⟩
    · intro l rest h hnext
      obtain rfl := Option.some.inj hnext
      rw [quoted] at h
      obtain ⟨l, rfl, hmore⟩ := push_eq_some h
      exact ⟨l, rfl, ih.1 _ _ hmore⟩

theorem quoted_verbatim_iff {q : Char} {cs l rest : List Char} :
    quoted ⟨q, true, false⟩ .text cs = some (l, rest) ↔
      cs = l ++ rest ∧ Body (VerbatimPiece q) q l ∧ rest.head? ≠ some q := by
  constructor
  · intro h
    exact ⟨(exact_quoted _ _ h).1, (verbatimBody_of_quoted cs).1 _ _ h⟩
  · rintro ⟨rfl, hbody, hrest⟩
    exact quoted_of_verbatimBody hbody hrest

/-! ## Sizes -/

/-- An answer finds a place in a text: it is the only number of bytes where the condition holds,
    that number stands between two characters, and there is no answer where it holds nowhere. -/
structure Finds (body : String) (answer : Option Nat) (holds : Nat → Prop) : Prop where
  some_iff : ∀ n, answer = some n ↔ holds n
  none_iff : answer = none ↔ ∀ n, ¬holds n
  unique : ∀ n m, holds n → holds m → n = m
  boundary : ∀ n, holds n → (⟨n⟩ : String.Pos.Raw).IsValid body

theorem isValid_byteSize {body : String} {l rest : List Char} (h : body.toList = l ++ rest) :
    (⟨Text.byteSize l⟩ : String.Pos.Raw).IsValid body := by
  refine String.Pos.Raw.isValid_iff_exists_append.2 ⟨String.ofList l, String.ofList rest, ?_, ?_⟩
  · rw [← String.ofList_append, ← h, String.ofList_toList]
  · rw [← String.toList_ofList (l := l), Text.byteSize_toList, String.ofList_toList]
    rfl

theorem finds_of_iff {body : String} {answer : Option Nat} {holds : Nat → Prop}
    (hiff : ∀ n, answer = some n ↔ holds n)
    (hboundary : ∀ n, holds n → (⟨n⟩ : String.Pos.Raw).IsValid body) :
    Finds body answer holds := by
  refine ⟨hiff, ?_, fun n m hn hm => ?_, hboundary⟩
  · rw [Option.eq_none_iff_forall_ne_some]
    exact forall_congr' fun n => not_congr (hiff n)
  · exact Option.some.inj (((hiff n).2 hn).symm.trans ((hiff m).2 hm))

/-- Quoted literals end where their grammar says. From behind the opening quote, a plain literal
    takes the first bytes that are a plain body, a verbatim one those that are a verbatim body
    without a further quote behind it. There is one such number of bytes at most, it stands between
    two characters, and the scanner refuses the text when there is none. -/
theorem quoted_ends_by_grammar {q : Char} (hq : q = '"' ∨ q = '\'') (body : String) :
    Finds body (bodySize? ⟨q, false, false⟩ body) (PlainEnd q body) ∧
    Finds body (bodySize? ⟨q, true, false⟩ body) (VerbatimEnd q body) := by
  have hbackslash : q ≠ '\\' := by
    rcases hq with rfl | rfl <;> decide
  refine ⟨finds_of_iff (fun n => ?_) ?_, finds_of_iff (fun n => ?_) ?_⟩
  · rw [bodySize?_eq_some_iff, PlainEnd]
    refine exists_congr fun l => exists_congr fun rest => ?_
    rw [quoted_plain_iff hbackslash, and_right_comm, and_assoc]
  · rintro n ⟨l, rest, hsplit, rfl, -⟩
    exact isValid_byteSize hsplit
  · rw [bodySize?_eq_some_iff, VerbatimEnd]
    refine exists_congr fun l => exists_congr fun rest => ?_
    rw [quoted_verbatim_iff, and_right_comm, and_assoc]
  · rintro n ⟨l, rest, hsplit, rfl, -⟩
    exact isValid_byteSize hsplit

/-- A letter of two bytes, a backslash and three double quotes: as plain text the backslash takes the
    first quote along and the second one closes, as verbatim text the first two are one and the
    third one closes. No single quote closes there. -/
theorem quoted_ends_by_grammar_quotes :
    let body := "é\\\"\"\"x"
    ('"' = '"' ∨ '"' = '\'') ∧ ('\'' = '"' ∨ '\'' = '\'') ∧
      PlainEnd '"' body 5 ∧ VerbatimEnd '"' body 6 ∧ ∀ n, ¬PlainEnd '\'' body n := by
  intro body
  obtain ⟨hplain, hverbatim⟩ := quoted_ends_by_grammar (q := '"') (.inl rfl) body
  have hsingle := (quoted_ends_by_grammar (q := '\'') (.inr rfl) body).1
  exact ⟨.inl rfl, .inr rfl, (hplain.some_iff 5).1 (by decide +kernel),
    (hverbatim.some_iff 6).1 (by decide +kernel), hsingle.none_iff.1 (by decide +kernel)⟩

end Recast.Scan
