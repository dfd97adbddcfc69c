-- SUMMARY: How the trivia of a text hangs on its tokens: a line end closes what hangs behind a token, and what goes on without one is a directive.
import Mathlib.Data.List.Chain
import Recast.Proofs.Migration.Directives

/-! # How trivia hangs on tokens

The trivia between two tokens is read by two loops, first for the token before it and then for the
one after it. The first loop reads all that the second one reads but directives, and it stops after
a line end. So where no line ends behind a token the next one has nothing in front of it, or a
directive first. Both loops lay pieces out one after the other as each of them stands
(`Trivia.Laid`), and white space stands up to the first character of another kind. -/

namespace Recast

namespace Trivia

/-! ## Runs -/

/-- Pieces that are read one after the other, in front of the rest of a text. -/
inductive Laid : List Trivia → List Char → Prop
  | nil {rest : List Char} : Laid [] rest
  | cons {piece : Trivia} {run : List Trivia} {rest : List Char}
      (first : Stands piece ((textOf run).toList ++ rest)) (more : Laid run rest) :
      Laid (piece :: run) rest

/-- Two neighbours that are not both white space. -/
def Apart (a b : Trivia) : Prop :=
  ¬(a.isWhitespace = true ∧ b.isWhitespace = true)

/-- What hangs behind a token: no directive, and a line end as the last piece only. -/
structure Behind (run : List Trivia) : Prop where
  plain : ∀ piece ∈ run, piece.isDirective = false
  lineEnd_last : ∀ piece ∈ run.dropLast, piece.isLineEnd = false

theorem Stands.apart {a b : Trivia} {after rest : List Char}
    (ha : Stands a (b.text.toList ++ after)) (hb : Stands b rest) : Apart a b := by
  rintro ⟨hleft, hright⟩
  cases hb with
  | @whitespace c cs _ blank _ =>
    cases ha with
    | whitespace _ stop =>
      have hc : Scan.isSpacing c = false := stop c (by simp [text])
      rw [blank c List.mem_cons_self] at hc
      cases hc
    | _ => cases hleft
  | _ => cases hright

theorem Laid.isChain_apart {run : List Trivia} {rest : List Char} (h : Laid run rest) :
    run.IsChain Apart := by
  induction h with
  | nil => exact .nil
  | @cons a run rest first more ih =>
    cases more with
    | nil => exact .singleton a
    | cons second more =>
      rw [textOf_cons, String.toList_append, List.append_assoc] at first
      exact .cons_cons (first.apart second) ih

theorem Laid.text_ne {run : List Trivia} {rest : List Char} (h : Laid run rest) :
    ∀ piece ∈ run, piece.text ≠ "" := by
  induction h with
  | nil => exact List.forall_mem_nil _
  | cons first _ ih => exact List.forall_mem_cons.2 ⟨fun hempty => first.text_ne (hempty ▸ rfl), ih⟩

theorem laid_readLeading (cs : List Char) : Laid (readLeading cs).1 (readLeading cs).2 := by
  unfold readLeading
  fun_induction leadingRun cs.length cs with
  | case1 cs => exact .nil
  | case2 bound cs hnone => exact .nil
  | case3 bound cs piece rest hpiece pieces rest' hrun ih =>
    have hsplit := leadingRun_split bound rest
    rw [hrun] at hsplit ih
    exact .cons (hsplit ▸ stands_of_leadingPiece hpiece) ih

theorem laid_readTrailing (cs : List Char) : Laid (readTrailing cs).1 (readTrailing cs).2 := by
  unfold readTrailing
  fun_induction trailingRun cs.length cs with
  | case1 cs => exact .nil
  | case2 bound cs hnone => exact .nil
  | case3 bound cs piece rest hpiece hend => exact .cons (stands_of_trailingPiece hpiece).1 .nil
  | case4 bound cs piece rest hpiece hend pieces rest' hrun ih =>
    have hsplit := trailingRun_split bound rest
    rw [hrun] at hsplit ih
    exact .cons (hsplit ▸ (stands_of_trailingPiece hpiece).1) ih

/-! ## Behind a token -/

theorem behind_readTrailing (cs : List Char) : Behind (readTrailing cs).1 := by
  refine ⟨not_isDirective_of_mem_trailingRun _ cs, ?_⟩
  unfold readTrailing
  fun_induction trailingRun cs.length cs with
  | case1 cs => exact List.forall_mem_nil _
  | case2 bound cs hnone => exact List.forall_mem_nil _
  | case3 bound cs piece rest hpiece hend => exact List.forall_mem_nil _
  | case4 bound cs piece rest hpiece hend pieces rest' hrun ih =>
    rw [hrun] at ih
    cases pieces with
    | nil => exact List.forall_mem_nil _
    | cons next pieces =>
      rw [List.dropLast_cons_cons]
      exact List.forall_mem_cons.2 ⟨Bool.eq_false_iff.2 hend, ih⟩

/-- Without a line end the trivia behind a token goes on until no piece of it starts. -/
theorem trailingRun_stops {bound : Nat} {cs : List Char} (hbound : cs.length ≤ bound)
    (h : endsLine (trailingRun bound cs).1 = false) :
    trailingPiece (trailingRun bound cs).2 = none := by
  fun_induction trailingRun bound cs with
  | case1 cs =>
    rw [List.length_eq_zero_iff.1 (Nat.le_zero.1 hbound)]
    rfl
  | case2 bound cs hnone => exact hnone
  | case3 bound cs piece rest hpiece hend => exact absurd (hend.symm.trans h) (by decide)
  | case4 bound cs piece rest hpiece hend pieces rest' hrun ih =>
    rw [hrun] at ih
    have hlength := congrArg List.length (trailingPiece_split hpiece)
    have hpos := List.length_pos_iff.2 (stands_of_trailingPiece hpiece).1.text_ne
    rw [List.length_append] at hlength
    refine ih (by omega) ?_
    cases pieces with
    | nil => rfl
    | cons next pieces => rwa [endsLine, List.getLast?_cons_cons] at h

/-- Where no piece starts that may hang behind a token, only a directive starts. -/
theorem isDirective_of_trailingPiece_eq_none {cs : List Char} (h : trailingPiece cs = none) :
    ∀ piece ∈ (readLeading cs).1.head?, piece.isDirective = true := by
  intro piece hpiece
  have hlaid := laid_readLeading cs
  have hsplit := leadingRun_split cs.length cs
  rw [← readLeading] at hsplit
  generalize readLeading cs = found at hlaid hsplit hpiece
  obtain ⟨run, rest⟩ := found
  cases hlaid with
  | nil => cases hpiece
  | cons first more =>
    obtain rfl := Option.some.inj hpiece
    -- All other pieces are read behind a token as well.
    by_contra hplain
    have hread := trailingPiece_of_stands first (Bool.eq_false_iff.2 hplain)
    rw [textOf_cons, String.toList_append, List.append_assoc] at hsplit
    rw [← hsplit, h] at hread
    cases hread

end Trivia

/-! ## Tokens -/

namespace Token

/-- What is in front of a token goes on from what hangs behind the one before it: after a line end
    with anything, or else with a directive if at all. -/
def GoesOn (t u : Token) : Prop :=
  Trivia.endsLine t.trailing = false → ∀ piece ∈ u.leading.head?, piece.isDirective = true

section Step

variable {offset next : Nat} {leading following : List Trivia} {cs rest : List Char} {t : Token}

theorem Step.laid_trailing (h : Step offset leading cs t next following rest) :
    ∃ rest, Trivia.Laid t.trailing rest := by
  have hlaid := Trivia.laid_readTrailing ((Trivia.textOf t.trailing).toList
    ++ ((Trivia.textOf following).toList ++ rest))
  rw [h.trailing_eq] at hlaid
  exact ⟨_, hlaid⟩

theorem Step.laid_following (h : Step offset leading cs t next following rest) :
    Trivia.Laid following rest := by
  have hlaid := Trivia.laid_readLeading ((Trivia.textOf following).toList ++ rest)
  rwa [h.following_eq] at hlaid

theorem Step.behind (h : Step offset leading cs t next following rest) :
    Trivia.Behind t.trailing := by
  have hbehind := Trivia.behind_readTrailing ((Trivia.textOf t.trailing).toList
    ++ ((Trivia.textOf following).toList ++ rest))
  rwa [h.trailing_eq] at hbehind

theorem Step.goesOn (h : Step offset leading cs t next following rest) {u : Token}
    (hu : u.leading = following) : t.GoesOn u := by
  intro hopen
  have htrailing := h.trailing_eq
  rw [Trivia.readTrailing] at htrailing
  have hnone := Trivia.trailingRun_stops (Nat.le_refl _) (by rwa [htrailing])
  rw [htrailing] at hnone
  have hhead := Trivia.isDirective_of_trailingPiece_eq_none hnone
  rwa [h.following_eq, ← hu] at hhead

end Step

/-- All of it along a scan, whose first token has the trivia that was read before it. -/
theorem scanFrom_hangs {bound offset : Nat} {leading : List Trivia} {cs : List Char}
    {ts : List Token} (h : scanFrom bound offset leading cs = .ok ts)
    (hleading : ∃ rest, Trivia.Laid leading rest) :
    (∃ t us, ts = t :: us ∧ t.leading = leading) ∧ ts.IsChain GoesOn ∧
      ∀ t ∈ ts, (∃ rest, Trivia.Laid t.leading rest) ∧ (∃ rest, Trivia.Laid t.trailing rest) ∧
        Trivia.Behind t.trailing := by
  revert hleading
  refine scanFrom_induction (motive := fun _ leading _ ts => (∃ rest, Trivia.Laid leading rest) →
    (∃ t us, ts = t :: us ∧ t.leading = leading) ∧ ts.IsChain GoesOn ∧
      ∀ t ∈ ts, (∃ rest, Trivia.Laid t.leading rest) ∧ (∃ rest, Trivia.Laid t.trailing rest) ∧
        Trivia.Behind t.trailing) ?_ ?_ h
  · intro offset leading hleading
    refine ⟨⟨_, [], rfl, rfl⟩, .singleton _, List.forall_mem_singleton.2 ⟨hleading, ⟨[], .nil⟩, ?_⟩⟩
    exact ⟨List.forall_mem_nil _, List.forall_mem_nil _⟩
  · intro offset leading cs t next following rest us hstep ih hleading
    obtain ⟨⟨u, vs, rfl, hu⟩, hchain, hall⟩ := ih ⟨rest, hstep.laid_following⟩
    refine ⟨⟨t, _, rfl, hstep.leading_eq⟩, .cons_cons (hstep.goesOn hu) hchain, ?_⟩
    exact List.forall_mem_cons.2
      ⟨⟨hstep.leading_eq ▸ hleading, hstep.laid_trailing, hstep.behind⟩, hall⟩

end Token

/-- Trivia hangs on the tokens of a text in one way. Behind a token no directive hangs, and a line
    end only as the last piece. Where none hangs there, the next token has nothing in front of it or
    a directive first. Nowhere are there two pieces of white space in a row or a piece without text,
    and nothing hangs behind the token that ends the text. -/
theorem scan_hangs_trivia {source : String} {ts : List Token} (h : Token.scan source = .ok ts) :
    (∀ t ∈ ts, (∀ piece ∈ t.trailing, piece.isDirective = false) ∧
      ∀ piece ∈ t.trailing.dropLast, piece.isLineEnd = false) ∧
    (ts.IsChain fun t u => Trivia.endsLine t.trailing = false →
      ∀ piece ∈ u.leading.head?, piece.isDirective = true) ∧
    (∀ t ∈ ts, ∀ run ∈ [t.leading, t.trailing],
      (run.IsChain fun a b => ¬(a.isWhitespace = true ∧ b.isWhitespace = true)) ∧
        ∀ piece ∈ run, piece.text ≠ "") ∧
    ∀ t ∈ ts, t.kind = .endOfFile → t.trailing = [] := by
  obtain ⟨-, hchain, hall⟩ := Token.scanFrom_hangs h ⟨_, Trivia.laid_readLeading _⟩
  refine ⟨fun t ht => ?_, hchain, fun t ht => ?_, fun t ht hkind => ?_⟩
  · obtain ⟨-, -, hbehind⟩ := hall t ht
    exact ⟨hbehind.plain, hbehind.lineEnd_last⟩
  · obtain ⟨⟨_, hleading⟩, ⟨_, htrailing⟩, -⟩ := hall t ht
    simp only [List.forall_mem_cons, List.not_mem_nil, false_imp_iff, implies_true, and_true]
    exact ⟨⟨hleading.isChain_apart, hleading.text_ne⟩, htrailing.isChain_apart, htrailing.text_ne⟩
  · obtain ⟨init, trivia, stop, rfl, hinit⟩ := Token.scanFrom_finish h
    rcases List.mem_append.1 ht with ht | ht
    · exact absurd hkind (hinit t ht)
    · rw [List.mem_singleton.1 ht]
      rfl

/-- A directive on the line of a name goes in front of the next token. A lone carriage return keeps
    the slashes before it from being a comment, and ends the line behind the name between. -/
theorem scan_hangs_trivia_directive : ∃ ts, Token.scan "a #if b\n//c\rd" = .ok ts ∧
    (ts.map fun t => (t.leading, t.text, t.trailing)) =
      [([], "a", [.space]), ([.directive "#if b", .newline], "/", []), ([], "/", []),
        ([], "c", [.lineEnd "\r"]), ([], "d", []), ([], "", [])] ∧
    ts.IsChain fun t u => Trivia.endsLine t.trailing = false →
      ∀ piece ∈ u.leading.head?, piece.isDirective = true := by
  have hread : (Token.scan "a #if b\n//c\rd").toOption.map (fun ts =>
      ts.map fun t => (t.leading, t.text, t.trailing)) =
        some [([], "a", [.space]), ([.directive "#if b", .newline], "/", []), ([], "/", []),
          ([], "c", [.lineEnd "\r"]), ([], "d", []), ([], "", [])] := by
    decide +kernel
  obtain ⟨ts, hts, hpieces⟩ := exists_ok_of_map hread
  exact ⟨ts, hts, hpieces, (scan_hangs_trivia hts).2.1⟩

end Recast
