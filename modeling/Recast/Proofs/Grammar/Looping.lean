-- SUMMARY: Loops as turns without a bound: where every turn that goes on has taken a token they end, and the bounded loops of the grammar compute what they end in.
import Recast.Proofs.Grammar.Reading

/-! # Loops

The repetitions of the grammar are bounded by the tokens ahead. Here a loop is what a program does:
turn after turn, each of which refuses, is the last or goes on, with no bound on their number.
`Loop.Ends` is the run of such a loop, turn by turn, so it can only be shown of loops that end. The
bounded repetitions are shown to compute what the loops end in, given that a turn that goes on has
taken a token; so the bound never cuts a loop short. -/

namespace Recast.Parser

variable {α σ : Type}

/-! ## Turns -/

/-- What a turn of a loop comes to: the loop is done, or it goes on in another state. -/
inductive Turn (σ α : Type) where
  | done (result : α)
  | onward (state : σ)

/-- A loop, given by what it does in one turn. -/
abbrev Loop (σ α : Type) := σ → Parser (Turn σ α)

namespace Loop

/-- The turns of a loop from a state and a cursor on lead to a result. -/
inductive Ends (turn : Loop σ α) : σ → Cursor → Except ParseError (α × Cursor) → Prop where
  | refused {s : σ} {c : Cursor} {e : ParseError} (taken : turn s c = .error e) :
      Ends turn s c (.error e)
  | done {s : σ} {c d : Cursor} {a : α} (taken : turn s c = .ok (.done a, d)) :
      Ends turn s c (.ok (a, d))
  | onward {s s' : σ} {c d : Cursor} {r : Except ParseError (α × Cursor)}
      (taken : turn s c = .ok (.onward s', d)) (rest : Ends turn s' d r) : Ends turn s c r

/-- A loop ends in one result only. -/
theorem Ends.unique {turn : Loop σ α} {s : σ} {c : Cursor} {r r' : Except ParseError (α × Cursor)}
    (h : turn.Ends s c r) (h' : turn.Ends s c r') : r = r' := by
  induction h with
  | refused taken =>
    cases h' with
    | refused taken' => rw [taken] at taken'; cases taken'; rfl
    | done taken' => rw [taken] at taken'; cases taken'
    | onward taken' _ => rw [taken] at taken'; cases taken'
  | done taken =>
    cases h' with
    | refused taken' => rw [taken] at taken'; cases taken'
    | done taken' => rw [taken] at taken'; cases taken'; rfl
    | onward taken' _ => rw [taken] at taken'; cases taken'
  | onward taken _ ih =>
    cases h' with
    | refused taken' => rw [taken] at taken'; cases taken'
    | done taken' => rw [taken] at taken'; cases taken'
    | onward taken' rest' => rw [taken] at taken'; cases taken'; exact ih rest'

end Loop

/-! ## The loops of the grammar -/

/-- A turn that reads more parts after those read so far. -/
def readOn (xs : List Element) (p : Piece) : Parser (Turn (List Element) (List Element)) := do
  return .onward (xs ++ (← p))

/-- A turn that reads the last parts. -/
def readLast (xs : List Element) (p : Piece) : Parser (Turn (List Element) (List Element)) := do
  return .done (xs ++ (← p))

/-- Parts read one after the other while a test holds. -/
def whileTurn (test : Cursor → Bool) (p : Piece) : Loop (List Element) (List Element) := fun xs =>
  ifAt test (readOn xs p) (pure (.done xs))

/-- Items with commas after them, up to a closing mark. -/
def itemTurn (close : String) (item : Piece) : Loop (List Element) (List Element) := fun xs =>
  ifAt (Cursor.sees close) (pure (.done xs)) do
    let ys ← item
    ifAt (Cursor.sees ",") (readOn (xs ++ ys) token) (pure (.done (xs ++ ys)))

/-- A construct extended on its right. -/
def growTurn (next : Extension) : Loop Node Node := fun left => do
  match ← extend next left with
  | none => return .done left
  | some whole => return .onward whole

/-- The tokens and groups of a raw run. -/
def rawTurn : Loop (List Element) (List Element) := fun xs c =>
  if c.atEnd then .ok (.done xs, c)
  else if c.sees Token.closeBrace then
    if xs.isEmpty then .error (c.refusal "member") else .ok (.done xs, c)
  else if c.sees Token.openBrace then readLast xs (group ++ whenAt (Cursor.sees ";") token) c
  else if c.atBracket then readOn xs group c
  else if c.sees ";" then readLast xs token c
  else readOn xs token c

/-! ## What the bounded loops compute -/

/-- Parts read so far, in front of those of a result. -/
def resume (xs : List Element) (r : Except ParseError (List Element × Cursor)) :
    Except ParseError (List Element × Cursor) :=
  r.map fun (ys, d) => (xs ++ ys, d)

@[simp] theorem resume_error (xs : List Element) (e : ParseError) :
    resume xs (.error e) = .error e := rfl

@[simp] theorem resume_ok (xs ys : List Element) (d : Cursor) :
    resume xs (.ok (ys, d)) = .ok (xs ++ ys, d) := rfl

theorem resume_nil (r : Except ParseError (List Element × Cursor)) : resume [] r = r := by
  cases r <;> rfl

theorem resume_resume (xs ys : List Element) (r : Except ParseError (List Element × Cursor)) :
    resume xs (resume ys r) = resume (xs ++ ys) r := by
  cases r with
  | error e => rfl
  | ok result => exact congrArg Except.ok (Prod.ext (List.append_assoc ..).symm rfl)

/-- A piece after another reads on where that one stopped. -/
theorem append_apply (p q : Piece) (c : Cursor) :
    (p ++ q) c = (p c).bind fun (xs, d) => resume xs (q d) := by
  show (p >>= fun first => q >>= fun second => pure (first ++ second) : Piece) c = _
  simp only [bind, StateT.bind, Except.bind]
  cases p c with
  | error e => rfl
  | ok result =>
    obtain ⟨xs, d⟩ := result
    cases q d <;> rfl

section Turns

variable {turn : Loop (List Element) (List Element)} {s xs : List Element} {p q : Piece} {c d : Cursor}

/-- What a turn reads on is the start of what the loop reads. -/
theorem ends_readOn (hturn : turn s c = readOn xs p d)
    (hrest : ∀ ys e, p d = .ok (ys, e) → turn.Ends (xs ++ ys) e (resume (xs ++ ys) (q e))) :
    turn.Ends s c (resume xs ((p ++ q) d)) := by
  rw [append_apply]
  have hstep : readOn xs p d = (p d).map fun (ys, e) => (.onward (xs ++ ys), e) := by
    simp only [readOn, bind, StateT.bind, Except.bind]
    cases p d <;> rfl
  rw [hstep] at hturn
  cases hp : p d with
  | error e =>
    rw [hp] at hturn
    exact .refused hturn
  | ok result =>
    obtain ⟨ys, e⟩ := result
    rw [hp] at hturn
    have hends := hrest ys e hp
    rw [← resume_resume] at hends
    exact .onward hturn hends

theorem ends_readLast (hturn : turn s c = readLast xs p d) : turn.Ends s c (resume xs (p d)) := by
  have hstep : readLast xs p d = (p d).map fun (ys, e) => (.done (xs ++ ys), e) := by
    simp only [readLast, bind, StateT.bind, Except.bind]
    cases p d <;> rfl
  rw [hstep] at hturn
  cases hp : p d with
  | error e =>
    rw [hp] at hturn
    exact .refused hturn
  | ok result =>
    rw [hp] at hturn
    exact .done hturn

theorem ends_nothing (hturn : turn s c = .ok (.done xs, d)) :
    turn.Ends s c (resume xs (.ok ([], d))) := by
  rw [resume_ok, List.append_nil]
  exact .done hturn

end Turns

/-- Where the test holds, what the piece accepts is at least a token. -/
def Advances (test : Cursor → Bool) (p : Piece) : Prop :=
  ∀ ⦃c⦄, c.Closed → test c = true → ∀ ⦃xs d⦄, p c = .ok (xs, d) →
    d.Closed ∧ d.ahead.length < c.ahead.length

theorem Takes.advances {test : Cursor → Bool} {p : Piece} {need w l : Nat} (hp : Takes need w l p)
    (hw : 1 ≤ w) (htest : Cursor.Needs test need) : Advances test p := by
  intro c hc hholds xs d h
  obtain ⟨hreads, hweight, -⟩ := hp hc (htest hc hholds) h
  exact ⟨hreads.closed hc, hreads.shorter (Nat.le_trans hw hweight)⟩

theorem ends_rounds {test : Cursor → Bool} {p : Piece} (hp : Advances test p) {bound : Nat}
    {c : Cursor} (hc : c.Closed) (hbound : c.ahead.length < bound) (xs : List Element) :
    (whileTurn test p).Ends xs c (resume xs (rounds test p bound c)) := by
  induction bound generalizing c xs with
  | zero => omega
  | succ bound ih =>
    simp only [rounds]
    by_cases hholds : test c = true
    · rw [if_pos hholds]
      refine ends_readOn (if_pos hholds) fun ys d hread => ?_
      obtain ⟨hclosed, hless⟩ := hp hc hholds hread
      exact ih hclosed (by omega) _
    · rw [if_neg hholds]
      exact ends_nothing (if_neg hholds)

/-- A repetition is the loop without a bound. -/
theorem ends_repeatWhile {test : Cursor → Bool} {p : Piece} (hp : Advances test p) {c : Cursor}
    (hc : c.Closed) : (whileTurn test p).Ends [] c (repeatWhile test p c) := by
  have hends := ends_rounds hp hc (Nat.lt_succ_self _) []
  rwa [resume_nil] at hends

/-- What an item accepts is no more than was ahead. -/
def Settles (item : Piece) : Prop :=
  ∀ ⦃c⦄, c.Closed → ∀ ⦃xs d⦄, item c = .ok (xs, d) → d.Closed ∧ d.ahead.length ≤ c.ahead.length

theorem Takes.settles {item : Piece} {w l : Nat} (hitem : Takes 0 w l item) : Settles item := by
  intro c hc xs d h
  obtain ⟨hreads, -, -⟩ := hitem hc (Nat.zero_le _) h
  refine ⟨hreads.closed hc, ?_⟩
  rw [hreads.ahead, List.length_append]
  omega

/-- An item may be empty; it is the comma after it that the loop goes on behind. -/
theorem ends_itemsBefore {close : String} {item : Piece} (hitem : Settles item) {bound : Nat}
    {c : Cursor} (hc : c.Closed) (hbound : c.ahead.length < bound) (xs : List Element) :
    (itemTurn close item).Ends xs c (resume xs (itemsBefore close item bound c)) := by
  induction bound generalizing c xs with
  | zero => omega
  | succ bound ih =>
    simp only [itemsBefore]
    by_cases hclose : c.sees close = true
    · rw [if_pos hclose]
      exact ends_nothing (if_pos hclose)
    rw [if_neg hclose, append_apply]
    have hturn : itemTurn close item xs c = (item c).bind fun (ys, d) =>
        ifAt (Cursor.sees ",") (readOn (xs ++ ys) token) (pure (.done (xs ++ ys))) d := if_neg hclose
    cases hread : item c with
    | error e =>
      rw [hread] at hturn
      exact .refused hturn
    | ok result =>
      obtain ⟨ys, d⟩ := result
      rw [hread] at hturn
      obtain ⟨hclosed, hle⟩ := hitem hc hread
      -- What was taken so far goes in front of what the rest of the loop takes.
      show Loop.Ends _ xs c (resume xs (resume ys (whenAt (Cursor.sees ",") _ d)))
      rw [resume_resume]
      by_cases hcomma : d.sees "," = true
      · rw [whenAt, ifAt, if_pos hcomma]
        refine ends_readOn (hturn.trans (if_pos hcomma)) fun zs e htoken => ?_
        obtain ⟨hclosed', hless⟩ :=
          takes_token.advances (by decide) (Cursor.needs_sees ",") hclosed hcomma htoken
        exact ih hclosed' (by omega) _
      · rw [whenAt, ifAt, if_neg hcomma]
        exact ends_nothing (hturn.trans (if_neg hcomma))

theorem ends_openList {close : String} {item : Piece} (hitem : Settles item) {c : Cursor}
    (hc : c.Closed) : (itemTurn close item).Ends [] c (openList close item c) := by
  have hends : (itemTurn close item).Ends [] c
      (resume [] (itemsBefore close item (c.ahead.length + 1) c)) :=
    ends_itemsBefore hitem hc (Nat.lt_succ_self _) []
  rwa [resume_nil] at hends

/-- What follows a node and is part of a larger one is at least a token. -/
def Lengthens (next : Extension) : Prop :=
  ∀ ⦃c kind rest⦄, c.Closed → next c = some (kind, rest) → ∀ ⦃parts d⦄, rest c = .ok (parts, d) →
    d.Closed ∧ d.ahead.length < c.ahead.length

theorem Extends.lengthens {first : Node → Cursor → Prop} {next : Extension} (h : Extends first next) :
    Lengthens next := by
  intro c kind rest hc hnext parts d hrest
  obtain ⟨hreads, hweight, -⟩ := (h hc hnext).1 hrest
  exact ⟨hreads.closed hc, hreads.shorter hweight⟩

/-- A node is only extended by what has been taken. -/
theorem Lengthens.extend {next : Extension} (hnext : Lengthens next) {left whole : Node}
    {c d : Cursor} (hc : c.Closed) (h : extend next left c = .ok (some whole, d)) :
    d.Closed ∧ d.ahead.length < c.ahead.length := by
  simp only [Parser.extend] at h
  split at h
  · cases h
  · rename_i kind rest hkind
    obtain ⟨_, _, hwhole, h⟩ := bind_eq_ok h
    obtain ⟨-, rfl⟩ := Prod.mk.inj (Except.ok.inj h)
    obtain ⟨parts, hparts, -⟩ := build_eq_ok hwhole
    obtain ⟨_, _, _, hleft, hrest, -⟩ := append_eq_ok hparts
    obtain ⟨-, rfl⟩ := Prod.mk.inj (Except.ok.inj hleft)
    exact hnext hc hkind hrest

theorem ends_growths {next : Extension} (hnext : Lengthens next) {bound : Nat} {c : Cursor}
    (hc : c.Closed) (hbound : c.ahead.length < bound) (left : Node) :
    (growTurn next).Ends left c (growths next bound left c) := by
  induction bound generalizing c left with
  | zero => omega
  | succ bound ih =>
    have hturn : growTurn next left c = (extend next left c).bind fun
        | (none, d) => .ok (.done left, d)
        | (some whole, d) => .ok (.onward whole, d) := by
      simp only [growTurn, bind, StateT.bind, Except.bind]
      rcases extend next left c with e | ⟨_ | whole, d⟩ <;> rfl
    have hround : growths next (bound + 1) left c = (extend next left c).bind fun
        | (none, d) => .ok (left, d)
        | (some whole, d) => growths next bound whole d := by
      simp only [growths, bind, StateT.bind, Except.bind]
      rcases extend next left c with e | ⟨_ | whole, d⟩ <;> rfl
    rw [hround]
    rcases hextend : extend next left c with e | ⟨_ | whole, d⟩ <;> rw [hextend] at hturn
    · exact .refused hturn
    · exact .done hturn
    · obtain ⟨hclosed, hless⟩ := hnext.extend hc hextend
      exact .onward hturn (ih hclosed (by omega) whole)

/-- Once something has been read, a raw run is not fresh any more. -/
theorem ends_rawRounds {bound : Nat} {c : Cursor} (hc : c.Closed) (hbound : c.ahead.length < bound)
    (xs : List Element) :
    rawTurn.Ends xs c (resume xs (rawRounds bound xs.isEmpty c)) := by
  induction bound generalizing c xs with
  | zero => omega
  | succ bound ih =>
    -- The turn and the round of the bounded loop take the same branch.
    have hagain : ∀ {p : Piece}, Takes 1 2 0 p → c.atEnd = false → rawTurn xs c = readOn xs p c →
        rawTurn.Ends xs c (resume xs ((p ++ rawRounds bound false) c)) := by
      intro p hp hatEnd hturn
      refine ends_readOn hturn fun ys d hread => ?_
      obtain ⟨hreads, hweight, -⟩ := hp hc (Cursor.pos_of_notAtEnd hatEnd) hread
      have hmore : (xs ++ ys).isEmpty = false := by
        cases ys with
        | nil => simp at hweight
        | cons y ys => simp
      have hless := hreads.shorter (Nat.le_trans (by decide) hweight)
      have hends := ih (hreads.closed hc) (by omega) (xs ++ ys)
      rwa [hmore] at hends
    simp only [rawRounds]
    split
    · rename_i hatEnd
      exact ends_nothing (if_pos hatEnd)
    rename_i hatEnd
    have hmore := Bool.eq_false_iff.2 hatEnd
    split
    · rename_i hclose
      have hturn : rawTurn xs c =
          if xs.isEmpty then .error (c.refusal "member") else .ok (.done xs, c) :=
        (if_neg hatEnd).trans (if_pos hclose)
      split
      · rename_i hfresh
        exact .refused (hturn.trans (if_pos hfresh))
      · rename_i hfresh
        exact ends_nothing (hturn.trans (if_neg hfresh))
    rename_i hclose
    split
    · rename_i hopen
      exact ends_readLast ((if_neg hatEnd).trans ((if_neg hclose).trans (if_pos hopen)))
    rename_i hopen
    split
    · rename_i hbracket
      exact hagain (takes_group.mono (by decide) (by decide) (by decide)) hmore ((if_neg hatEnd).trans
        ((if_neg hclose).trans ((if_neg hopen).trans (if_pos hbracket))))
    rename_i hbracket
    split
    · rename_i hsemicolon
      exact ends_readLast ((if_neg hatEnd).trans ((if_neg hclose).trans ((if_neg hopen).trans
        ((if_neg hbracket).trans (if_pos hsemicolon)))))
    · rename_i hsemicolon
      exact hagain takes_token hmore ((if_neg hatEnd).trans ((if_neg hclose).trans
        ((if_neg hopen).trans ((if_neg hbracket).trans (if_neg hsemicolon)))))

end Recast.Parser
