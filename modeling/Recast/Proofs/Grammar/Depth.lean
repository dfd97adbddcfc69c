-- SUMMARY: Parsers that only differ in what they do far from the end of a text are the same near it: the calculus of depth for the grammar's combinators.
import Recast.Proofs.Grammar.Reading

/-! # Depth

Two parsers are *the same below `m`* when they do the same at every cursor with fewer than `m`
tokens ahead. What both accept takes at least `step` tokens, and so a parser that takes a token
first may go on with one that is known one token less far. This is how deep a construct can nest:
the constructs in it are entered with fewer tokens ahead. -/

namespace Recast.Parser

variable {α β : Type}

/-- From a closed cursor with at least `need` and fewer than `m` tokens ahead two parsers do the
    same, and take at least `step` tokens where they accept. -/
def SameBelow (need m step : Nat) (p q : Parser α) : Prop :=
  ∀ ⦃c⦄, c.Closed → need ≤ c.ahead.length → c.ahead.length < m →
    p c = q c ∧ ∀ ⦃a d⦄, q c = .ok (a, d) → d.Closed ∧ d.ahead.length + step ≤ c.ahead.length

/-- A parser that returns what it takes is the same as itself. -/
theorem Takes.same {need w l : Nat} {p : Piece} (hp : Takes need w l p) (m : Nat) :
    SameBelow need m (min 1 w) p p := by
  intro c hc hneed _
  refine ⟨rfl, fun parts d h => ?_⟩
  obtain ⟨hreads, hweight, -⟩ := hp hc hneed h
  refine ⟨hreads.closed hc, ?_⟩
  rcases Nat.eq_zero_or_pos w with rfl | hpos
  · rw [hreads.ahead, List.length_append]
    omega
  · have := hreads.shorter (Nat.le_trans hpos hweight)
    omega

theorem Makes.same {need w l : Nat} {p : Parser Node} (hp : Makes need w l p) (m : Nat) :
    SameBelow need m (min 1 w) p p := by
  intro c hc hneed _
  refine ⟨rfl, fun n d h => ?_⟩
  obtain ⟨hreads, hweight, -⟩ := hp hc hneed h
  refine ⟨hreads.closed hc, ?_⟩
  rcases Nat.eq_zero_or_pos w with rfl | hpos
  · rw [hreads.ahead, List.length_append]
    omega
  · have := hreads.shorter (by simpa using Nat.le_trans hpos hweight)
    omega

theorem same_fail (need m step : Nat) (what : String) :
    SameBelow need m step (fail what : Parser α) (fail what) := by
  intro c _ _ _
  exact ⟨rfl, fun _ _ h => nomatch h⟩

theorem same_pure (m : Nat) (a : α) : SameBelow 0 m 0 (pure a : Parser α) (pure a) := by
  intro c hc _ _
  refine ⟨rfl, fun _ _ h => ?_⟩
  obtain ⟨rfl, rfl⟩ := Prod.mk.inj (Except.ok.inj h)
  exact ⟨hc, Nat.le_refl _⟩

theorem same_given (m : Nat) (parts : List Element) : SameBelow 0 m 0 (given parts) (given parts) :=
  same_pure m parts

theorem same_token (m : Nat) : SameBelow 1 m 1 token token :=
  takes_token.same m

/-- Without a token to take, the cursor stays. -/
theorem same_tokenIfAny (m : Nat) : SameBelow 0 m 0 token token := by
  intro c hc _ _
  refine ⟨rfl, fun parts d h => ?_⟩
  obtain ⟨t, e, hbump, h⟩ := bind_eq_ok h
  obtain ⟨-, rfl⟩ := Prod.mk.inj (Except.ok.inj h)
  rw [bump] at hbump
  split at hbump
  · obtain ⟨-, rfl⟩ := Prod.mk.inj (Except.ok.inj hbump)
    exact ⟨hc, Nat.le_refl _⟩
  · rename_i hahead
    obtain ⟨-, rfl⟩ := Prod.mk.inj (Except.ok.inj hbump)
    rw [hahead]
    exact ⟨hc, Nat.le_succ _⟩

theorem same_mark (m : Nat) (text : String) : SameBelow 0 m 1 (mark text) (mark text) :=
  (takes_mark text).same m

theorem same_name (m : Nat) : SameBelow 0 m 1 name name :=
  takes_name.same m

theorem same_check (m : Nat) (test : Cursor → Bool) (what : String) :
    SameBelow 0 m 0 (check test what) (check test what) :=
  (takes_check test what).same m

/-- Tests that tell the same of closed cursors with so many tokens ahead. -/
def SameTest (m : Nat) (s t : Cursor → Bool) : Prop :=
  ∀ ⦃c⦄, c.Closed → c.ahead.length < m → s c = t c

theorem sameTest_refl (m : Nat) (test : Cursor → Bool) : SameTest m test test :=
  fun _ _ _ => rfl

namespace SameBelow

/-! ## Sequence -/

section Sequence

variable {need m step : Nat} {p q : Parser α}

theorem mono {need' m' step' : Nat} (h : SameBelow need m step p q) (hneed : need ≤ need')
    (hm : m' ≤ m) (hstep : step' ≤ step) : SameBelow need' m' step' p q := by
  intro c hc hready hless
  obtain ⟨heq, hrest⟩ := h hc (by omega) (by omega)
  refine ⟨heq, fun a d ha => ?_⟩
  obtain ⟨hclosed, hle⟩ := hrest ha
  exact ⟨hclosed, by omega⟩

/-- What is known one token farther from the end. -/
theorem lower (h : SameBelow need (m + 1) step p q) : SameBelow need m step p q :=
  h.mono (Nat.le_refl _) (Nat.le_succ m) (Nat.le_refl _)

/-- What takes at least nothing. -/
theorem stay (h : SameBelow need m step p q) : SameBelow need m 0 p q :=
  h.mono (Nat.le_refl _) (Nat.le_refl _) (Nat.zero_le _)

/-- The second parser starts with as many tokens less ahead as the first one takes. -/
theorem bind_of {k l : α → Parser β} {m' step' : Nat} (h : SameBelow need m step p q)
    (hk : ∀ a, SameBelow 0 m' step' (k a) (l a)) (hm : m ≤ m' + step) :
    SameBelow need m (step + step') (p >>= k) (q >>= l) := by
  intro c hc hready hless
  obtain ⟨heq, hrest⟩ := h hc hready hless
  show ((p c) >>= fun x => k x.1 x.2) = ((q c) >>= fun x => l x.1 x.2) ∧
    ∀ ⦃b e⦄, ((q c) >>= fun x => l x.1 x.2) = .ok (b, e) → _
  rw [heq]
  cases hq : q c with
  | error e => exact ⟨rfl, fun _ _ h => nomatch h⟩
  | ok result =>
    obtain ⟨a, d⟩ := result
    obtain ⟨hclosed, hle⟩ := hrest hq
    -- Fewer tokens are ahead, so the bounds on the depth agree for the second parser too.
    obtain ⟨hsame, hnext⟩ := hk a hclosed (Nat.zero_le _) (by omega)
    refine ⟨hsame, fun b e hb => ?_⟩
    obtain ⟨hclosed', hle'⟩ := hnext hb
    exact ⟨hclosed', by omega⟩

theorem bind {k l : α → Parser β} (h : SameBelow need m step p q)
    (hk : ∀ a, SameBelow 0 m 0 (k a) (l a)) : SameBelow need m step (p >>= k) (q >>= l) :=
  h.bind_of hk (Nat.le_add_right ..)

/-- After a token has been taken, what is known one token less far is enough. -/
theorem bind_after {k l : α → Parser β} (h : SameBelow need (m + 1) 1 p q)
    (hk : ∀ a, SameBelow 0 m 0 (k a) (l a)) : SameBelow need (m + 1) 1 (p >>= k) (q >>= l) :=
  h.bind_of hk (Nat.le_refl _)

/-- Parsers that look at the cursor before they read. -/
theorem get {k l : Cursor → Parser β} (h : ∀ c, SameBelow need m step (k c) (l c)) :
    SameBelow need m step (get >>= k) (get >>= l) :=
  fun c hc hready hless => h c hc hready hless

theorem map {f : α → β} (h : SameBelow need m step p q) :
    SameBelow need m step (f <$> p) (f <$> q) := by
  rw [map_eq_pure_bind, map_eq_pure_bind]
  exact h.bind fun a => same_pure m (f a)

end Sequence

/-! ## Pieces and nodes -/

section Pieces

variable {need m step step' : Nat} {p p' q q' : Piece}

theorem append (hp : SameBelow need m step p p') (hq : SameBelow 0 m step' q q') :
    SameBelow need m step (p ++ q) (p' ++ q') :=
  hp.bind fun _ => hq.stay.bind fun _ => same_pure m _

/-- A piece behind one that takes a token. -/
theorem follow (hp : SameBelow need (m + 1) 1 p p') (hq : SameBelow 0 m step' q q') :
    SameBelow need (m + 1) 1 (p ++ q) (p' ++ q') :=
  hp.bind_after fun _ => hq.stay.bind fun _ => same_pure m _

/-- A piece that takes a token, behind one that may take none. -/
theorem reach (hp : SameBelow need m step p p') (hq : SameBelow 0 m 1 q q') :
    SameBelow need m 1 (p ++ q) (p' ++ q') :=
  (hp.bind_of (fun _ => hq.bind fun _ => same_pure m _) (Nat.le_add_right ..)).mono
    (Nat.le_refl _) (Nat.le_refl _) (Nat.le_add_left ..)

/-- Parts that were read before, in front of a piece. -/
theorem given_append (hq : SameBelow need m step q q') (parts : List Element) :
    SameBelow need m step (given parts ++ q) (given parts ++ q') := by
  have hmore : SameBelow need m step (q >>= fun more => pure (parts ++ more))
      (q' >>= fun more => pure (parts ++ more)) := hq.bind fun _ => same_pure m _
  exact hmore

theorem one {r r' : Parser Node} (h : SameBelow need m step r r') :
    SameBelow need m step (one r) (one r') :=
  h.bind fun _ => same_pure m _

theorem build {kind : Kind} (h : SameBelow need m step p p') :
    SameBelow need m 0 (build kind p) (build kind p') :=
  h.stay.bind fun _ => same_pure m _

end Pieces

/-! ## Choice -/

section Choice

variable {need need' m step step' : Nat} {test test' : Cursor → Bool} {p p' q q' : Parser α}

/-- A choice by two tests that tell the same. The first one supplies the tokens that are needed
    where it holds. -/
theorem choose (htest : SameTest m test test') (hneeds : Cursor.Needs test' need')
    (hp : SameBelow need' m step p p') (hq : SameBelow need m 0 q q') :
    SameBelow need m 0 (fun c => if test c then p c else q c)
      (fun c => if test' c then p' c else q' c) := by
  intro c hc hready hless
  simp only [htest hc hless]
  by_cases hholds : test' c = true
  · simp only [if_pos hholds]
    exact hp.stay hc (hneeds hc hholds) hless
  · simp only [if_neg hholds]
    exact hq hc hready hless

theorem ite (hneeds : Cursor.Needs test need') (hp : SameBelow need' m step p p')
    (hq : SameBelow need m 0 q q') :
    SameBelow need m 0 (fun c => if test c then p c else q c)
      (fun c => if test c then p' c else q' c) :=
  choose (sameTest_refl m test) hneeds hp hq

theorem ifAt (hp : SameBelow need' m step p p') (hneeds : Cursor.Needs test need')
    (hq : SameBelow need m step' q q') :
    SameBelow need m 0 (Parser.ifAt test p q) (Parser.ifAt test p' q') :=
  ite hneeds hp hq.stay

theorem whenAt {p p' : Piece} (hp : SameBelow need' m step p p')
    (hneeds : Cursor.Needs test need') :
    SameBelow 0 m 0 (Parser.whenAt test p) (Parser.whenAt test p') :=
  hp.ifAt hneeds (same_given m [])

theorem orElse (hp : SameBelow need m step p p') (hq : SameBelow need m step' q q') :
    SameBelow need m 0 (Parser.orElse p q) (Parser.orElse p' q') := by
  intro c hc hready hless
  obtain ⟨heq, hrest⟩ := hp.stay hc hready hless
  obtain ⟨heq', hrest'⟩ := hq.stay hc hready hless
  rw [Parser.orElse, Parser.orElse, heq]
  cases hresult : p' c with
  | error e => exact ⟨heq', hrest'⟩
  | ok result => exact ⟨rfl, fun _ _ h => hrest (hresult.trans h)⟩

theorem recover (hp : SameBelow need m step p p') (hq : SameBelow need m step' q q') :
    SameBelow need m 0 (Parser.recover p q) (Parser.recover p' q') := by
  intro c hc hready hless
  obtain ⟨heq, hrest⟩ := hp.stay hc hready hless
  obtain ⟨heq', hrest'⟩ := hq.stay hc hready hless
  rw [Parser.recover, Parser.recover, heq, heq']
  cases hresult : p' c with
  | ok result => exact ⟨rfl, fun _ _ h => hrest (hresult.trans h)⟩
  | error e =>
    cases hresult' : q' c with
    | ok result => exact ⟨rfl, fun _ _ h => hrest' (hresult'.trans h)⟩
    | error e' => exact ⟨rfl, fun _ _ h => by cases h⟩

theorem followedBy {what : String} (hp : SameBelow need m step p p') :
    SameBelow need m step (p.followedBy test what) (p'.followedBy test what) :=
  hp.bind fun _ => (same_check m test what).bind fun _ => same_pure m _

/-- Where a parser leads is told the same by parsers that are the same. -/
theorem leadsTo (hp : SameBelow 0 m step p p') :
    SameTest m (p.leadsTo test) (p'.leadsTo test) := by
  intro c hc hless
  rw [Parser.leadsTo, Parser.leadsTo, (hp hc (Nat.zero_le _) hless).1]

end Choice

/-! ## Repetition -/

section Repetition

variable {need m step : Nat} {test : Cursor → Bool} {p p' : Piece}

theorem rounds (hp : SameBelow need m step p p') (hneeds : Cursor.Needs test need) (bound : Nat) :
    SameBelow 0 m 0 (rounds test p bound) (rounds test p' bound) := by
  induction bound with
  | zero => exact same_given m []
  | succ bound ih => exact ite hneeds (hp.append ih) (same_given m [])

theorem bounded {p p' : Nat → Parser α} {need m step : Nat}
    (h : ∀ bound, SameBelow need m step (p bound) (p' bound)) :
    SameBelow need m step (fun c => p (c.ahead.length + 1) c) (fun c => p' (c.ahead.length + 1) c) :=
  fun c hc hready hless => h (c.ahead.length + 1) hc hready hless

theorem repeatWhile (hp : SameBelow need m step p p') (hneeds : Cursor.Needs test need) :
    SameBelow 0 m 0 (repeatWhile test p) (repeatWhile test p') :=
  bounded (hp.rounds hneeds)

theorem commaList (hp : SameBelow 0 m step p p') :
    SameBelow 0 m step (commaList p) (commaList p') :=
  hp.append (((same_token m).append hp).repeatWhile (Cursor.needs_sees ","))

theorem itemsBefore (hp : SameBelow 0 m step p p') (close : String) (bound : Nat) :
    SameBelow 0 m 0 (itemsBefore close p bound) (itemsBefore close p' bound) := by
  induction bound with
  | zero => exact same_given m []
  | succ bound ih =>
    have hmore := ((same_token m).append ih).whenAt (Cursor.needs_sees ",")
    exact ite (Cursor.needs_zero _) (same_given m []) (hp.append hmore).stay

theorem openList (hp : SameBelow 0 m step p p') (close : String) :
    SameBelow 0 m 0 (openList close p) (openList close p') :=
  bounded (hp.itemsBefore close)

/-- What stands in brackets is entered after a token. -/
theorem bracketed (hp : SameBelow 0 m step p p') (opening close : String) :
    SameBelow 0 (m + 1) 1 (bracketed opening close p) (bracketed opening close p') :=
  ((same_mark (m + 1) opening).follow (hp.commaList.whenAt (Cursor.needs_zero _))).append
    (same_mark (m + 1) close)

end Repetition

end SameBelow

/-! ## Extensions -/

/-- What goes on after a first part at a cursor is the same: nothing, or the same kind of whole with
    the same rest. -/
inductive SameRest (m : Nat) (c : Cursor) :
    Option (Kind × Piece) → Option (Kind × Piece) → Prop where
  | none : SameRest m c none none
  | some {need step : Nat} {kind : Kind} {p q : Piece} (ready : need ≤ c.ahead.length)
      (rest : SameBelow need m step p q) : SameRest m c (some (kind, p)) (some (kind, q))

/-- Extensions that are the same at cursors with fewer than `m` tokens ahead. -/
def SameExtensionBelow (m : Nat) (next next' : Extension) : Prop :=
  ∀ ⦃c⦄, c.Closed → c.ahead.length < m → SameRest m c (next c) (next' c)

theorem sameExtension_none (m : Nat) : SameExtensionBelow m (fun _ => none) fun _ => none :=
  fun _ _ _ => .none

/-- A choice between an extension and others. -/
theorem sameExtension_ite {need m step : Nat} {test : Cursor → Bool} {p q : Piece}
    (hneeds : Cursor.Needs test need) (h : SameBelow need m step p q) {kind : Kind}
    {next next' : Extension} (hnext : SameExtensionBelow m next next') :
    SameExtensionBelow m (fun c => if test c then some (kind, p) else next c)
      (fun c => if test c then some (kind, q) else next' c) := by
  intro c hc hless
  by_cases hholds : test c = true
  · simp only [if_pos hholds]
    exact .some (hneeds hc hholds) h
  · simp only [if_neg hholds]
    exact hnext hc hless

namespace SameExtensionBelow

variable {m step : Nat} {next next' : Extension} {first first' : Parser Node}

theorem extend (h : SameExtensionBelow m next next') (left : Node) :
    SameBelow 0 m 0 (extend next left) (extend next' left) := by
  intro c hc _ hless
  have hnext := h hc hless
  rw [Parser.extend, Parser.extend]
  generalize next c = x at hnext
  generalize next' c = y at hnext
  cases hnext with
  | none => exact same_pure m none hc (Nat.zero_le _) hless
  | @some need step kind p q ready rest =>
    have hbuild : SameBelow need m 0 (build kind (given [.node left] ++ p))
        (build kind (given [.node left] ++ q)) := (rest.given_append _).build
    exact (hbuild.bind fun whole => same_pure m (some whole)) hc ready hless

theorem growths (h : SameExtensionBelow m next next') (bound : Nat) (left : Node) :
    SameBelow 0 m 0 (growths next bound left) (growths next' bound left) := by
  induction bound generalizing left with
  | zero => exact same_pure m left
  | succ bound ih =>
    refine (h.extend left).bind fun result => ?_
    cases result with
    | none => exact same_pure m left
    | some whole => exact ih whole

theorem grow (h : SameExtensionBelow m next next') (hfirst : SameBelow 0 m step first first') :
    SameBelow 0 m step (grow next first) (grow next' first') :=
  hfirst.bind fun left => SameBelow.get fun c => h.growths (c.ahead.length + 1) left

theorem growOnce (h : SameExtensionBelow m next next') (hfirst : SameBelow 0 m step first first') :
    SameBelow 0 m step (growOnce next first) (growOnce next' first') :=
  hfirst.bind fun left => (h.extend left).bind fun result => same_pure m (result.getD left)

end SameExtensionBelow

end Recast.Parser
