-- SUMMARY: What a parser reads of a passage in one place it reads of it in another: the calculus of the grammar's combinators.
import Recast.Proofs.Grammar.Looping
import Recast.Proofs.Grammar.Passages

/-! # Reading a passage in two places

What a parser reads of a passage in front of some tokens, it reads of it in front of other ones, as
long as it stays within the passage (`Echoes`). A statement or a member may be the whole of a passage
(`Finishes`): then what stands behind it must not go on with it. -/

namespace Recast.Parser

open Recast.Grammar

variable {α β : Type} {l r : Cursor}

/-! ## The same reading in two places -/

/-- What `p` reads of a passage in front of `l`, `q` reads of it in front of `r`, with fewer than `m`
    tokens ahead. `plain` is asked of what is read, `moves` says that it is more than nothing, and
    with `last` it may be all of the passage. -/
structure Echoes (l r : Cursor) (plain : α → Prop) (last : Bool) (m : Nat) (moves : Bool)
    (p q : Parser α) : Prop where
  onward : Onward p
  echo : ∀ ⦃ts us a⦄, Passage l ts → (l.facing ts).ahead.length < m →
    p (l.facing ts) = .ok (a, l.facing us) → plain a → (us = [] → last = true) →
      q (r.facing ts) = .ok (a, r.facing us) ∧ (moves = true → us.length < ts.length)

/-- A parser that does not accept the end of a passage. -/
def Hungry (l : Cursor) (p : Parser α) : Prop :=
  ∀ a, p l ≠ .ok (a, l)

/-- What `p` makes of the end of a passage, `q` makes of it. -/
def Idle (l r : Cursor) (p q : Parser α) : Prop :=
  ∀ a, p l = .ok (a, l) → q r = .ok (a, r)

theorem Takes.hungry {w k : Nat} {p : Piece} (hp : Takes 0 w k p) (hw : 1 ≤ w) (hl : l.Closed) :
    Hungry l p := by
  intro parts h
  obtain ⟨hreads, hweight, -⟩ := hp hl (Nat.zero_le _) h
  exact absurd (hreads.shorter (Nat.le_trans hw hweight)) (Nat.lt_irrefl _)

theorem Makes.hungry {w k : Nat} {p : Parser Node} (hp : Makes 0 w k p) (hw : 1 ≤ w)
    (hl : l.Closed) : Hungry l p := by
  intro n h
  obtain ⟨hreads, hweight, -⟩ := hp hl (Nat.zero_le _) h
  exact absurd (hreads.shorter (by simpa using Nat.le_trans hw hweight)) (Nat.lt_irrefl _)

theorem idle_whenAt {test : Cursor → Bool} {p q : Piece} (hl : test l = false)
    (hr : test r = false) : Idle l r (whenAt test p) (whenAt test q) := by
  intro parts h
  rw [whenAt, ifAt, if_neg (Bool.eq_false_iff.1 hl)] at h
  rw [whenAt, ifAt, if_neg (Bool.eq_false_iff.1 hr)]
  obtain ⟨rfl, -⟩ := Prod.mk.inj (Except.ok.inj h)
  rfl

theorem idle_repeatWhile {test : Cursor → Bool} {p q : Piece} (hl : test l = false)
    (hr : test r = false) : Idle l r (repeatWhile test p) (repeatWhile test q) := by
  intro parts h
  simp only [repeatWhile, rounds, hl, hr, Bool.false_eq_true, if_false] at h ⊢
  obtain ⟨rfl, -⟩ := Prod.mk.inj (Except.ok.inj h)
  rfl

/-! ## Tokens -/

section Tokens

variable {plain : α → Prop} {last moves : Bool} {m : Nat}

theorem echoes_fail (what : String) : Echoes l r plain last m moves (fail what) (fail what) :=
  ⟨onward_fail what, fun _ _ _ _ _ h => nomatch h⟩

theorem echoes_pure (a : α) : Echoes l r plain last m false (pure a) (pure a) where
  onward := onward_pure a
  echo ts us b _ _ h _ _ := by
    obtain ⟨rfl, hts⟩ := Prod.mk.inj (Except.ok.inj h)
    obtain rfl := Cursor.facing_inj hts
    exact ⟨rfl, fun h => nomatch h⟩

variable {plain : List Element → Prop}

theorem echoes_given (parts : List Element) :
    Echoes l r plain last m false (given parts) (given parts) :=
  echoes_pure parts

theorem echoes_token (l r : Cursor) (m : Nat) : Echoes l r plain last m true token token where
  onward := onward_token
  echo ts us parts hts _ h _ _ := by
    obtain ⟨t, ts, rfl⟩ := List.exists_cons_of_ne_nil hts.ne_nil
    obtain ⟨rfl, hus⟩ := Prod.mk.inj (Except.ok.inj h)
    obtain rfl : ts = us := Cursor.facing_inj hus
    exact ⟨rfl, fun _ => Nat.lt_succ_self _⟩

/-- A piece that is only read where a test of the next token holds. -/
theorem Echoes.where_ {p q : Piece} {test : Cursor → Bool} {e e' : Cursor → ParseError}
    (hp : Echoes l r plain last m moves p q) (htest : Cursor.Alike l r test) :
    Echoes l r plain last m moves (fun c => if test c then p c else .error (e c))
      (fun c => if test c then q c else .error (e' c)) where
  onward := hp.onward.ite fun _ _ _ h => nomatch h
  echo ts us parts hts hm h hplain hlast := by
    rw [← htest hts]
    split at h
    · rename_i hholds
      rw [if_pos hholds]
      exact hp.echo hts hm h hplain hlast
    · cases h

theorem echoes_mark (text : String) : Echoes l r plain last m true (mark text) (mark text) :=
  (echoes_token l r m).where_ (Cursor.alike_sees text)

theorem echoes_name : Echoes l r plain last m true name name :=
  (echoes_token l r m).where_ Cursor.alike_atName

theorem echoes_check {test : Cursor → Bool} (htest : Cursor.Alike l r test) (what : String) :
    Echoes l r plain last m false (check test what) (check test what) :=
  (echoes_given []).where_ htest

end Tokens

/-- A choice by what is seen from the cursor. -/
theorem get_ite_eq {test : Cursor → Bool} (p : Parser α) (k : Cursor → Parser α) :
    (get >>= fun c => if test c then p else k c) = fun c => if test c then p c else k c c := by
  funext c
  show (if test c then p else k c) c = _
  split <;> rfl

namespace Echoes

/-! ## Sequence -/

section Sequence

variable {plain : α → Prop} {plain' : β → Prop} {last last' moves moves' : Bool} {m m' : Nat}
  {p q : Parser α}

/-- What is known of more than is asked. -/
theorem mono (h : Echoes l r plain last m moves p q) (hm : m' ≤ m)
    (hlast : last' = true → last = true) (hmoves : moves' = true → moves = true) :
    Echoes l r plain last' m' moves' p q where
  onward := h.onward
  echo ts us a hts hless hread hplain hend := by
    obtain ⟨hq, hshorter⟩ := h.echo hts (Nat.lt_of_lt_of_le hless hm) hread hplain (hlast ∘ hend)
    exact ⟨hq, hshorter ∘ hmoves⟩

theorem lower (h : Echoes l r plain last (m + 1) moves p q) : Echoes l r plain last m moves p q :=
  h.mono (Nat.le_succ m) id id

theorem stay (h : Echoes l r plain last m moves p q) : Echoes l r plain last m false p q :=
  h.mono (Nat.le_refl m) id nofun

/-- What leaves something of the passage. -/
theorem within (h : Echoes l r plain last m moves p q) : Echoes l r plain false m moves p q :=
  h.mono (Nat.le_refl m) nofun id

/-- One parser after another. Where the first one leaves something of the passage, the second one
    has it to read; where it does not, the second one finds the end. -/
theorem bind_of {k k' : α → Parser β} (hp : Echoes l r plain last' m moves p q)
    (hk : ∀ a, Echoes l r plain' last m' moves' (k a) (k' a)) (hm : m ≤ m' + moves.toNat)
    (hplain : ∀ ⦃c a d b e⦄, p c = .ok (a, d) → k a d = .ok (b, e) → plain' b → plain a)
    (hend : last = true → ∀ a, Hungry l (k a) ∨
      (last' = true ∧ Idle l r (k a) (k' a) ∧ moves' = false)) :
    Echoes l r plain' last m (moves || moves') (p >>= k) (q >>= k') where
  onward := hp.onward.bind fun a => (hk a).onward
  echo ts us b hts hless h hb hlast := by
    obtain ⟨a, d, ha, hread⟩ := bind_eq_ok h
    obtain ⟨ws, rfl⟩ := (hk a).onward hread
    rw [Cursor.facing_facing] at ha hread
    obtain ⟨vs, rfl⟩ := hp.onward.split ha
    generalize hleft : ws ++ us = xs at ha hread hts hless ⊢
    by_cases hxs : xs = []
    · -- The first parser has read all of the passage.
      subst hxs
      obtain ⟨rfl, rfl⟩ := List.append_eq_nil_iff.1 hleft
      rcases hend (hlast rfl) a with hhungry | ⟨hlast', hidle, rfl⟩
      · exact absurd hread (hhungry b)
      · obtain ⟨hq, hshorter⟩ := hp.echo hts hless ha (hplain ha hread hb) fun _ => hlast'
        exact ⟨bind_eq hq (hidle b hread), fun hmoves => hshorter (by simpa using hmoves)⟩
    · obtain ⟨hq, hshorter⟩ := hp.echo hts hless ha (hplain ha hread hb) fun h => absurd h hxs
      have hle : xs.length + moves.toNat ≤ (vs ++ xs).length := by
        cases moves with
        | false => simp
        | true => exact hshorter rfl
      obtain ⟨hq', hshorter'⟩ := (hk a).echo (hts.suffix (List.suffix_append vs xs) hxs)
        (by simp only [Cursor.ahead_facing, List.length_append] at hless hle ⊢; omega) hread hb hlast
      refine ⟨bind_eq hq hq', fun hmoves => ?_⟩
      have hus : us.length ≤ xs.length := by simp [← hleft]
      cases moves with
      | false => exact Nat.lt_of_lt_of_le (hshorter' (by simpa using hmoves)) (by simp)
      | true => exact Nat.lt_of_le_of_lt hus (hshorter rfl)

end Sequence

section Binds

variable {plain : β → Prop} {last moves moves' : Bool} {m : Nat} {p q : Parser α}
  {k k' : α → Parser β}

/-- A parser after one whose result does not matter. -/
theorem bind (hp : Echoes l r (fun _ => True) false m moves p q)
    (hk : ∀ a, Echoes l r plain false m moves' (k a) (k' a)) :
    Echoes l r plain false m (moves || moves') (p >>= k) (q >>= k') :=
  hp.bind_of hk (Nat.le_add_right ..) (fun _ _ _ _ _ _ _ _ => trivial) nofun

/-- A parser after one that is held in what it reads. -/
theorem bind_holding {plain' : α → Prop} (hp : Echoes l r plain' false m moves p q)
    (hk : ∀ a, Echoes l r plain false m moves' (k a) (k' a))
    (hplain : ∀ ⦃c a d b e⦄, p c = .ok (a, d) → k a d = .ok (b, e) → plain b → plain' a) :
    Echoes l r plain false m (moves || moves') (p >>= k) (q >>= k') :=
  hp.bind_of hk (Nat.le_add_right ..) hplain nofun

/-- A parser after one that takes a token. -/
theorem bind_after (hp : Echoes l r (fun _ => True) false (m + 1) true p q)
    (hk : ∀ a, Echoes l r plain false m false (k a) (k' a)) :
    Echoes l r plain false (m + 1) true (p >>= k) (q >>= k') :=
  hp.bind_of hk (Nat.le_refl _) (fun _ _ _ _ _ _ _ _ => trivial) nofun

/-- A parser that is chosen by what is seen the same in both places. -/
theorem view {γ : Type} {plain : α → Prop} {g h : Grammar} {f : Cursor → γ}
    {k : Grammar → γ → Parser α}
    (hf : ∀ ⦃ts⦄, Passage l ts → f (l.facing ts) = f (r.facing ts))
    (hk : ∀ x, Echoes l r plain last m moves (k g x) (k h x)) :
    Echoes l r plain last m moves (fun c => k g (f c) c) fun c => k h (f c) c where
  onward c _ _ hread := (hk (f c)).onward hread
  echo ts us a hts hless hread hplain hlast := by
    obtain ⟨hq, hshorter⟩ := (hk (f (l.facing ts))).echo hts hless hread hplain hlast
    rw [← hf hts]
    exact ⟨hq, hshorter⟩

end Binds

/-! ## Pieces and nodes -/

section Pieces

variable {last last' moves moves' : Bool} {m m' : Nat} {p p' q q' : Piece}

/-- What is made of the result of a parser. -/
theorem then_pure {plain : α → Prop} {plain' : β → Prop} {p q : Parser α} (f : α → β)
    (hp : Echoes l r plain last m moves p q) (hplain : ∀ a, plain' (f a) → plain a) :
    Echoes l r plain' last m moves (p >>= fun a => pure (f a)) (q >>= fun a => pure (f a)) := by
  have hbind := hp.bind_of (fun a => echoes_pure (f a)) (Nat.le_add_right ..)
    (fun c a d b e _ hb hknown => hplain a (by
      obtain ⟨rfl, -⟩ := Prod.mk.inj (Except.ok.inj hb)
      exact hknown))
    (fun hlast a => .inr ⟨hlast, fun b hb => by
      obtain ⟨rfl, -⟩ := Prod.mk.inj (Except.ok.inj hb)
      rfl, rfl⟩)
  rwa [Bool.or_false] at hbind

theorem append_of (hp : Echoes l r Element.KnownIn last' m moves p p')
    (hq : Echoes l r Element.KnownIn last m' moves' q q') (hm : m ≤ m' + moves.toNat)
    (hend : last = true → Hungry l q ∨ (last' = true ∧ Idle l r q q' ∧ moves' = false)) :
    Echoes l r Element.KnownIn last m (moves || moves') (p ++ q) (p' ++ q') := by
  refine hp.bind_of (fun xs => hq.then_pure (xs ++ ·) fun ys h => (Element.knownIn_append.1 h).2) hm
    ?_ ?_
  · intro c xs d parts e _ h hknown
    obtain ⟨ys, e', -, h⟩ := bind_eq_ok h
    obtain ⟨rfl, -⟩ := Prod.mk.inj (Except.ok.inj h)
    exact (Element.knownIn_append.1 hknown).1
  · intro hlast xs
    rcases hend hlast with hhungry | ⟨hlast', hidle, hmoves⟩
    · refine .inl fun parts h => ?_
      obtain ⟨ys, e, hys, h⟩ := bind_eq_ok h
      obtain ⟨-, rfl⟩ := Prod.mk.inj (Except.ok.inj h)
      exact hhungry ys hys
    · refine .inr ⟨hlast', fun parts h => ?_, hmoves⟩
      obtain ⟨ys, e, hys, h⟩ := bind_eq_ok h
      obtain ⟨rfl, rfl⟩ := Prod.mk.inj (Except.ok.inj h)
      exact bind_eq (hidle ys hys) rfl

/-- Pieces one after the other, which leave something of the passage. -/
theorem append (hp : Echoes l r Element.KnownIn false m moves p p')
    (hq : Echoes l r Element.KnownIn false m moves' q q') :
    Echoes l r Element.KnownIn false m (moves || moves') (p ++ q) (p' ++ q') :=
  hp.append_of hq (Nat.le_add_right ..) nofun

/-- A piece behind one that takes a token. -/
theorem follow (hp : Echoes l r Element.KnownIn false (m + 1) true p p')
    (hq : Echoes l r Element.KnownIn false m moves' q q') :
    Echoes l r Element.KnownIn false (m + 1) true (p ++ q) (p' ++ q') :=
  hp.append_of hq (Nat.le_refl _) nofun

/-- A piece that may find nothing left of the passage, and reads nothing then. -/
theorem append_idle (hp : Echoes l r Element.KnownIn last m moves p p')
    (hq : Echoes l r Element.KnownIn last m moves' q q') (hidle : last = true → Idle l r q q') :
    Echoes l r Element.KnownIn last m moves (p ++ q) (p' ++ q') := by
  have happend := hp.append_of hq.stay (Nat.le_add_right ..) fun hlast =>
    .inr ⟨hlast, hidle hlast, rfl⟩
  rwa [Bool.or_false] at happend

/-- Parts that were read before, in front of a piece. -/
theorem given_append (hq : Echoes l r Element.KnownIn last m moves q q') (parts : List Element) :
    Echoes l r Element.KnownIn last m moves (given parts ++ q) (given parts ++ q') :=
  hq.then_pure (parts ++ ·) fun _ h => (Element.knownIn_append.1 h).2

theorem one {s s' : Parser Node} (h : Echoes l r Node.Known last m moves s s') :
    Echoes l r Element.KnownIn last m moves (one s) (one s') :=
  h.then_pure (fun n => [Element.node n]) fun _ h => Element.knownIn_single.1 h

theorem build {kind : Kind} (h : Echoes l r Element.KnownIn last m moves p p') :
    Echoes l r Node.Known last m moves (build kind p) (build kind p') :=
  h.then_pure (Node.ofChildren kind) fun _ h => h.parts

end Pieces

/-! ## Choice -/

section Choice

variable {plain : α → Prop} {last moves moves' : Bool} {m : Nat} {test test' : Cursor → Bool}
  {p p' q q' : Parser α}

/-- A choice by two tests that tell the same of a passage. -/
theorem choose
    (htest : ∀ ⦃ts⦄, Passage l ts → (l.facing ts).ahead.length < m →
      test (l.facing ts) = test' (r.facing ts))
    (hp : Echoes l r plain last m moves p p') (hq : Echoes l r plain last m moves q q') :
    Echoes l r plain last m moves (fun c => if test c then p c else q c)
      (fun c => if test' c then p' c else q' c) where
  onward := hp.onward.ite hq.onward
  echo ts us a hts hless h hplain hlast := by
    rw [← htest hts hless]
    split at h
    · rename_i hholds
      obtain ⟨hp', hshorter⟩ := hp.echo hts hless h hplain hlast
      exact ⟨(if_pos hholds).trans hp', hshorter⟩
    · rename_i hholds
      obtain ⟨hq', hshorter⟩ := hq.echo hts hless h hplain hlast
      exact ⟨(if_neg hholds).trans hq', hshorter⟩

theorem ite (htest : Cursor.Alike l r test) (hp : Echoes l r plain last m moves p p')
    (hq : Echoes l r plain last m moves q q') :
    Echoes l r plain last m moves (fun c => if test c then p c else q c)
      (fun c => if test c then p' c else q' c) :=
  choose (fun _ hts _ => htest hts) hp hq

theorem get_const (h : Echoes l r plain last m moves p q) :
    Echoes l r plain last m moves (get >>= fun _ => p) (get >>= fun _ => q) :=
  h

theorem get_ite {k k' : Cursor → Parser α} (htest : Cursor.Alike l r test)
    (hp : Echoes l r plain last m moves p p')
    (hk : Echoes l r plain last m moves (get >>= k) (get >>= k')) :
    Echoes l r plain last m moves (get >>= fun c => if test c then p else k c)
      (get >>= fun c => if test c then p' else k' c) := by
  rw [get_ite_eq, get_ite_eq]
  exact ite htest hp hk

/-- A choice behind another one as a choice by both tests. -/
theorem ite_both_eq (p q s : Parser α) :
    (fun c => if test c then (if test' c then p c else q c) else s c) =
      fun c => if test c && test' c then p c else if test c then q c else s c := by
  funext c
  cases test c <;> cases test' c <;> rfl

/-- A choice where a test holds that is only told the same behind another one. -/
theorem ite_both {s s' : Parser α} (htest : Cursor.Alike l r test)
    (hboth : Cursor.Alike l r fun c => test c && test' c) (hp : Echoes l r plain last m moves p p')
    (hq : Echoes l r plain last m moves q q') (hs : Echoes l r plain last m moves s s') :
    Echoes l r plain last m moves
      (fun c => if test c then (if test' c then p c else q c) else s c)
      (fun c => if test c then (if test' c then p' c else q' c) else s' c) := by
  rw [ite_both_eq, ite_both_eq]
  exact ite hboth hp (ite htest hq hs)

theorem ifAt (hp : Echoes l r plain last m moves p p') (htest : Cursor.Alike l r test)
    (hq : Echoes l r plain last m moves q q') :
    Echoes l r plain last m moves (Parser.ifAt test p q) (Parser.ifAt test p' q') :=
  ite htest hp hq

theorem whenAt {p p' : Piece} (hp : Echoes l r Element.KnownIn last m moves p p')
    (htest : Cursor.Alike l r test) :
    Echoes l r Element.KnownIn last m false (Parser.whenAt test p) (Parser.whenAt test p') :=
  hp.stay.ifAt htest (echoes_given [])

end Choice

/-! ## Repetition -/

section Repetition

variable {last moves : Bool} {m : Nat} {test : Cursor → Bool} {p q : Piece}

theorem onward_rounds (hp : Onward p) (bound : Nat) : Onward (rounds test p bound) := by
  induction bound with
  | zero => exact onward_pure []
  | succ bound ih =>
    exact Onward.ite (hp.bind fun _ => ih.bind fun _ => onward_pure _) (onward_pure [])

/-- The bounds differ as the tokens behind the passage do; but no round takes none of it. -/
theorem echo_rounds (hp : Echoes l r Element.KnownIn last m true p q)
    (htest : Cursor.Alike l r test) (hend : last = true → test l = false ∧ test r = false)
    {bound bound' : Nat} {ts us : List Token} {parts : List Element} (hts : Passage l ts)
    (hless : (l.facing ts).ahead.length < m) (hbound : ts.length < bound)
    (hbound' : ts.length < bound') (h : rounds test p bound (l.facing ts) = .ok (parts, l.facing us))
    (hknown : Element.KnownIn parts) (hlast : us = [] → last = true) :
    rounds test q bound' (r.facing ts) = .ok (parts, r.facing us) := by
  induction bound generalizing ts bound' parts with
  | zero => omega
  | succ bound ih =>
    obtain ⟨bound', rfl⟩ : ∃ b, bound' = b + 1 := ⟨bound' - 1, by omega⟩
    simp only [rounds] at h ⊢
    rw [← htest hts]
    by_cases hholds : test (l.facing ts) = true
    · rw [if_pos hholds] at h ⊢
      obtain ⟨xs, d, ys, hxs, hys, rfl⟩ := append_eq_ok h
      obtain ⟨hxsKnown, hysKnown⟩ := Element.knownIn_append.1 hknown
      obtain ⟨vs, rfl⟩ := onward_rounds hp.onward bound hys
      rw [Cursor.facing_facing] at hxs hys
      generalize hleft : vs ++ us = ws at hxs hys
      obtain ⟨hq, hshorter⟩ := hp.echo hts hless hxs hxsKnown fun hws =>
        hlast (List.append_eq_nil_iff.1 (hleft.trans hws)).2
      have hws := hshorter rfl
      by_cases hnil : ws = []
      · -- The round has read the rest of the passage, and there is no other one behind it.
        subst hnil
        obtain ⟨rfl, rfl⟩ := List.append_eq_nil_iff.1 hleft
        obtain ⟨hl, hr⟩ := hend (hlast rfl)
        refine append_eq hq ?_
        cases bound with
        | zero => simp at hbound; simp [hbound] at hws
        | succ bound =>
          cases bound' with
          | zero => simp at hbound'; simp [hbound'] at hws
          | succ bound' =>
            simp only [rounds, Cursor.facing_nil, hl, hr, Bool.false_eq_true, if_false] at hys ⊢
            obtain ⟨rfl, -⟩ := Prod.mk.inj (Except.ok.inj hys)
            rfl
      · obtain ⟨zs, hzs⟩ := hp.onward.split hxs
        have hmore := hts.suffix ⟨zs, hzs.symm⟩ hnil
        refine append_eq hq (ih hmore ?_ (by omega) (by omega) hys hysKnown)
        simp only [Cursor.ahead_facing, List.length_append] at hless ⊢
        omega
    · rw [if_neg hholds] at h ⊢
      obtain ⟨rfl, hus⟩ := Prod.mk.inj (Except.ok.inj h)
      rw [Cursor.facing_inj hus]

theorem repeatWhile_of (hp : Echoes l r Element.KnownIn last m true p q)
    (htest : Cursor.Alike l r test) (hend : last = true → test l = false ∧ test r = false) :
    Echoes l r Element.KnownIn last m false (repeatWhile test p) (repeatWhile test q) where
  onward _ _ _ h := onward_rounds hp.onward _ h
  echo ts _ _ hts hless h hknown hlast :=
    ⟨hp.echo_rounds htest hend hts hless (Cursor.lt_ahead_facing l ts) (Cursor.lt_ahead_facing r ts) h
      hknown hlast, nofun⟩

theorem repeatWhile (hp : Echoes l r Element.KnownIn false m true p q)
    (htest : Cursor.Alike l r test) :
    Echoes l r Element.KnownIn false m false (repeatWhile test p) (repeatWhile test q) :=
  hp.repeatWhile_of htest nofun

/-- Where the test has to hold, there is a round. -/
theorem check_repeatWhile (hp : Echoes l r Element.KnownIn false m true p q)
    (htest : Cursor.Alike l r test) (what : String) :
    Echoes l r Element.KnownIn false m true (check test what ++ Parser.repeatWhile test p)
      (check test what ++ Parser.repeatWhile test q) := by
  have hloop := (echoes_check htest what).append (hp.repeatWhile htest)
  refine ⟨hloop.onward, fun ts us parts hts hless hread hknown hlast => ?_⟩
  refine ⟨(hloop.echo hts hless hread hknown hlast).1, fun _ => ?_⟩
  obtain ⟨xs, d, ys, hxs, hys, rfl⟩ := append_eq_ok hread
  obtain ⟨hholds, rfl, rfl⟩ := check_eq_ok hxs
  simp only [Parser.repeatWhile, rounds] at hys
  rw [if_pos hholds] at hys
  obtain ⟨zs, d, ws, hzs, hws, rfl⟩ := append_eq_ok hys
  obtain ⟨vs, rfl⟩ := onward_rounds hp.onward _ hws
  rw [Cursor.facing_facing] at hzs
  have hus : us ≠ [] := fun hnil => Bool.noConfusion (hlast hnil)
  obtain ⟨-, hshorter⟩ := hp.echo hts hless hzs
    (Element.knownIn_append.1 (Element.knownIn_append.1 hknown).2).1 fun hnil =>
      absurd (List.append_eq_nil_iff.1 hnil).2 hus
  have := hshorter rfl
  rw [List.length_append] at this
  omega

end Repetition

/-! ## Lists -/

section Lists

variable {moves : Bool} {m : Nat} {item item' : Piece}

theorem commaList (h : Echoes l r Element.KnownIn false m moves item item') :
    Echoes l r Element.KnownIn false m moves (commaList item) (commaList item') := by
  have hmore := ((echoes_token l r m).append h).repeatWhile
    (Cursor.alike_sees ",")
  have hlist := h.append hmore
  rwa [Bool.or_false] at hlist

theorem onward_itemsBefore {close : String} (h : Onward item) (bound : Nat) :
    Onward (itemsBefore close item bound) := by
  induction bound with
  | zero => exact onward_pure []
  | succ bound ih =>
    have hmore : Onward (Parser.whenAt (Cursor.sees ",") (token ++ itemsBefore close item bound)) :=
      Onward.ite (onward_token.bind fun _ => ih.bind fun _ => onward_pure _) (onward_pure [])
    exact Onward.ite (onward_pure []) (h.bind fun _ => hmore.bind fun _ => onward_pure _)

/-- Both lists end before their bounds, which differ. -/
theorem echo_itemsBefore (h : Echoes l r Element.KnownIn false m moves item item') {close : String}
    {bound bound' : Nat} {ts us : List Token} {parts : List Element} (hts : Passage l ts)
    (hless : (l.facing ts).ahead.length < m) (hbound : ts.length < bound)
    (hbound' : ts.length < bound')
    (hread : itemsBefore close item bound (l.facing ts) = .ok (parts, l.facing us))
    (hknown : Element.KnownIn parts) (hus : us ≠ []) :
    itemsBefore close item' bound' (r.facing ts) = .ok (parts, r.facing us) := by
  induction bound generalizing ts bound' parts with
  | zero => omega
  | succ bound ih =>
    obtain ⟨bound', rfl⟩ : ∃ b, bound' = b + 1 := ⟨bound' - 1, by omega⟩
    simp only [itemsBefore] at hread ⊢
    rw [← Cursor.alike_sees close hts]
    split at hread
    · rename_i hclose
      obtain ⟨rfl, hend⟩ := Prod.mk.inj (Except.ok.inj hread)
      rw [if_pos hclose, Cursor.facing_inj hend]
    rename_i hclose
    rw [if_neg hclose]
    obtain ⟨xs, d, ys, hxs, hys, rfl⟩ := append_eq_ok hread
    obtain ⟨hxsKnown, hysKnown⟩ := Element.knownIn_append.1 hknown
    have hmore : Onward (Parser.whenAt (Cursor.sees ",") (token ++ itemsBefore close item bound)) :=
      Onward.ite (onward_token.bind fun _ => (onward_itemsBefore h.onward bound).bind fun _ =>
        onward_pure _) (onward_pure [])
    obtain ⟨vs, rfl⟩ := hmore hys
    rw [Cursor.facing_facing] at hxs hys
    obtain ⟨zs, rfl⟩ := h.onward.split hxs
    have hleft : vs ++ us ≠ [] := by simp [hus]
    obtain ⟨hitem, -⟩ := h.echo hts hless hxs hxsKnown fun hnil => absurd hnil hleft
    have hrest := hts.suffix (List.suffix_append zs (vs ++ us)) hleft
    refine append_eq hitem ?_
    simp only [Parser.whenAt, Parser.ifAt] at hys ⊢
    rw [← Cursor.alike_sees "," hrest]
    split at hys
    · rename_i hcomma
      rw [if_pos hcomma]
      obtain ⟨t, ws, hws⟩ := List.exists_cons_of_ne_nil hleft
      rw [hws] at hys hrest hcomma ⊢
      obtain ⟨as, d, bs, htoken, hbs, rfl⟩ := append_eq_ok hys
      obtain ⟨rfl, rfl⟩ := Prod.mk.inj (Except.ok.inj htoken)
      have hsoft : t.stops = false := Cursor.soft_sees (by decide) hcomma
      simp only [hws, Cursor.ahead_facing, List.length_append, List.length_cons] 
        at hless hbound hbound'
      refine append_eq rfl (ih (hrest.tail hsoft) ?_ (by omega) (by omega) hbs
        (Element.knownIn_append.1 hysKnown).2)
      show (ws ++ l.ahead).length < m
      simp only [List.length_append]
      omega
    · rename_i hcomma
      rw [if_neg hcomma]
      obtain ⟨rfl, hend⟩ := Prod.mk.inj (Except.ok.inj hys)
      rw [Cursor.facing_inj hend]
      rfl

theorem openList (h : Echoes l r Element.KnownIn false m moves item item') (close : String) :
    Echoes l r Element.KnownIn false m false (openList close item) (openList close item') where
  onward _ _ _ hread := onward_itemsBefore h.onward _ hread
  echo ts _ _ hts hless hread hknown hlast :=
    ⟨h.echo_itemsBefore hts hless (Cursor.lt_ahead_facing l ts) (Cursor.lt_ahead_facing r ts)
      hread hknown fun hus => Bool.noConfusion (hlast hus), nofun⟩

theorem bracketed (h : Echoes l r Element.KnownIn false m moves item item') (opening close : String) :
    Echoes l r Element.KnownIn false (m + 1) true (bracketed opening close item)
      (bracketed opening close item') :=
  ((echoes_mark opening).follow
    (h.commaList.whenAt (Cursor.alike_sees close).not)).append
    (echoes_mark close)

end Lists

end Echoes

/-! ## Readers of whole passages -/

/-- A parser that may read all of a passage, and does not accept its end. -/
structure Finishes (l r : Cursor) (plain : α → Prop) (m : Nat) (p q : Parser α) : Prop where
  echoes : Echoes l r plain true m true p q
  hungry : Hungry l p

theorem finishes_mark (hl : l.Closed) {m : Nat} (text : String) :
    Finishes l r Element.KnownIn m (mark text) (mark text) :=
  ⟨echoes_mark text, (takes_mark text).hungry (by decide) hl⟩

theorem finishes_fail {plain : α → Prop} {m : Nat} (what : String) :
    Finishes l r plain m (fail what) (fail what) :=
  ⟨echoes_fail what, fun _ h => nomatch h⟩

section Hungers

variable {p : Parser α} {k : α → Parser β}

theorem Hungry.bind (hp : Onward p) (hk : ∀ a, Onward (k a)) (h : Hungry l p ∨ ∀ a, Hungry l (k a)) :
    Hungry l (p >>= k) := by
  intro b hread
  obtain ⟨a, d, ha, hb⟩ := bind_eq_ok hread
  obtain ⟨ts, rfl⟩ := hk a hb
  obtain ⟨us, hus⟩ := hp ha
  rw [Cursor.facing_facing] at hus
  have hnil : us ++ ts = [] := Cursor.facing_inj (hus.symm.trans (Cursor.facing_nil l).symm)
  obtain ⟨-, rfl⟩ := List.append_eq_nil_iff.1 hnil
  exact h.elim (fun h => h a ha) fun h => h a b hb

theorem Hungry.append {p q : Piece} (h : Hungry l q) (hp : Onward p) (hq : Onward q) :
    Hungry l (p ++ q) :=
  .bind hp (fun _ => hq.bind fun _ => onward_pure _)
    (.inr fun _ => .bind hq (fun _ => onward_pure _) (.inl h))

end Hungers

namespace Echoes

variable {plain : β → Prop} {moves : Bool} {m m' : Nat}

/-- A parser in front of the one that may read the rest of the passage. -/
theorem bind_ends {plain' : α → Prop} {p q : Parser α} {k k' : α → Parser β}
    (hp : Echoes l r plain' false m moves p q) (hk : ∀ a, Finishes l r plain m' (k a) (k' a))
    (hm : m ≤ m' + moves.toNat)
    (hplain : ∀ ⦃c a d b e⦄, p c = .ok (a, d) → k a d = .ok (b, e) → plain b → plain' a) :
    Finishes l r plain m (p >>= k) (q >>= k') := by
  have hbind := hp.bind_of (fun a => (hk a).echoes) hm hplain fun _ a => .inl (hk a).hungry
  rw [Bool.or_true] at hbind
  exact ⟨hbind, .bind hp.onward (fun a => (hk a).echoes.onward) (.inr fun a => (hk a).hungry)⟩

variable {p p' q q' : Piece}

theorem ends (hp : Echoes l r Element.KnownIn false m moves p p')
    (hq : Finishes l r Element.KnownIn m q q') :
    Finishes l r Element.KnownIn m (p ++ q) (p' ++ q') := by
  have happend : Echoes l r Element.KnownIn true m _ (p ++ q) (p' ++ q') :=
    hp.append_of hq.echoes (Nat.le_add_right ..) fun _ => .inl hq.hungry
  rw [Bool.or_true] at happend
  exact ⟨happend, hq.hungry.append hp.onward hq.echoes.onward⟩

theorem endsBelow (hp : Echoes l r Element.KnownIn false (m + 1) true p p')
    (hq : Finishes l r Element.KnownIn m q q') :
    Finishes l r Element.KnownIn (m + 1) (p ++ q) (p' ++ q') :=
  ⟨hp.append_of hq.echoes (Nat.le_refl _) fun _ => .inl hq.hungry,
    hq.hungry.append hp.onward hq.echoes.onward⟩

end Echoes

namespace Finishes

variable {m : Nat}

theorem within {plain : α → Prop} {p q : Parser α} (h : Finishes l r plain m p q) :
    Echoes l r plain false m true p q :=
  h.echoes.within

theorem choose {plain : α → Prop} {test test' : Cursor → Bool} {p p' q q' : Parser α}
    (htest : ∀ ⦃ts⦄, Passage l ts → (l.facing ts).ahead.length < m →
      test (l.facing ts) = test' (r.facing ts))
    (hp : Finishes l r plain m p p') (hq : Finishes l r plain m q q') :
    Finishes l r plain m (fun c => if test c then p c else q c)
      fun c => if test' c then p' c else q' c := by
  refine ⟨.choose htest hp.echoes hq.echoes, fun a h => ?_⟩
  split at h
  · exact hp.hungry a h
  · exact hq.hungry a h

theorem ite {plain : α → Prop} {test : Cursor → Bool} {p p' q q' : Parser α}
    (htest : Cursor.Alike l r test) (hp : Finishes l r plain m p p')
    (hq : Finishes l r plain m q q') : Finishes l r plain m (fun c => if test c then p c else q c)
      fun c => if test c then p' c else q' c :=
  choose (fun _ hts _ => htest hts) hp hq

/-- A choice where a test holds that is only told the same behind another one. -/
theorem ite_both {plain : α → Prop} {test test' : Cursor → Bool} {p p' q q' s s' : Parser α}
    (htest : Cursor.Alike l r test) (hboth : Cursor.Alike l r fun c => test c && test' c)
    (hp : Finishes l r plain m p p') (hq : Finishes l r plain m q q')
    (hs : Finishes l r plain m s s') :
    Finishes l r plain m (fun c => if test c then (if test' c then p c else q c) else s c)
      fun c => if test c then (if test' c then p' c else q' c) else s' c := by
  rw [Echoes.ite_both_eq, Echoes.ite_both_eq]
  exact ite hboth hp (ite htest hq hs)

/-- A parser that is chosen by what is seen the same in both places. -/
theorem view {γ : Type} {plain : α → Prop} {g h : Grammar} {f : Cursor → γ}
    {k : Grammar → γ → Parser α}
    (hf : ∀ ⦃ts⦄, Passage l ts → f (l.facing ts) = f (r.facing ts))
    (hk : ∀ x, Finishes l r plain m (k g x) (k h x)) :
    Finishes l r plain m (fun c => k g (f c) c) fun c => k h (f c) c :=
  ⟨.view hf fun x => (hk x).echoes, (hk (f l)).hungry⟩

theorem one {s s' : Parser Node} (h : Finishes l r Node.Known m s s') :
    Finishes l r Element.KnownIn m (one s) (one s') :=
  ⟨h.echoes.one, .bind h.echoes.onward (fun _ => onward_pure _) (.inl h.hungry)⟩

theorem build {kind : Kind} {p p' : Piece} (h : Finishes l r Element.KnownIn m p p') :
    Finishes l r Node.Known m (build kind p) (build kind p') :=
  ⟨h.echoes.build, .bind h.echoes.onward (fun _ => onward_pure _) (.inl h.hungry)⟩

/-- A piece that may find nothing left of the passage, and reads nothing then. -/
theorem append {p p' q q' : Piece} {moves : Bool} (hp : Finishes l r Element.KnownIn m p p')
    (hq : Echoes l r Element.KnownIn true m moves q q') (hidle : Idle l r q q') :
    Finishes l r Element.KnownIn m (p ++ q) (p' ++ q') :=
  ⟨hp.echoes.append_idle hq fun _ => hidle,
    .bind hp.echoes.onward (fun _ => hq.onward.bind fun _ => onward_pure _) (.inl hp.hungry)⟩

end Finishes

/-! ## Constructs that grow on their right -/

/-- What goes on after a first part is the same in both places: nothing, or what is read of the
    passage in the one place is read of it in the other. -/
inductive EchoesRest (l r : Cursor) (m : Nat) :
    Option (Kind × Piece) → Option (Kind × Piece) → Prop where
  | none : EchoesRest l r m none none
  | some {kind : Kind} {p q : Piece} (rest : Echoes l r Element.KnownIn false m true p q) :
      EchoesRest l r m (some (kind, p)) (some (kind, q))

section Growth

variable {next : Extension} (honward : ∀ ⦃c kind rest⦄, next c = some (kind, rest) → Onward rest)
include honward

theorem onward_extend (left : Node) : Onward (extend next left) := by
  intro c result d hread
  simp only [extend] at hread
  split at hread
  · obtain ⟨-, rfl⟩ := Prod.mk.inj (Except.ok.inj hread)
    exact ⟨[], rfl⟩
  · rename_i kind rest hkind
    have hbuild : Onward (build kind (given [.node left] ++ rest)) :=
      ((onward_pure _).append (honward hkind)).build
    exact (hbuild.bind fun _ => onward_pure _) hread

theorem onward_growths (bound : Nat) (left : Node) : Onward (growths next bound left) := by
  induction bound generalizing left with
  | zero => exact onward_pure left
  | succ bound ih =>
    refine (onward_extend honward left).bind fun result => ?_
    cases result with
    | none => exact onward_pure left
    | some whole => exact ih whole

theorem onward_grow {first : Parser Node} (hfirst : Onward first) : Onward (grow next first) :=
  hfirst.bind fun left c _ _ hread => onward_growths honward (c.ahead.length + 1) left hread

end Growth

structure EchoesNext (l r : Cursor) (m : Nat) (next next' : Extension) : Prop where
  onward : ∀ ⦃c kind rest⦄, next c = some (kind, rest) → Onward rest
  echo : ∀ ⦃ts⦄, Passage l ts → (l.facing ts).ahead.length < m →
    EchoesRest l r m (next (l.facing ts)) (next' (r.facing ts))

theorem echoesNext_none (l r : Cursor) (m : Nat) :
    EchoesNext l r m (fun _ => none) fun _ => none :=
  ⟨fun _ _ _ h => (nomatch h), fun _ _ _ => .none⟩

theorem echoesNext_ite {m : Nat} {test : Cursor → Bool} {kind : Kind} {p q : Piece}
    {next next' : Extension} (htest : Cursor.Alike l r test)
    (h : Echoes l r Element.KnownIn false m true p q) (hnext : EchoesNext l r m next next') :
    EchoesNext l r m (fun c => if test c then some (kind, p) else next c)
      (fun c => if test c then some (kind, q) else next' c) where
  onward c kind' rest hrest := by
    split at hrest
    · obtain ⟨-, rfl⟩ := Prod.mk.inj (Option.some.inj hrest)
      exact h.onward
    · exact hnext.onward hrest
  echo ts hts hless := by
    rw [← htest hts]
    split
    · exact .some h
    · exact hnext.echo hts hless

/-- What goes on, where that is told by what is seen the same in both places. -/
theorem echoesNext_view {γ : Type} {m : Nat} {g h : Grammar} {f : Cursor → γ}
    {k : Grammar → γ → Option (Kind × Piece)}
    (hf : ∀ ⦃ts⦄, Passage l ts → f (l.facing ts) = f (r.facing ts))
    (hk : ∀ c, EchoesRest l r m (k g (f c)) (k h (f c))) :
    EchoesNext l r m (fun c => k g (f c)) fun c => k h (f c) where
  onward c kind rest hrest := by
    have hsame := hk c
    rw [show k g (f c) = _ from hrest] at hsame
    generalize k h (f c) = y at hsame
    cases hsame with
    | some rest => exact rest.onward
  echo ts hts _ := by
    rw [← hf hts]
    exact hk _

namespace EchoesNext

variable {m : Nat} {moves : Bool} {next next' : Extension} {first first' : Parser Node}

/-- What was extended holds what it was extended from. -/
theorem known_of_extend {left : Node} {c d : Cursor} {result : Option Node}
    (hread : extend next left c = .ok (result, d)) (hknown : (result.getD left).Known) :
    left.Known := by
  simp only [extend] at hread
  split at hread
  · obtain ⟨rfl, -⟩ := Prod.mk.inj (Except.ok.inj hread)
    exact hknown
  · obtain ⟨whole, e, hwhole, hread⟩ := bind_eq_ok hread
    obtain ⟨rfl, -⟩ := Prod.mk.inj (Except.ok.inj hread)
    obtain ⟨parts, hparts, rfl⟩ := build_eq_ok hwhole
    obtain ⟨xs, e', ys, hxs, -, rfl⟩ := append_eq_ok hparts
    obtain ⟨rfl, -⟩ := Prod.mk.inj (Except.ok.inj hxs)
    exact Element.knownIn_single.1 (Element.knownIn_append.1 hknown.parts).1

theorem known_of_growths {bound : Nat} {left n : Node} {c d : Cursor}
    (hread : growths next bound left c = .ok (n, d)) (hknown : n.Known) : left.Known := by
  induction bound generalizing left c with
  | zero =>
    obtain ⟨rfl, -⟩ := Prod.mk.inj (Except.ok.inj hread)
    exact hknown
  | succ bound ih =>
    obtain ⟨result, e, hresult, hrest⟩ := bind_eq_ok hread
    refine known_of_extend hresult ?_
    cases result with
    | none =>
      obtain ⟨rfl, -⟩ := Prod.mk.inj (Except.ok.inj hrest)
      exact hknown
    | some whole => exact ih hrest

theorem echo_extend (h : EchoesNext l r m next next') (left : Node) {ts us : List Token}
    {result : Option Node} (hts : Passage l ts) (hless : (l.facing ts).ahead.length < m)
    (hread : extend next left (l.facing ts) = .ok (result, l.facing us))
    (hknown : (result.getD left).Known) (hus : us ≠ []) :
    extend next' left (r.facing ts) = .ok (result, r.facing us) ∧
      (result ≠ none → us.length < ts.length) := by
  have hnext := h.echo hts hless
  simp only [extend] at hread ⊢
  generalize next (l.facing ts) = x at hnext hread
  generalize next' (r.facing ts) = y at hnext
  cases hnext with
  | none =>
    obtain ⟨rfl, hend⟩ := Prod.mk.inj (Except.ok.inj hread)
    rw [Cursor.facing_inj hend]
    exact ⟨rfl, fun h => absurd rfl h⟩
  | @some kind p q rest =>
    obtain ⟨whole, e, hwhole, hread⟩ := bind_eq_ok hread
    obtain ⟨rfl, rfl⟩ := Prod.mk.inj (Except.ok.inj hread)
    have hbuild : Echoes l r Node.Known false m true (build kind (given [.node left] ++ p))
        (build kind (given [.node left] ++ q)) := (rest.given_append [.node left]).build
    obtain ⟨hq, hshorter⟩ := hbuild.echo hts hless hwhole hknown fun h => absurd h hus
    exact ⟨bind_eq hq rfl, fun _ => hshorter rfl⟩

theorem echo_growths (h : EchoesNext l r m next next') {bound bound' : Nat} {left n : Node}
    {ts us : List Token} (hts : Passage l ts) (hless : (l.facing ts).ahead.length < m)
    (hbound : ts.length < bound) (hbound' : ts.length < bound')
    (hread : growths next bound left (l.facing ts) = .ok (n, l.facing us)) (hknown : n.Known)
    (hus : us ≠ []) : growths next' bound' left (r.facing ts) = .ok (n, r.facing us) := by
  induction bound generalizing ts bound' left with
  | zero => omega
  | succ bound ih =>
    obtain ⟨bound', rfl⟩ : ∃ b, bound' = b + 1 := ⟨bound' - 1, by omega⟩
    obtain ⟨result, d, hresult, hrest⟩ := bind_eq_ok hread
    cases result with
    | none =>
      obtain ⟨rfl, rfl⟩ := Prod.mk.inj (Except.ok.inj hrest)
      obtain ⟨hextend, -⟩ := h.echo_extend left hts hless hresult hknown hus
      exact bind_eq hextend rfl
    | some whole =>
      obtain ⟨vs, rfl⟩ := onward_growths h.onward bound whole hrest
      rw [Cursor.facing_facing] at hresult hrest
      have hleft : vs ++ us ≠ [] := by simp [hus]
      obtain ⟨hextend, hshorter⟩ :=
        h.echo_extend left hts hless hresult (known_of_growths hrest hknown) hleft
      have hshorter := hshorter (Option.some_ne_none whole)
      obtain ⟨ws, rfl⟩ := (onward_extend h.onward left).split hresult
      have hmore := hts.suffix (List.suffix_append ws _) hleft
      refine bind_eq hextend (ih hmore ?_ (by omega) (by omega) hrest)
      simp only [Cursor.ahead_facing, List.length_append] at hless ⊢
      omega

theorem grow (h : EchoesNext l r m next next')
    (hfirst : Echoes l r Node.Known false m moves first first') :
    Echoes l r Node.Known false m moves (grow next first) (grow next' first') := by
  refine ⟨onward_grow h.onward hfirst.onward, fun ts us n hts hless hread hknown hlast => ?_⟩
  have hus : us ≠ [] := fun hnil => nomatch hlast hnil
  obtain ⟨left, d, hleft, hrest⟩ := grow_eq_ok hread
  obtain ⟨vs, rfl⟩ := onward_growths h.onward _ left hrest
  rw [Cursor.facing_facing] at hleft hrest
  have hmore : vs ++ us ≠ [] := by simp [hus]
  obtain ⟨hq, hshorter⟩ := hfirst.echo hts hless hleft (known_of_growths hrest hknown)
    fun h => absurd h hmore
  obtain ⟨ws, rfl⟩ := hfirst.onward.split hleft
  have hgrowths := h.echo_growths (hts.suffix (List.suffix_append ws _) hmore)
    (by simp only [Cursor.ahead_facing, List.length_append] at hless ⊢; omega)
    (Cursor.lt_ahead_facing l _) (Cursor.lt_ahead_facing r _) hrest hknown hus
  refine ⟨bind_eq hq (bind_eq rfl hgrowths), fun hmoves => ?_⟩
  have := hshorter hmoves
  simp only [List.length_append] at this ⊢
  omega

theorem growOnce (h : EchoesNext l r m next next')
    (hfirst : Echoes l r Node.Known false m moves first first') :
    Echoes l r Node.Known false m moves (growOnce next first) (growOnce next' first') := by
  refine ⟨hfirst.onward.bind fun left => (onward_extend h.onward left).bind fun _ => onward_pure _,
    fun ts us n hts hless hread hknown hlast => ?_⟩
  have hus : us ≠ [] := fun hnil => nomatch hlast hnil
  obtain ⟨left, d, hleft, hrest⟩ := bind_eq_ok hread
  obtain ⟨result, e, hresult, hpure⟩ := bind_eq_ok hrest
  obtain ⟨rfl, rfl⟩ := Prod.mk.inj (Except.ok.inj hpure)
  obtain ⟨vs, rfl⟩ := onward_extend h.onward left hresult
  rw [Cursor.facing_facing] at hleft hresult
  have hmore : vs ++ us ≠ [] := by simp [hus]
  obtain ⟨hq, hshorter⟩ := hfirst.echo hts hless hleft (known_of_extend hresult hknown)
    fun h => absurd h hmore
  obtain ⟨ws, rfl⟩ := hfirst.onward.split hleft
  obtain ⟨hextend, -⟩ := h.echo_extend left (hts.suffix (List.suffix_append ws _) hmore)
    (by simp only [Cursor.ahead_facing, List.length_append] at hless ⊢; omega) hresult hknown hus
  refine ⟨bind_eq hq (bind_eq hextend rfl), fun hmoves => ?_⟩
  have := hshorter hmoves
  simp only [List.length_append] at this ⊢
  omega

end EchoesNext

/-! ## Groups in brackets -/

theorem onward_group : Onward group := by
  intro c parts d h
  simp only [group] at h
  split at h
  · cases h
  · rename_i tokens rest hsplit
    obtain ⟨-, rfl⟩ := Prod.mk.inj (Except.ok.inj h)
    refine ⟨tokens, ?_⟩
    simp only [Cursor.facing, ← (splitGroup_eq_some hsplit).1]

section Groups

variable {last : Bool} {m : Nat}

theorem echoes_group : Echoes l r Element.KnownIn last m true group group := by
  refine ⟨onward_group, fun ts us parts hts hless h _ _ => ?_⟩
  simp only [group] at h ⊢
  split at h
  · cases h
  · rename_i tokens rest hsplit
    obtain ⟨rfl, hend⟩ := Prod.mk.inj (Except.ok.inj h)
    obtain rfl : rest = us ++ l.ahead := congrArg Cursor.ahead hend
    obtain ⟨htokens, hne⟩ := splitGroup_eq_some hsplit
    rw [Cursor.ahead_facing, ← List.append_assoc] at htokens
    obtain rfl := List.append_cancel_right htokens
    rw [Cursor.ahead_facing, List.append_assoc, splitGroup_append _ hsplit]
    refine ⟨rfl, fun _ => ?_⟩
    have := List.length_pos_iff.2 hne
    simp only [List.length_append]
    omega

theorem echoes_rawGroup : Echoes l r Node.Known last m true rawGroup rawGroup :=
  echoes_group.build

end Groups

theorem onward_rawRounds (bound : Nat) (fresh : Bool) : Onward (rawRounds bound fresh) := by
  induction bound generalizing fresh with
  | zero => exact onward_pure []
  | succ bound ih =>
    have hsemicolon : Onward (whenAt (Cursor.sees ";") token) := onward_token.ite (onward_pure [])
    have hmore {p : Piece} (hp : Onward p) (q : Piece) (hq : Onward q) : Onward (p ++ q) :=
      hp.bind fun _ => hq.bind fun _ => onward_pure _
    have hclose : Onward
        (fun c => if fresh then .error (c.refusal "member") else .ok ([], c) : Piece) := by
      intro c parts d h
      split at h
      · cases h
      · obtain ⟨-, rfl⟩ := Prod.mk.inj (Except.ok.inj h)
        exact ⟨[], rfl⟩
    exact .ite (onward_pure []) (.ite hclose (.ite (hmore onward_group _ hsemicolon)
      (.ite (hmore onward_group _ (ih false)) (.ite onward_token (hmore onward_token _ (ih false))))))

theorem onward_rawRun (kind : Kind) : Onward (rawRun kind) :=
  (Onward.ite (onward_fail "member") (fun _ _ _ h => onward_rawRounds _ _ h)).bind fun _ => onward_pure _

end Recast.Parser
