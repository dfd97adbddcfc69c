-- SUMMARY: An attempt that never comes to the end of a passage comes out the same wherever the passage stands.
import Recast.Proofs.Grammar.Echoing

/-! # Attempts

The grammar tries to read a type before it reads something else. So what is refused matters, too: a
parser that never comes to the end of a passage refuses in the one place what it refuses in the other
(`Mirrors`). -/

namespace Recast.Parser

open Recast.Grammar

variable {α β : Type} {l r : Cursor}

/-! ## The same outcome in two places -/

/-- What comes of a passage in two places: refusals, or the same reading that leaves something of
    the passage. -/
inductive SameReading (l r : Cursor) (moves : Bool) (ts : List Token) :
    Except ParseError (α × Cursor) → Except ParseError (α × Cursor) → Prop where
  | refused (e e' : ParseError) : SameReading l r moves ts (.error e) (.error e')
  | read {us : List Token} {a : α} (suffix : us <:+ ts) (ne_nil : us ≠ [])
      (shorter : moves = true → us.length < ts.length) :
      SameReading l r moves ts (.ok (a, l.facing us)) (.ok (a, r.facing us))

/-- Of a passage `p` reads in front of `l` what `q` reads in front of `r`, or both refuse it, and
    neither comes to its end. With `soft` that is only so where the next token is not a stop. -/
structure Mirrors (l r : Cursor) (soft : Bool) (m : Nat) (moves : Bool) (p q : Parser α) :
    Prop where
  onward : Onward p
  mirror : ∀ ⦃ts⦄, Passage l ts → (l.facing ts).ahead.length < m →
    (soft = true → (l.facing ts).current.stops = false) →
      SameReading l r moves ts (p (l.facing ts)) (q (r.facing ts))

namespace SameReading

variable {moves moves' : Bool} {ts : List Token}

theorem mono {x y : Except ParseError (α × Cursor)} (h : SameReading l r moves ts x y)
    (hmoves : moves' = true → moves = true) : SameReading l r moves' ts x y := by
  cases h with
  | refused e e' => exact .refused e e'
  | read suffix ne_nil shorter => exact .read suffix ne_nil (shorter ∘ hmoves)

/-- What is read first, and what is read of the rest of the passage. -/
theorem bind {x y : Except ParseError (α × Cursor)} {f g : α → Parser β}
    (h : SameReading l r moves ts x y)
    (hmore : ∀ ⦃us a⦄, us <:+ ts → us ≠ [] → us.length + moves.toNat ≤ ts.length →
      SameReading l r moves' us (f a (l.facing us)) (g a (r.facing us))) :
    SameReading l r (moves || moves') ts (x >>= fun z => f z.1 z.2) (y >>= fun z => g z.1 z.2) := by
  cases h with
  | refused e e' => exact .refused e e'
  | @read us a suffix ne_nil shorter =>
    have hle : us.length + moves.toNat ≤ ts.length := by
      cases moves with
      | false => exact suffix.length_le
      | true => exact shorter rfl
    have hmore := hmore (a := a) suffix ne_nil hle
    show SameReading l r _ ts (f a (l.facing us)) (g a (r.facing us))
    generalize f a (l.facing us) = x at hmore
    generalize g a (r.facing us) = y at hmore
    cases hmore with
    | refused e e' => exact .refused e e'
    | @read vs b suffix' ne_nil' shorter' =>
      refine .read (suffix'.trans suffix) ne_nil' fun hmoves => ?_
      have hvs := suffix'.length_le
      cases moves with
      | false => exact Nat.lt_of_lt_of_le (shorter' (by simpa using hmoves)) (by simpa using hle)
      | true => exact Nat.lt_of_le_of_lt hvs (shorter rfl)

theorem then_pure {x y : Except ParseError (α × Cursor)} (f : α → β)
    (h : SameReading l r moves ts x y) :
    SameReading l r moves ts (x >>= fun z => pure (f z.1, z.2)) (y >>= fun z => pure (f z.1, z.2)) := by
  cases h with
  | refused e e' => exact .refused e e'
  | read suffix ne_nil shorter => exact .read suffix ne_nil shorter

end SameReading

section Mirrors

variable {soft moves : Bool} {m : Nat}

theorem mirrors_fail (what : String) :
    Mirrors l r soft m moves (fail what : Parser α) (fail what) :=
  ⟨onward_fail what, fun _ _ _ _ => .refused _ _⟩

theorem mirrors_pure (a : α) : Mirrors l r soft m false (pure a) (pure a) :=
  ⟨onward_pure a, fun _ hts _ _ => .read (List.suffix_refl _) hts.ne_nil nofun⟩

theorem mirrors_given (parts : List Element) :
    Mirrors l r soft m false (given parts) (given parts) :=
  mirrors_pure parts

/-- A token that is no stop is not the last one. -/
theorem mirrors_token : Mirrors l r true m true token token := by
  refine ⟨onward_token, fun ts hts _ hsoft => ?_⟩
  obtain ⟨t, ts, rfl⟩ := List.exists_cons_of_ne_nil hts.ne_nil
  exact .read (List.suffix_cons t ts) (hts.tail_ne_nil (hsoft rfl)) fun _ => Nat.lt_succ_self _

end Mirrors

namespace Mirrors

section Sequence

variable {soft moves moves' : Bool} {m m' : Nat} {test : Cursor → Bool}

/-- A piece that is only read where a test of the next token holds, which no stop passes. -/
theorem where_ {p q : Piece} {e e' : Cursor → ParseError} (hp : Mirrors l r true m moves p q)
    (htest : Cursor.Alike l r test) (hsoft : Cursor.Soft test) :
    Mirrors l r soft m moves (fun c => if test c then p c else .error (e c))
      (fun c => if test c then q c else .error (e' c)) := by
  refine ⟨hp.onward.ite fun _ _ _ h => (nomatch h), fun ts hts hless _ => ?_⟩
  rw [← htest hts]
  split
  · rename_i hholds
    exact hp.mirror hts hless fun _ => hsoft hholds
  · exact .refused _ _

theorem mono {p q : Parser α} (h : Mirrors l r soft m moves p q) (hm : m' ≤ m)
    (hmoves : moves' = true → moves = true) : Mirrors l r soft m' moves' p q := by
  refine ⟨h.onward, fun ts hts hless hsoft => ?_⟩
  exact (h.mirror hts (Nat.lt_of_lt_of_le hless hm) hsoft).mono hmoves

theorem lower {p q : Parser α} (h : Mirrors l r soft (m + 1) moves p q) :
    Mirrors l r soft m moves p q :=
  h.mono (Nat.le_succ m) id

/-- One parser after another, which is asked of what the first one leaves. -/
theorem bind_of {p q : Parser α} {k k' : α → Parser β} (hp : Mirrors l r soft m moves p q)
    (hk : ∀ a, Mirrors l r false m' moves' (k a) (k' a)) (hm : m ≤ m' + moves.toNat) :
    Mirrors l r soft m (moves || moves') (p >>= k) (q >>= k') := by
  refine ⟨hp.onward.bind fun a => (hk a).onward, fun ts hts hless hsoft => ?_⟩
  refine (hp.mirror hts hless hsoft).bind fun us a suffix ne_nil hle => ?_
  exact (hk a).mirror (hts.suffix suffix ne_nil)
    (by simp only [Cursor.ahead_facing, List.length_append] at hless ⊢; omega) nofun

theorem then_pure {p q : Parser α} (f : α → β) (hp : Mirrors l r soft m moves p q) :
    Mirrors l r soft m moves (p >>= fun a => pure (f a)) (q >>= fun a => pure (f a)) := by
  have hbind := hp.bind_of (fun a => mirrors_pure (f a)) (Nat.le_add_right ..)
  rwa [Bool.or_false] at hbind

variable {p p' q q' : Piece}

theorem append (hp : Mirrors l r soft m moves p p') (hq : Mirrors l r false m moves' q q') :
    Mirrors l r soft m (moves || moves') (p ++ q) (p' ++ q') :=
  hp.bind_of (fun xs => hq.then_pure (xs ++ ·)) (Nat.le_add_right ..)

/-- A piece behind one that takes a token. -/
theorem follow (hp : Mirrors l r soft (m + 1) true p p') (hq : Mirrors l r false m moves' q q') :
    Mirrors l r soft (m + 1) true (p ++ q) (p' ++ q') :=
  hp.bind_of (fun xs => hq.then_pure (xs ++ ·)) (Nat.le_refl _)

theorem one {s s' : Parser Node} (h : Mirrors l r soft m moves s s') :
    Mirrors l r soft m moves (one s) (one s') :=
  h.then_pure fun n => [Element.node n]

theorem build {kind : Kind} (h : Mirrors l r soft m moves p p') :
    Mirrors l r soft m moves (build kind p) (build kind p') :=
  h.then_pure (Node.ofChildren kind)

end Sequence

end Mirrors

section Tokens

variable {soft : Bool} {m : Nat}

theorem mirrors_mark {text : String}
    (htext : text ≠ ";" ∧ text ≠ Token.openBrace ∧ text ≠ Token.closeBrace) :
    Mirrors l r soft m true (mark text) (mark text) :=
  mirrors_token.where_ (Cursor.alike_sees text) (Cursor.soft_sees htext)

theorem mirrors_name : Mirrors l r soft m true name name :=
  mirrors_token.where_ Cursor.alike_atName Cursor.soft_atName

theorem mirrors_check {test : Cursor → Bool} (htest : Cursor.Alike l r test) (what : String) :
    Mirrors l r soft m false (check test what) (check test what) := by
  refine ⟨Onward.ite (onward_pure []) (onward_fail what), fun ts hts _ _ => ?_⟩
  simp only [check]
  rw [← htest hts]
  split
  · exact .read (List.suffix_refl _) hts.ne_nil fun h => Bool.noConfusion h
  · exact .refused _ _

end Tokens

namespace Mirrors

/-! ## Choice -/

section Choice

variable {plain : α → Prop} {soft soft' last moves moves' : Bool} {m : Nat}
  {test test' : Cursor → Bool} {p p' q q' : Parser α}

/-- What never comes to the end of a passage. -/
theorem echoes (h : Mirrors l r false m moves p q) : Echoes l r plain last m moves p q := by
  refine ⟨h.onward, fun ts us a hts hless hread _ _ => ?_⟩
  have hmirror := h.mirror hts hless nofun
  rw [hread] at hmirror
  generalize hx : q (r.facing ts) = x at hmirror
  generalize hd : l.facing us = d at hmirror
  cases hmirror with
  | read suffix ne_nil shorter =>
    obtain rfl := Cursor.facing_inj hd
    exact ⟨rfl, shorter⟩

/-- A choice by a test of the next token; what is not asked of stops may be asked where it holds. -/
theorem ite_of (htest : Cursor.Alike l r test) (hsoft : soft' = true → Cursor.Soft test)
    (hp : Mirrors l r soft' m moves p p') (hq : Mirrors l r soft m moves' q q') :
    Mirrors l r soft m (moves && moves') (fun c => if test c then p c else q c)
      (fun c => if test c then p' c else q' c) := by
  refine ⟨hp.onward.ite hq.onward, fun ts hts hless hstop => ?_⟩
  rw [← htest hts]
  split
  · rename_i hholds
    exact (hp.mono (Nat.le_refl m) fun h => (Bool.and_eq_true_iff.1 h).1).mirror hts hless
      fun h => hsoft h hholds
  · exact (hq.mono (Nat.le_refl m) fun h => (Bool.and_eq_true_iff.1 h).2).mirror hts hless hstop

theorem ite (htest : Cursor.Alike l r test) (hp : Mirrors l r false m moves p p')
    (hq : Mirrors l r false m moves' q q') :
    Mirrors l r false m (moves && moves') (fun c => if test c then p c else q c)
      (fun c => if test c then p' c else q' c) :=
  ite_of htest (by simp) hp hq

theorem ite_soft (htest : Cursor.Alike l r test) (hsoft : Cursor.Soft test)
    (hp : Mirrors l r true m moves p p') (hq : Mirrors l r false m moves' q q') :
    Mirrors l r false m (moves && moves') (fun c => if test c then p c else q c)
      (fun c => if test c then p' c else q' c) :=
  ite_of htest (fun _ => hsoft) hp hq

theorem whenAt {p p' : Piece} (hp : Mirrors l r false m moves p p')
    (htest : Cursor.Alike l r test) :
    Mirrors l r false m false (Parser.whenAt test p) (Parser.whenAt test p') := by
  have hif := ite htest hp (mirrors_given [])
  rwa [Bool.and_false] at hif

theorem whenAt_soft {p p' : Piece} (hp : Mirrors l r true m moves p p')
    (htest : Cursor.Alike l r test) (hsoft : Cursor.Soft test) :
    Mirrors l r false m false (Parser.whenAt test p) (Parser.whenAt test p') := by
  have hif := ite_soft htest hsoft hp (mirrors_given [])
  rwa [Bool.and_false] at hif

theorem followedBy {what : String} (hp : Mirrors l r soft m moves p p')
    (htest : Cursor.Alike l r test) :
    Mirrors l r soft m moves (p.followedBy test what) (p'.followedBy test what) := by
  have hbind := hp.bind_of
    (fun a => (mirrors_check htest what).then_pure fun _ => a) (Nat.le_add_right ..)
  rwa [Bool.or_false] at hbind

/-- An attempt that refuses in one place what it refuses in the other. -/
theorem orElse (hp : Mirrors l r false m moves p p') (hq : Echoes l r plain last m moves' q q') :
    Echoes l r plain last m (moves && moves') (Parser.orElse p q) (Parser.orElse p' q') := by
  refine ⟨hp.onward.orElse hq.onward, fun ts us a hts hless hread hplain hlast => ?_⟩
  have hmirror := hp.mirror hts hless nofun
  have hechoes : Echoes l r plain last m moves p p' := hp.echoes
  have hecho := @hechoes.echo ts us a hts hless
  simp only [Parser.orElse] at hread ⊢
  generalize p (l.facing ts) = x at hmirror hread hecho
  generalize p' (r.facing ts) = y at hmirror hecho
  cases hmirror with
  | refused e e' =>
    obtain ⟨hq', hshorter⟩ := hq.echo hts hless hread hplain hlast
    exact ⟨hq', fun hmoves => hshorter (Bool.and_eq_true_iff.1 hmoves).2⟩
  | read suffix ne_nil shorter =>
    obtain ⟨hp', hshorter⟩ := hecho hread hplain hlast
    exact ⟨hp', fun hmoves => hshorter (Bool.and_eq_true_iff.1 hmoves).1⟩

/-- Where a parser leads is told the same in both places. -/
theorem leadsTo (hp : Mirrors l r false m moves p p') (htest : Cursor.Alike l r test)
    {ts : List Token} (hts : Passage l ts) (hless : (l.facing ts).ahead.length < m) :
    p.leadsTo test (l.facing ts) = p'.leadsTo test (r.facing ts) := by
  have hmirror := hp.mirror hts hless nofun
  simp only [Parser.leadsTo]
  generalize p (l.facing ts) = x at hmirror
  generalize p' (r.facing ts) = y at hmirror
  cases hmirror with
  | refused e e' => rfl
  | read suffix ne_nil shorter => exact htest (hts.suffix suffix ne_nil)

end Choice

/-! ## Repetition -/

section Repetition

variable {soft moves : Bool} {m : Nat} {test : Cursor → Bool} {p q item item' : Piece}

/-- The bounds differ as the tokens behind the passage do; but every round takes a token of it. -/
theorem mirror_rounds (hp : Mirrors l r soft m true p q) (htest : Cursor.Alike l r test)
    (hsoft : soft = true → Cursor.Soft test) {bound bound' : Nat} {ts : List Token}
    (hts : Passage l ts) (hless : (l.facing ts).ahead.length < m) (hbound : ts.length < bound)
    (hbound' : ts.length < bound') :
    SameReading l r (test (l.facing ts)) ts (rounds test p bound (l.facing ts))
      (rounds test q bound' (r.facing ts)) := by
  induction bound generalizing ts bound' with
  | zero => omega
  | succ bound ih =>
    obtain ⟨bound', rfl⟩ : ∃ b, bound' = b + 1 := ⟨bound' - 1, by omega⟩
    simp only [rounds]
    rw [← htest hts]
    split
    · rename_i hholds
      have hmore {us : List Token} (suffix : us <:+ ts) (ne_nil : us ≠ [])
          (hle : us.length + true.toNat ≤ ts.length) : SameReading l r false us
            (rounds test p bound (l.facing us)) (rounds test q bound' (r.facing us)) := by
        simp only [Bool.toNat_true] at hle
        refine (ih (hts.suffix suffix ne_nil) ?_ (by omega) (by omega)).mono
          fun h => Bool.noConfusion h
        simp only [Cursor.ahead_facing, List.length_append] at hless ⊢
        omega
      have hround := (hp.mirror hts hless fun h => hsoft h hholds).bind
        (f := fun xs => rounds test p bound >>= fun ys => pure (xs ++ ys))
        (g := fun xs => rounds test q bound' >>= fun ys => pure (xs ++ ys))
        fun us xs suffix ne_nil hle => (hmore suffix ne_nil hle).then_pure (xs ++ ·)
      exact hround.mono fun _ => rfl
    · rename_i hholds
      exact .read (List.suffix_refl _) hts.ne_nil fun h => absurd h hholds

theorem repeatWhile_of (hp : Mirrors l r soft m true p q) (htest : Cursor.Alike l r test)
    (hsoft : soft = true → Cursor.Soft test) :
    Mirrors l r false m false (repeatWhile test p) (repeatWhile test q) :=
  ⟨fun _ _ _ h => Echoes.onward_rounds hp.onward _ h, fun _ hts hless _ =>
    (hp.mirror_rounds htest hsoft hts hless (Cursor.lt_ahead_facing l _)
      (Cursor.lt_ahead_facing r _)).mono nofun⟩

/-- Where the test holds, there is a round. -/
theorem repeatWhile_of_test (hp : Mirrors l r soft m true p q) (htest : Cursor.Alike l r test)
    (hsoft : soft = true → Cursor.Soft test) {ts : List Token} (hts : Passage l ts)
    (hless : (l.facing ts).ahead.length < m) (hholds : test (l.facing ts) = true) :
    SameReading l r true ts (Parser.repeatWhile test p (l.facing ts))
      (Parser.repeatWhile test q (r.facing ts)) :=
  (hp.mirror_rounds htest hsoft hts hless (Cursor.lt_ahead_facing l _)
    (Cursor.lt_ahead_facing r _)).mono fun _ => hholds

theorem repeatWhile_soft (hp : Mirrors l r true m true p q) (htest : Cursor.Alike l r test)
    (hsoft : Cursor.Soft test) :
    Mirrors l r false m false (Parser.repeatWhile test p) (Parser.repeatWhile test q) :=
  hp.repeatWhile_of htest fun _ => hsoft

theorem commaList (h : Mirrors l r false m moves item item') :
    Mirrors l r false m moves (commaList item) (commaList item') := by
  have hmore := (mirrors_token.append h).repeatWhile_soft (Cursor.alike_sees ",")
    (Cursor.soft_sees (by decide))
  have hlist := h.append hmore
  rwa [Bool.or_false] at hlist

end Repetition

end Mirrors

/-! ## Types that grow on their right -/

/-- What goes on after a first part is the same in both places, and is never the rest of a
    passage. -/
inductive MirrorsRest (l r : Cursor) (ts : List Token) :
    Option (Kind × Piece) → Option (Kind × Piece) → Prop where
  | none : MirrorsRest l r ts none none
  | some {kind : Kind} {p q : Piece}
      (rest : SameReading l r true ts (p (l.facing ts)) (q (r.facing ts))) :
      MirrorsRest l r ts (some (kind, p)) (some (kind, q))

structure MirrorsNext (l r : Cursor) (m : Nat) (next next' : Extension) : Prop where
  onward : ∀ ⦃c kind rest⦄, next c = some (kind, rest) → Onward rest
  mirror : ∀ ⦃ts⦄, Passage l ts → (l.facing ts).ahead.length < m →
    MirrorsRest l r ts (next (l.facing ts)) (next' (r.facing ts))

theorem mirrorsNext_none (l r : Cursor) (m : Nat) :
    MirrorsNext l r m (fun _ => none) fun _ => none :=
  ⟨fun _ _ _ h => (nomatch h), fun _ _ _ => .none⟩

theorem mirrorsNext_ite {m : Nat} {test : Cursor → Bool} {kind : Kind} {p q : Piece}
    {next next' : Extension} (htest : Cursor.Alike l r test) (honward : Onward p)
    (h : ∀ ⦃ts⦄, Passage l ts → (l.facing ts).ahead.length < m → test (l.facing ts) = true →
      SameReading l r true ts (p (l.facing ts)) (q (r.facing ts)))
    (hnext : MirrorsNext l r m next next') :
    MirrorsNext l r m (fun c => if test c then some (kind, p) else next c)
      (fun c => if test c then some (kind, q) else next' c) where
  onward c kind' rest hrest := by
    split at hrest
    · obtain ⟨-, rfl⟩ := Prod.mk.inj (Option.some.inj hrest)
      exact honward
    · exact hnext.onward hrest
  mirror ts hts hless := by
    rw [← htest hts]
    split
    · rename_i hholds
      exact .some (h hts hless hholds)
    · exact hnext.mirror hts hless

theorem mirrorsNext_ite_soft {m : Nat} {test : Cursor → Bool} {kind : Kind} {p q : Piece}
    {next next' : Extension} (htest : Cursor.Alike l r test) (hsoft : Cursor.Soft test)
    (h : Mirrors l r true m true p q) (hnext : MirrorsNext l r m next next') :
    MirrorsNext l r m (fun c => if test c then some (kind, p) else next c)
      (fun c => if test c then some (kind, q) else next' c) :=
  mirrorsNext_ite htest h.onward
    (fun _ hts hless hholds => h.mirror hts hless fun _ => hsoft hholds) hnext

/-- One more extension, and the others after it. -/
theorem growths_succ (next : Extension) (bound : Nat) (left : Node) (c : Cursor) :
    growths next (bound + 1) left c = match next c with
      | none => .ok (left, c)
      | some (kind, rest) => build kind (given [.node left] ++ rest) c >>= fun whole =>
          growths next bound whole.1 whole.2 := by
  show (extend next left c >>= fun result => _) = _
  cases hnext : next c with
  | none =>
    simp only [extend, hnext]
    rfl
  | some more =>
    obtain ⟨kind, rest⟩ := more
    simp only [extend, hnext]
    show ((build kind (given [.node left] ++ rest) c >>= fun whole => pure (some whole.1, whole.2)) >>=
      fun result => _) = _
    cases build kind (given [.node left] ++ rest) c <;> rfl

namespace MirrorsNext

variable {m : Nat} {moves : Bool} {next next' : Extension} {first first' : Parser Node}

theorem mirror_growths (h : MirrorsNext l r m next next') {bound bound' : Nat} {left : Node}
    {ts : List Token} (hts : Passage l ts) (hless : (l.facing ts).ahead.length < m)
    (hbound : ts.length < bound) (hbound' : ts.length < bound') :
    SameReading l r false ts (growths next bound left (l.facing ts))
      (growths next' bound' left (r.facing ts)) := by
  induction bound generalizing ts bound' left with
  | zero => omega
  | succ bound ih =>
    obtain ⟨bound', rfl⟩ : ∃ b, bound' = b + 1 := ⟨bound' - 1, by omega⟩
    have hnext := h.mirror hts hless
    rw [growths_succ, growths_succ]
    generalize next (l.facing ts) = x at hnext
    generalize next' (r.facing ts) = y at hnext
    cases hnext with
    | none => exact .read (List.suffix_refl _) hts.ne_nil nofun
    | @some kind p q rest =>
      have hwhole : SameReading l r true ts (build kind (given [.node left] ++ p) (l.facing ts))
          (build kind (given [.node left] ++ q) (r.facing ts)) :=
        (rest.then_pure ([Element.node left] ++ ·)).then_pure (Node.ofChildren kind)
      have hround := hwhole.bind (f := growths next bound) (g := growths next' bound')
        fun us whole suffix ne_nil hle => by
          simp only [Bool.toNat_true] at hle
          refine ih (hts.suffix suffix ne_nil) ?_ (by omega) (by omega)
          simp only [Cursor.ahead_facing, List.length_append] at hless ⊢
          omega
      exact hround.mono nofun

theorem grow (h : MirrorsNext l r m next next')
    (hfirst : Mirrors l r false m moves first first') :
    Mirrors l r false m moves (grow next first) (grow next' first') := by
  refine ⟨onward_grow h.onward hfirst.onward, fun ts hts hless _ => ?_⟩
  have hgrown := (hfirst.mirror hts hless nofun).bind
    (f := fun left c => growths next (c.ahead.length + 1) left c)
    (g := fun left c => growths next' (c.ahead.length + 1) left c) fun us left suffix ne_nil hle =>
      h.mirror_growths (hts.suffix suffix ne_nil)
        (Nat.lt_of_le_of_lt (by simpa using suffix.length_le) hless) (Cursor.lt_ahead_facing l us)
        (Cursor.lt_ahead_facing r us)
  rwa [Bool.or_false] at hgrown

end MirrorsNext

end Recast.Parser
