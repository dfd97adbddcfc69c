-- SUMMARY: Two calls of one method that differ in the order of their named arguments: they are replaced by the same text when the arguments that are read by their place keep their places.
import Mathlib.Data.List.Perm.Basic
import Recast.Proofs.Framework.Arguments
import Recast.Proofs.Framework.Wording

/-! # Named arguments

The language binds a named argument by its name. The rules do so for messages only and take all
other arguments by their place. So the order of named arguments does not matter as long as those
that are read by place stay (`assertions_ignore_order`). It matters otherwise: a comparison that
names its actual value first is turned around (`not_ignores_order`). -/

namespace Recast

/-- The name and the value of an argument, as they are written. -/
def View.Argument.wording (a : View.Argument) : Option String × Option Wording :=
  (a.name?, a.expression?.map Node.wording)

namespace Framework

/-! ## Answers that come to the same -/

/-- Two answers about a call come to the same: they are one complaint, or neither proposes
    anything, or the replacements are one text, or both leave the call as it is written. -/
inductive SameAnswer : Except Complaint (Option (Proposal AssertionChange)) →
    Except Complaint (Option (Proposal AssertionChange)) → Prop where
  | complained (complaint : Complaint) : SameAnswer (.error complaint) (.error complaint)
  | declined : SameAnswer (.ok none) (.ok none)
  | replaced {p p' : Proposal AssertionChange} (h : p.change.replacement = p'.change.replacement) :
    SameAnswer (.ok (some p)) (.ok (some p'))
  | left {p p' : Proposal AssertionChange} (h : p.change.replacement = p.written)
    (h' : p'.change.replacement = p'.written) : SameAnswer (.ok (some p)) (.ok (some p'))

/-- Two rules that propose something or complain come to the same. -/
inductive SameProposal : Except Complaint (Proposal AssertionChange) →
    Except Complaint (Proposal AssertionChange) → Prop where
  | complained (complaint : Complaint) : SameProposal (.error complaint) (.error complaint)
  | replaced {p p' : Proposal AssertionChange} (h : p.change.replacement = p'.change.replacement) :
    SameProposal (.ok p) (.ok p')

theorem SameProposal.sameAnswer {x y : Except Complaint (Proposal AssertionChange)}
    (h : SameProposal x y) : SameAnswer (some <$> x) (some <$> y) := by
  cases h with
  | complained complaint => exact .complained complaint
  | replaced h => exact .replaced h

/-! ## Calls that agree in their first places -/

/-- The first entries of two lists are the same, as many of them as there are up to a number. -/
inductive StartAlike {α : Type} : Nat → List α → List α → Prop where
  | any (xs ys : List α) : StartAlike 0 xs ys
  | nil (n : Nat) : StartAlike n [] []
  | cons {n : Nat} {xs ys : List α} (a : α) (rest : StartAlike n xs ys) :
    StartAlike (n + 1) (a :: xs) (a :: ys)

theorem startAlike_of_take {α : Type} {n : Nat} {xs ys : List α} (h : xs.take n = ys.take n) :
    StartAlike n xs ys := by
  induction n generalizing xs ys with
  | zero => exact .any xs ys
  | succ n ih =>
    rcases xs with _ | ⟨x, xs⟩ <;> rcases ys with _ | ⟨y, ys⟩
    · exact .nil _
    · cases h
    · cases h
    · obtain ⟨rfl, hrest⟩ := List.cons.inj h
      exact .cons x (ih hrest)

/-- Two calls have equally many arguments and the same type arguments, and the arguments in the
    first places are worded alike. -/
structure AgreeUpTo (places : Nat) (call call' : View.Invocation) : Prop where
  length : call.arguments.length = call'.arguments.length
  arguments : (call.arguments.take places).map View.Argument.wording =
    (call'.arguments.take places).map View.Argument.wording
  typeArguments : call.typeArguments = call'.typeArguments

theorem factors_valueText :
    Function.FactorsThrough View.Argument.valueText View.Argument.wording := by
  intro a b h
  exact congrArg (fun text : Option String => text.getD "")
    (optionMap_of_map_eq (fun _ _ => Node.text_eq_of_wording) (Prod.mk.inj h).2)

namespace AgreeUpTo

variable {places : Nat} {call call' : View.Invocation} (h : AgreeUpTo places call call')

include h

theorem length_texts : call.argumentTexts.length = call'.argumentTexts.length := by
  simp only [View.Invocation.argumentTexts, List.length_map, h.length]

theorem take_texts : call.argumentTexts.take places = call'.argumentTexts.take places := by
  simp only [View.Invocation.argumentTexts, ← List.map_take]
  exact map_of_map_eq factors_valueText h.arguments

/-- Agreement in all places. -/
theorem texts_eq (hall : call.arguments.length ≤ places) : call.argumentTexts = call'.argumentTexts := by
  have htexts := h.take_texts
  rwa [List.take_of_length_le (by simpa [View.Invocation.argumentTexts] using hall),
    List.take_of_length_le (by simpa [View.Invocation.argumentTexts, ← h.length] using hall)]
    at htexts

theorem mono {fewer : Nat} (hfewer : fewer ≤ places) : AgreeUpTo fewer call call' where
  length := h.length
  arguments := by
    have htake := congrArg (List.take fewer) h.arguments
    rwa [← List.map_take, ← List.map_take, List.take_take, List.take_take,
      Nat.min_eq_left hfewer] at htake
  typeArguments := h.typeArguments

theorem startAlike : StartAlike places call.argumentTexts call'.argumentTexts :=
  startAlike_of_take h.take_texts

theorem texts_getElem? {i : Nat} (hi : i < places) :
    call.argumentTexts[i]? = call'.argumentTexts[i]? := by
  rw [← List.getElem?_take_of_lt hi, h.take_texts, List.getElem?_take_of_lt hi]

theorem head?_texts (hplaces : 0 < places) :
    call.argumentTexts.head? = call'.argumentTexts.head? := by
  rw [List.head?_eq_getElem?, List.head?_eq_getElem?, h.texts_getElem? hplaces]

theorem value {i : Nat} (hi : i < places) :
    (call.arguments[i]?.bind View.Argument.expression?).map Node.wording =
      (call'.arguments[i]?.bind View.Argument.expression?).map Node.wording := by
  have hargument : call.arguments[i]?.map View.Argument.wording =
      call'.arguments[i]?.map View.Argument.wording := by
    rw [← List.getElem?_take_of_lt hi, ← List.getElem?_map, h.arguments, List.getElem?_map,
      List.getElem?_take_of_lt hi]
  rw [Option.map_bind, Option.map_bind]
  exact bind_of_map_eq (fun a b hab => (Prod.mk.inj hab).2) hargument

end AgreeUpTo

namespace NUnit

/-- The constraint that a call has as its second argument, as the check that it stands for, if it
    is known. -/
def constraint? (call : View.Invocation) : Option (Option Check) :=
  (call.arguments[1]?.bind View.Argument.expression?).bind fun e =>
    if isStringLiteral e then none else some (Check.of? e)

theorem factors_constraint : Function.FactorsThrough
    (fun e => if isStringLiteral e then none else some (Check.of? e)) Node.wording := by
  intro n m h
  simp only [isStringLiteral_eq_of_wording h, Check.of?_eq_of_wording h]

theorem convertThat_eq (cx : Context) (s : Site) (call : View.Invocation) :
    convertThat cx s call =
      (require (.tooFewArguments "That" 1 call.argumentTexts.length) call.argumentTexts.head?).bind
        fun actual =>
          match constraint? call with
          | none => .ok (awaited "That" s (assertThat cx actual "IsTrue()" call.argumentTexts[1]?))
          | some (some (.that check)) =>
            .ok (awaited "That" s (assertThat cx actual check call.argumentTexts[2]?))
          | some (some (.throws exception)) =>
            .ok (awaited "That" s (assertThrows cx exception actual))
          | some none => .ok (withRemark (plain "That" s s.text)
            (todo "Complex NUnit constraint. Manual conversion required.")) := by
  rw [convertThat, constraint?]
  cases call.argumentTexts.head? with
  | none => rfl
  | some actual =>
    cases call.arguments[1]?.bind View.Argument.expression? with
    | none => rfl
    | some e =>
      by_cases hliteral : isStringLiteral e = true
      · simp only [Option.filter, Option.bind_some, hliteral]
        rfl
      · simp only [Option.filter, Option.bind_some, hliteral, Bool.not_false, if_true,
          Bool.false_eq_true, if_false]
        rcases Check.of? e with _ | check | exception <;> rfl

theorem isSome_tolerance?_eq {call call' : View.Invocation}
    (h : (call.arguments[2]?.bind View.Argument.expression?).map Node.wording =
      (call'.arguments[2]?.bind View.Argument.expression?).map Node.wording) :
    (tolerance? call).isSome = (tolerance? call').isSome := by
  have hview : ∀ o : Option Node, (o.filter fun e => !isStringLiteral e).isSome =
      (o.map fun e => !isStringLiteral e).getD false := by
    rintro (_ | e)
    · rfl
    · cases hliteral : isStringLiteral e <;> simp [Option.filter, hliteral]
  rw [tolerance?, tolerance?, hview, hview]
  refine congrArg (fun b : Option Bool => b.getD false) (optionMap_of_map_eq (fun a b hab => ?_) h)
  simp only [isStringLiteral_eq_of_wording hab]

theorem convert_equality (cx : Context) (assertion : String) (s : Site) (call : View.Invocation)
    (check : String) : (Treatment.equality check).convert cx assertion s call =
      match call.argumentTexts[0]?, call.argumentTexts[1]? with
      | some expected, some actual =>
        match (tolerance? call).isSome, call.argumentTexts[2]? with
        | true, some tolerance => .ok (some (awaited assertion s (assertThat cx actual
            (check ++ "(" ++ expected ++ ")" ++ ".Within(" ++ tolerance ++ ")")
            call.argumentTexts[3]?)))
        | _, third => .ok (some (awaited assertion s
            (assertThat cx actual (check ++ "(" ++ expected ++ ")") third)))
      | _, _ => object (.tooFewArguments assertion 2 call.argumentTexts.length) := by
  rw [Treatment.convert, ← tolerance?]
  cases tolerance? call with
  | none => rcases call.argumentTexts with _ | ⟨a, _ | ⟨b, _ | ⟨c, rest⟩⟩⟩ <;> rfl
  | some e => rcases call.argumentTexts with _ | ⟨a, _ | ⟨b, _ | ⟨c, _ | ⟨d, rest⟩⟩⟩⟩ <;> rfl

end NUnit

/-! ## Rules that read the first places -/

theorem Form.read?_take (form : Form) (texts : List String) :
    form.read? (texts.take form.arity) = form.read? texts := by
  cases form with
  | about check => cases texts <;> rfl
  | expectedFirst opening closing => rcases texts with _ | ⟨first, _ | ⟨second, rest⟩⟩ <;> rfl
  | actualFirst opening closing => rcases texts with _ | ⟨first, _ | ⟨second, rest⟩⟩ <;> rfl

section Rules

variable {cx cx' : Context} {s s' : Site} {call call' : View.Invocation} {assertion : String}
  (hsettings : cx.settings = cx'.settings)

include hsettings

theorem assertThat_eq (actual check : String) (because : Option String) :
    assertThat cx actual check because = assertThat cx' actual check because := by
  rw [assertThat, assertThat, hsettings]

theorem assertThrows_eq (exception action : String) :
    assertThrows cx exception action = assertThrows cx' exception action := by
  rw [assertThrows, assertThrows, hsettings]

theorem Form.sameProposal_convert {form : Form} {texts texts' : List String}
    {message? message?' : Nat → Option String} (hlength : texts.length = texts'.length)
    (htexts : texts.take form.arity = texts'.take form.arity)
    (hmessage : message? form.arity = message?' form.arity) :
    SameProposal (form.convert cx assertion s texts message?)
      (form.convert cx' assertion s' texts' message?') := by
  have hread : form.read? texts = form.read? texts' := by
    rw [← form.read?_take, htexts, form.read?_take]
  rw [Form.convert, Form.convert, hread, hlength]
  cases form.read? texts' with
  | none => exact .complained _
  | some pair =>
    refine .replaced ?_
    show assertThat cx pair.1 pair.2 _ = assertThat cx' pair.1 pair.2 _
    rw [hmessage, assertThat_eq hsettings]

namespace XUnit

theorem Treatment.sameAnswer_convert {treatment : Treatment}
    (hagree : AgreeUpTo (treatment.reads call) call call')
    (hmessage : treatment.message? call = treatment.message? call') :
    SameAnswer (treatment.convert cx assertion s call)
      (treatment.convert cx' assertion s' call') := by
  have hlength := hagree.length_texts
  have htexts := hagree.take_texts
  cases treatment with
  | equality check =>
    have hsame : SameProposal
        ((Form.expecting check).convert cx assertion s call.argumentTexts fun _ => none)
        ((Form.expecting check).convert cx' assertion s' call'.argumentTexts fun _ => none) :=
      Form.sameProposal_convert hsettings hlength htexts rfl
    simp only [convert]
    generalize (Form.expecting check).convert cx assertion s _ _ = x at hsame ⊢
    generalize (Form.expecting check).convert cx' assertion s' _ _ = y at hsame ⊢
    cases hsame with
    | complained complaint => exact .complained complaint
    | replaced h =>
      -- The third argument comes to a remark and leaves the replacement.
      cases call.argumentTexts[2]? <;> cases call'.argumentTexts[2]? <;> exact .replaced h
  | condition check =>
    exact SameProposal.sameAnswer (Form.sameProposal_convert hsettings hlength htexts hmessage)
  | form form => exact SameProposal.sameAnswer (Form.sameProposal_convert hsettings hlength htexts rfl)
  | range check =>
    have hstart : StartAlike 3 call.argumentTexts call'.argumentTexts := hagree.startAlike
    simp only [convert]
    generalize call.argumentTexts = texts at hstart ⊢
    generalize call'.argumentTexts = texts' at hstart ⊢
    rcases hstart with _ | _ | ⟨actual, _ | _ | ⟨low, _ | _ | ⟨high, -⟩⟩⟩
    · exact .complained _
    · exact .complained _
    · exact .complained _
    · exact .replaced (assertThat_eq hsettings _ _ _)
  | typeTest check =>
    have hstart : StartAlike 1 call.argumentTexts call'.argumentTexts := hagree.startAlike
    simp only [convert, hagree.typeArguments]
    generalize call.argumentTexts = texts at hstart ⊢
    generalize call'.argumentTexts = texts' at hstart ⊢
    rcases hstart with _ | _ | ⟨actual, -⟩ <;> rcases call'.typeArguments with _ | ⟨type, _ | ⟨next, more⟩⟩
    · exact .complained _
    · exact .complained _
    · exact .complained _
    · exact .complained _
    · exact .replaced (assertThat_eq hsettings _ _ _)
    · exact .complained _
  | throwsAny =>
    simp only [convert, hagree.typeArguments]
    exact SameProposal.sameAnswer (Form.sameProposal_convert hsettings hlength htexts rfl)
  | stays => exact .declined
  | fail =>
    simp only [convert, hagree.texts_eq (Nat.le_refl _)]
    exact .replaced rfl
  | all =>
    have hpredicate := bind_of_map_eq (fun _ _ => predicateOf?_eq_of_wording)
      (hagree.value (show 1 < 2 by omega))
    have hstart : StartAlike 2 call.argumentTexts call'.argumentTexts := hagree.startAlike
    simp only [convert, hpredicate]
    generalize call.argumentTexts = texts at hstart ⊢
    generalize call'.argumentTexts = texts' at hstart ⊢
    rcases hstart with _ | _ | ⟨actual, _ | _ | ⟨predicate, -⟩⟩
    · exact .complained _
    · exact .complained _
    · cases (call'.arguments[1]?.bind View.Argument.expression?).bind XUnit.predicateOf? with
      | none => exact .replaced (assertThat_eq hsettings _ _ _)
      | some predicate => exact .replaced (assertThat_eq hsettings _ _ _)
  | collection =>
    have hstart : StartAlike 1 call.argumentTexts call'.argumentTexts := hagree.startAlike
    simp only [convert]
    generalize call.argumentTexts = texts at hstart hlength ⊢
    generalize call'.argumentTexts = texts' at hstart hlength ⊢
    rcases hstart with _ | _ | @⟨_, rest, rest', actual, ⟨⟩ | _⟩
    · exact .complained _
    · have hrest : rest.length = rest'.length := Nat.succ.inj hlength
      simp only [hrest]
      exact .replaced (assertThat_eq hsettings _ _ _)
    · exact .replaced (assertThat_eq hsettings _ _ _)

end XUnit

namespace NUnit

/-- A form with whatever argument comes next as its message. -/
theorem sameProposal_convert {form : Form} (hagree : AgreeUpTo (form.arity + 1) call call') :
    SameProposal
      (form.convert cx assertion s call.argumentTexts fun index => call.argumentTexts[index]?)
      (form.convert cx' assertion s' call'.argumentTexts fun index => call'.argumentTexts[index]?) :=
  Form.sameProposal_convert hsettings hagree.length_texts (hagree.mono (Nat.le_succ _)).take_texts
    (hagree.texts_getElem? (Nat.lt_succ_self _))

theorem sameAnswer_convertThat (hagree : AgreeUpTo 3 call call') :
    SameAnswer (some <$> convertThat cx s call) (some <$> convertThat cx' s' call') := by
  have hconstraint : constraint? call = constraint? call' :=
    bind_of_map_eq factors_constraint (hagree.value (by omega))
  rw [convertThat_eq, convertThat_eq, hconstraint, hagree.head?_texts (by omega),
    hagree.length_texts, hagree.texts_getElem? (show 1 < 3 by omega), hagree.texts_getElem? (show 2 < 3 by omega)]
  cases call'.argumentTexts.head? with
  | none => exact .complained _
  | some actual =>
    rcases constraint? call' with _ | _ | check | exception
    · exact .replaced (assertThat_eq hsettings _ _ _)
    · exact .left rfl rfl
    · exact .replaced (assertThat_eq hsettings _ _ _)
    · exact .replaced (assertThrows_eq hsettings _ _)

theorem Treatment.sameAnswer_convert {treatment : Treatment}
    (hagree : AgreeUpTo (treatment.reads call) call call') :
    SameAnswer (treatment.convert cx assertion s call)
      (treatment.convert cx' assertion s' call') := by
  have hlength := hagree.length_texts
  have htexts := hagree.take_texts
  cases treatment with
  | constraint => exact sameAnswer_convertThat hsettings hagree
  | equality check =>
    have hthree : 3 ≤ (equality check).reads call := by
      rw [reads]
      split <;> omega
    have htolerance : (tolerance? call).isSome = (tolerance? call').isSome :=
      isSome_tolerance?_eq (hagree.value hthree)
    rw [convert_equality, convert_equality, hlength, ← htolerance,
      hagree.texts_getElem? (show 0 < _ by omega), hagree.texts_getElem? (show 1 < _ by omega),
      hagree.texts_getElem? hthree]
    rcases call'.argumentTexts[0]? with _ | expected
    · exact .complained _
    rcases call'.argumentTexts[1]? with _ | actual
    · exact .complained _
    cases hsome : (tolerance? call).isSome with
    | true =>
      have hfour : 3 < (equality check).reads call := by
        rw [reads, if_pos hsome]
        omega
      rw [hagree.texts_getElem? hfour]
      rcases call'.argumentTexts[2]? with _ | tolerance
      · exact .replaced (assertThat_eq hsettings _ _ _)
      · exact .replaced (assertThat_eq hsettings _ _ _)
    | false => exact .replaced (assertThat_eq hsettings _ _ _)
  | form form => exact SameProposal.sameAnswer (sameProposal_convert hsettings hagree)
  | typeTest check =>
    simp only [convert, hagree.typeArguments]
    cases call'.typeArguments.head? with
    | none => exact .complained _
    | some type => exact SameProposal.sameAnswer (sameProposal_convert hsettings hagree)
  | throws =>
    have hfirst := hagree.head?_texts Nat.one_pos
    simp only [convert, hagree.typeArguments, hlength, hfirst]
    cases call'.argumentTexts.head? with
    | none => exact .complained _
    | some action => exact .replaced (assertThrows_eq hsettings _ _)
  | becomes callee absent =>
    have hfirst := hagree.head?_texts Nat.one_pos
    simp only [convert, hfirst]
    exact .replaced rfl
  | stays => exact .declined

end NUnit

namespace MSTest

theorem Treatment.sameProposal_convert {treatment : Treatment}
    (hagree : AgreeUpTo (treatment.reads call) call call')
    (hmessage : treatment.message? call = treatment.message? call') :
    SameProposal (treatment.convert cx assertion s call)
      (treatment.convert cx' assertion s' call') := by
  have hlength := hagree.length_texts
  have htexts := hagree.take_texts
  cases treatment with
  | form form => exact Form.sameProposal_convert hsettings hlength htexts hmessage
  | silent form =>
    have hsame : SameProposal
        (form.convert cx assertion s call.argumentTexts fun _ => none)
        (form.convert cx' assertion s' call'.argumentTexts fun _ => none) :=
      Form.sameProposal_convert hsettings hlength htexts rfl
    exact hsame
  | typeTest check =>
    have hreason : stringMessage? ["message"] call.arguments 2 =
      stringMessage? ["message"] call'.arguments 2 := hmessage
    have hstart : StartAlike (if call'.typeArguments.isEmpty then 2 else 1)
        call.argumentTexts call'.argumentTexts := by
      rw [← hagree.typeArguments]
      exact hagree.startAlike
    simp only [convert, hagree.typeArguments, convert.message?, hreason]
    generalize call.argumentTexts = texts at hstart ⊢
    generalize call'.argumentTexts = texts' at hstart ⊢
    generalize call'.typeArguments = types at hstart ⊢
    -- Without a type argument the type is the second value.
    rcases types with _ | ⟨type, more⟩
    · change StartAlike 2 texts texts' at hstart
      rcases hstart with _ | _ | ⟨actual, _ | _ | ⟨expected, -⟩⟩
      · exact .complained _
      · exact .complained _
      · exact .replaced (assertThat_eq hsettings _ _ _)
    · change StartAlike 1 texts texts' at hstart
      rcases hstart with _ | _ | ⟨actual, -⟩
      · exact .complained _
      · exact .replaced (assertThat_eq hsettings _ _ _)
  | throws =>
    have hstart : StartAlike 1 call.argumentTexts call'.argumentTexts := hagree.startAlike
    simp only [convert, hagree.typeArguments]
    generalize call.argumentTexts = texts at hstart ⊢
    generalize call'.argumentTexts = texts' at hstart ⊢
    rcases hstart with _ | _ | ⟨action, -⟩
    · exact .complained _
    · rcases call'.typeArguments with _ | ⟨type, more⟩
      · exact .complained _
      · exact .replaced (assertThrows_eq hsettings _ _)
  | becomes callee =>
    simp only [convert, hagree.texts_eq (Nat.le_refl _)]
    exact .replaced rfl

end MSTest

end Rules

/-! ## Calls of one method in one place -/

/-- Two calls stand in the same place and are written alike up to their arguments. -/
structure SamePlace (cx cx' : Context) (s s' : Site) (call call' : View.Invocation) : Prop where
  settings : cx.settings = cx'.settings
  method : cx.resolveCall s = cx'.resolveCall s'
  parent : s.parent?.map Site.kind = s'.parent?.map Site.kind
  callee : call.callee?.map Node.wording = call'.callee?.map Node.wording

section Assertion

variable {cx cx' : Context} {s s' : Site} {call call' : View.Invocation}

theorem SamePlace.frameworkCall?_eq (h : SamePlace cx cx' s s' call call') (owners : List String) :
    frameworkCall? cx owners s = frameworkCall? cx' owners s' := by
  rw [frameworkCall?, frameworkCall?, h.method]

/-- Two calls agree as far as the rules of a framework read them: in the first places and in the
    message. -/
def Agree (f : Framework) (cx : Context) (s : Site) (call call' : View.Invocation) : Prop :=
  ∀ method, cx.resolveCall s = .ok (some method) →
    AgreeUpTo (f.reads method call) call call' ∧ f.message? method call = f.message? method call'

section Agreement

variable (hcall : View.Invocation.of? s.node = some call)
  (hcall' : View.Invocation.of? s'.node = some call') (h : SamePlace cx cx' s s' call call')

include hcall hcall' h

theorem XUnit.sameAnswer_assertion (hagree : xUnit.Agree cx s call call') :
    SameAnswer (XUnit.assertion cx s) (XUnit.assertion cx' s') := by
  have hstatement : (s.parent?.map fun p => p.kind == .expressionStatement) =
      s'.parent?.map fun p => p.kind == .expressionStatement :=
    optionMap_of_map_eq (fun p q hpq => by simp only [hpq]) h.parent
  simp only [XUnit.assertion, hcall, hcall', receiverName?_eq_of_wording h.callee, hstatement,
    ← h.frameworkCall?_eq]
  split
  · exact .declined
  · rcases hfound : frameworkCall? cx ["Xunit.Assert"] s with complaint | _ | method
    · exact .complained complaint
    · exact .declined
    · obtain ⟨hagree, hmessage⟩ := hagree method (resolveCall_of_frameworkCall? hfound)
      simp only [reads, message?, XUnit.treatment?] at hagree hmessage
      simp only [bind, Except.bind]
      split
      · exact .declined
      · rcases htreatment : XUnit.treatments.lookup method.name with _ | treatment
        · exact .complained _
        · rw [htreatment] at hagree hmessage
          exact XUnit.Treatment.sameAnswer_convert h.settings hagree hmessage

theorem NUnit.sameAnswer_assertion (hagree : nUnit.Agree cx s call call') :
    SameAnswer (NUnit.assertion cx s) (NUnit.assertion cx' s') := by
  simp only [NUnit.assertion, hcall, hcall', receiverName?_eq_of_wording h.callee,
    ← h.frameworkCall?_eq]
  split
  · exact .declined
  · rcases hfound : frameworkCall? cx NUnit.assertTypes s with complaint | _ | method
    · exact .complained complaint
    · exact .declined
    · obtain ⟨hagree, -⟩ := hagree method (resolveCall_of_frameworkCall? hfound)
      simp only [Framework.reads, NUnit.reads] at hagree
      simp only [bind, Except.bind]
      split
      · next hgeneral =>
        rw [if_pos (show NUnit.isGeneral method = true from hgeneral)] at hagree
        rcases htreatment : NUnit.treatments.lookup method.name with _ | treatment
        · exact .complained _
        · rw [htreatment] at hagree
          exact NUnit.Treatment.sameAnswer_convert h.settings hagree
      · next hgeneral =>
        rw [if_neg (show ¬NUnit.isGeneral method = true from hgeneral), NUnit.helperForm?] at hagree
        refine SameProposal.sameAnswer ?_
        simp only [NUnit.convertHelper]
        split
        · next form hform =>
          rw [hform] at hagree
          exact NUnit.sameProposal_convert h.settings hagree
        · exact .complained _

theorem MSTest.sameAnswer_assertion (hagree : msTest.Agree cx s call call') :
    SameAnswer (MSTest.assertion cx s) (MSTest.assertion cx' s') := by
  simp only [MSTest.assertion, hcall, hcall', receiverName?_eq_of_wording h.callee,
    ← h.frameworkCall?_eq]
  split
  · exact .declined
  · rcases hfound : frameworkCall? cx (MSTest.assertClasses.map (Text.qualify MSTest.space)) s
      with complaint | _ | method
    · exact .complained complaint
    · exact .declined
    · obtain ⟨hagree, hmessage⟩ := hagree method (resolveCall_of_frameworkCall? hfound)
      simp only [reads, message?, MSTest.treatment?] at hagree hmessage
      simp only [bind, Except.bind]
      rcases htreatment : (MSTest.treatmentsOf method.owner.name).lookup method.name with
        _ | treatment
      · exact .complained _
      · rw [htreatment] at hagree hmessage
        exact SameProposal.sameAnswer
          (MSTest.Treatment.sameProposal_convert h.settings hagree hmessage)

/-- A rule reads the arguments in the first places and the message, and no other ones. -/
theorem sameAnswer_assertion (f : Framework) (hagree : f.Agree cx s call call') :
    SameAnswer (f.strategy.assertion cx s) (f.strategy.assertion cx' s') := by
  cases f with
  | xUnit => exact XUnit.sameAnswer_assertion hcall hcall' h hagree
  | nUnit => exact NUnit.sameAnswer_assertion hcall hcall' h hagree
  | msTest => exact MSTest.sameAnswer_assertion hcall hcall' h hagree

end Agreement

/-! ## Arguments in another order -/

/-- The names of arguments that are messages. -/
def messageNames : Framework → List String
  | .xUnit => ["userMessage", "message"]
  | .nUnit => []
  | .msTest => ["message"]

/-- True for an argument that is named as a message. -/
def isMessage (f : Framework) (a : View.Argument) : Bool :=
  (a.name?.map f.messageNames.contains).getD false

/-- Of lists with the same entries in any order, where at most one is wanted, the wanted entry is
    the same. -/
theorem find?_eq_of_perm {α : Type} {p : α → Bool} {xs ys : List α} (h : xs.Perm ys)
    (hone : (xs.filter p).length ≤ 1) : xs.find? p = ys.find? p := by
  have hfilter := h.filter p
  rw [← List.head?_filter, ← List.head?_filter]
  rcases hxs : xs.filter p with _ | ⟨x, _ | ⟨y, rest⟩⟩
  · rw [hxs] at hfilter
    rw [List.nil_perm.1 hfilter]
  · rw [hxs] at hfilter
    rw [List.singleton_perm.1 hfilter]
  · rw [hxs] at hone
    simp at hone

/-- Where all arguments are named, a message is found by its name. -/
theorem stringMessage?_of_named {names : List String} {arguments : List View.Argument}
    (hnamed : ∀ a ∈ arguments, a.name?.isSome = true) (index : Nat) :
    stringMessage? names arguments index =
      (arguments.find? fun a => (a.name?.map names.contains).getD false).map
        View.Argument.valueText := by
  rw [stringMessage?]
  cases arguments.find? fun a => (a.name?.map names.contains).getD false with
  | some a => rfl
  | none =>
    have hnone : (arguments[index]?.filter fun a => a.name?.isNone) = none := by
      rw [Option.filter_eq_none_iff]
      intro a ha
      simp [Option.isSome_iff_ne_none.1 (hnamed a (List.mem_of_getElem? ha))]
    simp only [hnone, Option.bind_none, Option.map_none]

theorem stringMessage?_eq_of_perm {names : List String} {arguments arguments' : List View.Argument}
    (hnamed : ∀ a ∈ arguments, a.name?.isSome = true)
    (hperm : (arguments.map View.Argument.wording).Perm (arguments'.map View.Argument.wording))
    (hone : (arguments.filter fun a => (a.name?.map names.contains).getD false).length ≤ 1)
    (index : Nat) : stringMessage? names arguments index = stringMessage? names arguments' index := by
  have hnamed' : ∀ a ∈ arguments', a.name?.isSome = true := by
    intro a ha
    obtain ⟨b, hb, hab⟩ := List.mem_map.1 (hperm.mem_iff.2 (List.mem_map_of_mem ha))
    rw [← (Prod.mk.inj hab).1]
    exact hnamed b hb
  let isNamed (w : Option String × Option Wording) : Bool := (w.1.map names.contains).getD false
  have hfound : (arguments.map View.Argument.wording).find? isNamed =
      (arguments'.map View.Argument.wording).find? isNamed := by
    refine find?_eq_of_perm hperm ?_
    rw [List.filter_map, List.length_map]
    exact hone
  rw [List.find?_map, List.find?_map] at hfound
  rw [stringMessage?_of_named hnamed, stringMessage?_of_named hnamed']
  exact optionMap_of_map_eq factors_valueText hfound

theorem message?_eq_of_perm (f : Framework) (method : MethodSymbol)
    (hnamed : ∀ a ∈ call.arguments, a.name?.isSome = true)
    (hperm : (call.arguments.map View.Argument.wording).Perm
      (call'.arguments.map View.Argument.wording))
    (hone : (call.arguments.filter f.isMessage).length ≤ 1) :
    f.message? method call = f.message? method call' := by
  cases f with
  | xUnit =>
    refine congrArg (Option.bind _) (funext fun treatment => ?_)
    cases treatment with
    | condition check => exact stringMessage?_eq_of_perm hnamed hperm hone 1
    | _ => rfl
  | nUnit => rfl
  | msTest =>
    refine congrArg (Option.bind _) (funext fun treatment => ?_)
    cases treatment with
    | form form => exact stringMessage?_eq_of_perm hnamed hperm hone form.arity
    | typeTest check => exact stringMessage?_eq_of_perm hnamed hperm hone 2
    | _ => rfl

/-- Two calls of one method with the same named arguments in another order come to the same when
    the arguments in the places that are read stay there. The message may stand anywhere. -/
theorem assertions_ignore_order {f : Framework}
    (hcall : View.Invocation.of? s.node = some call)
    (hcall' : View.Invocation.of? s'.node = some call') (h : SamePlace cx cx' s s' call call')
    (hnamed : ∀ a ∈ call.arguments, a.name?.isSome = true)
    (hperm : (call.arguments.map View.Argument.wording).Perm
      (call'.arguments.map View.Argument.wording))
    (hone : (call.arguments.filter f.isMessage).length ≤ 1)
    (hplaces : ∀ method, cx.resolveCall s = .ok (some method) →
      (call.arguments.take (f.reads method call)).map View.Argument.wording =
        (call'.arguments.take (f.reads method call)).map View.Argument.wording) :
    SameAnswer (f.strategy.assertion cx s) (f.strategy.assertion cx' s') := by
  refine sameAnswer_assertion hcall hcall' h f fun method hmethod => ⟨⟨?_, ?_, ?_⟩, ?_⟩
  · simpa using hperm.length_eq
  · exact hplaces method hmethod
  · exact View.Invocation.typeArguments_eq_of_wording h.callee
  · exact message?_eq_of_perm f method hnamed hperm hone

end Assertion

/-- A comparison with arguments. -/
def comparisonOf (arguments : String) : String :=
  "using Xunit; class T \x7b void M() \x7b Assert.Equal(" ++ arguments ++ "); \x7d \x7d"

/-- The order of the arguments after the two values does not matter. -/
theorem assertions_ignore_order_precision :
    ∃ t t', Tree.parse (comparisonOf "expected: e, actual: x, precision: 2, rounding: r") = .ok t ∧
      Tree.parse (comparisonOf "expected: e, actual: x, rounding: r, precision: 2") = .ok t' ∧
      ∃ s ∈ t.sites, ∃ s' ∈ t'.sites, s.kind = .invocationExpression ∧ s.text ≠ s'.text ∧
        SameAnswer (xUnit.strategy.assertion (xUnit.contextOf t) s)
          (xUnit.strategy.assertion (xUnit.contextOf t') s') := by
  have hfacts : (do
      let t ← (Tree.parse (comparisonOf "expected: e, actual: x, precision: 2, rounding: r")).toOption
      let t' ← (Tree.parse (comparisonOf "expected: e, actual: x, rounding: r, precision: 2")).toOption
      let s ← t.get? [1, 4, 4, 1, 0]
      let s' ← t'.get? [1, 4, 4, 1, 0]
      let call ← View.Invocation.of? s.node
      let call' ← View.Invocation.of? s'.node
      let method ← (← ((xUnit.contextOf t).resolveCall s).toOption)
      let method' ← (← ((xUnit.contextOf t').resolveCall s').toOption)
      return decide (s.kind = .invocationExpression ∧ s.text ≠ s'.text ∧ method = method' ∧
        s.parent?.map Site.kind = s'.parent?.map Site.kind ∧
        call.callee?.map Node.wording = call'.callee?.map Node.wording ∧
        (∀ a ∈ call.arguments, a.name?.isSome = true) ∧
        (call.arguments.map View.Argument.wording).Perm (call'.arguments.map View.Argument.wording) ∧
        (call.arguments.filter xUnit.isMessage).length ≤ 1 ∧
        (call.arguments.take (xUnit.reads method call)).map View.Argument.wording =
          (call'.arguments.take (xUnit.reads method call)).map View.Argument.wording)) =
      some true := by
    decide +kernel
  simp only [Option.bind_eq_bind, Option.bind_eq_some_iff, Option.pure_def, Option.some.injEq,
    decide_eq_true_eq, toOption_eq_some_iff] at hfacts
  obtain ⟨t, hparse, t', hparse', s, hs, s', hs', call, hcall, call', hcall', _, hmethod, method, rfl,
    _, hmethod', method', rfl, hkind, htext, rfl, hparent, hcallee, hnamed, hperm, hone, hplaces⟩ :=
    hfacts
  have hplace : SamePlace (xUnit.contextOf t) (xUnit.contextOf t') s s' call call' :=
    ⟨rfl, hmethod.trans hmethod'.symm, hparent, hcallee⟩
  refine ⟨t, t', hparse, hparse', s, Tree.mem_sites_of_get? hs, s', Tree.mem_sites_of_get? hs',
    hkind, htext, assertions_ignore_order hcall hcall' hplace hnamed hperm hone fun found hfound => ?_⟩
  cases hmethod.symm.trans hfound
  exact hplaces

/-- The two values are taken by their place, so naming the actual one first turns the comparison
    around. -/
theorem not_ignores_order :
    ∃ t t', Tree.parse (comparisonOf "expected: 4, actual: x") = .ok t ∧
      Tree.parse (comparisonOf "actual: x, expected: 4") = .ok t' ∧
      ∃ s ∈ t.sites, ∃ s' ∈ t'.sites, ∃ call call' p p',
        View.Invocation.of? s.node = some call ∧ View.Invocation.of? s'.node = some call' ∧
        SamePlace (xUnit.contextOf t) (xUnit.contextOf t') s s' call call' ∧
        (∀ a ∈ call.arguments, a.name?.isSome = true) ∧
        (call.arguments.map View.Argument.wording).Perm (call'.arguments.map View.Argument.wording) ∧
        xUnit.strategy.assertion (xUnit.contextOf t) s = .ok (some p) ∧
        xUnit.strategy.assertion (xUnit.contextOf t') s' = .ok (some p') ∧
        p.change.replacement = "await Assert.That(x).IsEqualTo(4)" ∧
        p'.change.replacement = "await Assert.That(4).IsEqualTo(x)" := by
  have hfacts : (do
      let t ← (Tree.parse (comparisonOf "expected: 4, actual: x")).toOption
      let t' ← (Tree.parse (comparisonOf "actual: x, expected: 4")).toOption
      let s ← t.get? [1, 4, 4, 1, 0]
      let s' ← t'.get? [1, 4, 4, 1, 0]
      let call ← View.Invocation.of? s.node
      let call' ← View.Invocation.of? s'.node
      let method ← (← ((xUnit.contextOf t).resolveCall s).toOption)
      let method' ← (← ((xUnit.contextOf t').resolveCall s').toOption)
      let p ← (← (xUnit.strategy.assertion (xUnit.contextOf t) s).toOption)
      let p' ← (← (xUnit.strategy.assertion (xUnit.contextOf t') s').toOption)
      return decide (method = method' ∧ s.parent?.map Site.kind = s'.parent?.map Site.kind ∧
        call.callee?.map Node.wording = call'.callee?.map Node.wording ∧
        (∀ a ∈ call.arguments, a.name?.isSome = true) ∧
        (call.arguments.map View.Argument.wording).Perm (call'.arguments.map View.Argument.wording) ∧
        p.change.replacement = "await Assert.That(x).IsEqualTo(4)" ∧
        p'.change.replacement = "await Assert.That(4).IsEqualTo(x)")) = some true := by
    decide +kernel
  obtain ⟨t, hparse, h⟩ := Option.bind_eq_some_iff.1 hfacts
  obtain ⟨t', hparse', h⟩ := Option.bind_eq_some_iff.1 h
  obtain ⟨s, hs, h⟩ := Option.bind_eq_some_iff.1 h
  obtain ⟨s', hs', h⟩ := Option.bind_eq_some_iff.1 h
  obtain ⟨call, hcall, h⟩ := Option.bind_eq_some_iff.1 h
  obtain ⟨call', hcall', h⟩ := Option.bind_eq_some_iff.1 h
  obtain ⟨_, hmethod, h⟩ := Option.bind_eq_some_iff.1 h
  obtain ⟨method, hsome, h⟩ := Option.bind_eq_some_iff.1 h
  obtain ⟨_, hmethod', h⟩ := Option.bind_eq_some_iff.1 h
  obtain ⟨method', hsome', h⟩ := Option.bind_eq_some_iff.1 h
  obtain ⟨_, hp, h⟩ := Option.bind_eq_some_iff.1 h
  obtain ⟨p, hanswer, h⟩ := Option.bind_eq_some_iff.1 h
  obtain ⟨_, hp', h⟩ := Option.bind_eq_some_iff.1 h
  obtain ⟨p', hanswer', h⟩ := Option.bind_eq_some_iff.1 h
  obtain ⟨rfl, hparent, hcallee, hnamed, hperm, htexts⟩ := of_decide_eq_true (Option.some.inj h)
  rw [toOption_eq_some_iff] at hparse hparse' hmethod hmethod' hp hp'
  subst hsome hsome' hanswer hanswer'
  have hplace : SamePlace (xUnit.contextOf t) (xUnit.contextOf t') s s' call call' :=
    ⟨rfl, hmethod.trans hmethod'.symm, hparent, hcallee⟩
  exact ⟨t, t', hparse, hparse', s, Tree.mem_sites_of_get? hs, s', Tree.mem_sites_of_get? hs', call,
    call', p, p', hcall, hcall', hplace, hnamed, hperm, hp, hp', htexts⟩

end Framework

end Recast
