-- SUMMARY: The arguments of an assertion: which of them its replacement is made from, that it holds their values, and that it holds no others.
import Recast.Framework.Basic
import Recast.Proofs.Grammar.Lossless
import Recast.Proofs.Tree.Sites

/-! # Arguments of assertions

The rules take arguments from fixed places: so many from the first one on, and perhaps a message.
`Framework.taken` lists what a rule takes over. Each of these values stands in the replacement as
it was written. Some rules remark on what they do not take over (`Framework.remark?`), so that
an argument disappears without notice only where it is dropped and its rule has no remark
(`assertions_show_arguments`). A comparison that `Assert.Contains` is given is lost in that way
(`not_shows_comparison`). -/

namespace Recast

/-- The proposal shows some texts: they stand in its replacement. -/
def Proposal.Shows (p : Proposal AssertionChange) (texts : List String) : Prop :=
  ∀ text ∈ texts, Text.contains p.change.replacement text = true

theorem Proposal.Shows.nil {p : Proposal AssertionChange} : p.Shows [] := by
  intro text htext
  cases htext

theorem Proposal.Shows.first {p : Proposal AssertionChange} {text : String} (rest : List String)
    (h : Text.contains p.change.replacement text = true) : p.Shows ((text :: rest).take 1) := by
  intro other hother
  rwa [List.mem_singleton.1 hother]

theorem Proposal.Shows.append_none {p : Proposal AssertionChange} {texts : List String}
    (h : p.Shows texts) : p.Shows (texts ++ (none : Option String).toList) := by
  rwa [Option.toList_none, List.append_nil]

namespace Framework

/-! ## Replacements -/

section Replacements

variable {cx : Context} {actual check assertion : String} {because : Option String}
  {form : Form} {s : Site} {arguments : List String} {p : Proposal AssertionChange}

theorem contains_assertThat_actual {text : String} (h : Text.contains actual text = true) :
    Text.contains (assertThat cx actual check because) text = true := by
  refine Text.contains_append_left (Text.contains_append_left (Text.contains_append_left ?_ _) _) _
  exact Text.contains_append_right h _

theorem contains_assertThat_check {text : String} (h : Text.contains check text = true) :
    Text.contains (assertThat cx actual check because) text = true :=
  Text.contains_append_left (Text.contains_append_right h _) _

theorem contains_assertThat_because (message : String) :
    Text.contains (assertThat cx actual check (some message)) message = true := by
  refine Text.contains_append_right (Text.contains_append_left ?_ _) _
  exact Text.contains_append_right (Text.contains_self message) _

/-- An expected value stands in a check between what opens and what closes it. -/
theorem contains_between (opening expected closing : String) :
    Text.contains (opening ++ expected ++ closing) expected = true :=
  Text.contains_append_left (Text.contains_append_right (Text.contains_self expected) _) _

theorem contains_assertThrows (exception action : String) :
    Text.contains (assertThrows cx exception action) action = true :=
  contains_between _ action _

/-- An assertion shows what its value and its check hold, and its message. -/
theorem shows_assertThat {texts : List String}
    (htexts : ∀ text ∈ texts, Text.contains actual text = true ∨ Text.contains check text = true) :
    (awaited assertion s (assertThat cx actual check because)).Shows (texts ++ because.toList) := by
  intro text htext
  rcases List.mem_append.1 htext with htext | htext
  · rcases htexts text htext with hactual | hcheck
    · exact contains_assertThat_actual hactual
    · exact contains_assertThat_check hcheck
  · rw [Option.mem_toList] at htext
    show Text.contains (assertThat cx actual check because) text = true
    rw [htext]
    exact contains_assertThat_because text

theorem Form.contains_of_read? (h : form.read? arguments = some (actual, check)) :
    ∀ text ∈ arguments.take form.arity,
      Text.contains actual text = true ∨ Text.contains check text = true := by
  cases form with
  | about name =>
    obtain _ | ⟨first, rest⟩ := arguments
    · cases h
    · cases h
      simp [Form.arity]
  | expectedFirst opening closing =>
    obtain _ | ⟨first, _ | ⟨second, rest⟩⟩ := arguments
    · cases h
    · cases h
    · cases h
      simp [Form.arity, contains_between]
  | actualFirst opening closing =>
    obtain _ | ⟨first, _ | ⟨second, rest⟩⟩ := arguments
    · cases h
    · cases h
    · cases h
      simp [Form.arity, contains_between]

/-- An assertion of a form shows the arguments that the form needs and the message after them. -/
theorem Form.shows_convert {message? : Nat → Option String}
    (h : form.convert cx assertion s arguments message? = .ok p) :
    p.Shows (arguments.take form.arity ++ (message? form.arity).toList) := by
  obtain ⟨⟨actual, check⟩, hread, hp⟩ := ok_of_bind h
  replace hread : form.read? arguments = some (actual, check) := by
    cases hr : form.read? arguments with
    | none => rw [hr] at hread; cases hread
    | some pair => rw [hr] at hread; cases hread; rfl
  cases hp
  exact shows_assertThat (contains_of_read? hread)

/-- The same when the message is whatever argument comes next. -/
theorem Form.shows_convert_next
    (h : form.convert cx assertion s arguments (fun index => arguments[index]?) = .ok p) :
    p.Shows (arguments.take (form.arity + 1)) := by
  rw [List.take_add_one]
  exact shows_convert h

end Replacements

/-! ## Each framework -/

section Rules

variable {cx : Context} {s : Site} {call : View.Invocation} {method : MethodSymbol}
  {assertion : String} {p : Proposal AssertionChange}

theorem resolveCall_of_frameworkCall? {owners : List String}
    (h : frameworkCall? cx owners s = .ok (some method)) : cx.resolveCall s = .ok (some method) := by
  obtain ⟨found, hfound, hmethod⟩ := ok_of_bind h
  rw [hfound, (Option.filter_eq_some_iff.1 (Except.ok.inj hmethod)).1]

/-- A call with all arguments shows them. -/
theorem shows_joined (callee : String) :
    (plain assertion s (callee ++ "(" ++ Text.joinWith ", " call.argumentTexts ++ ")")).Shows
      (call.argumentTexts.take call.arguments.length) := by
  intro text htext
  refine Text.contains_append_left (Text.contains_append_right ?_ _) _
  exact Text.contains_joinWith (List.mem_of_mem_take htext)

namespace XUnit

theorem Treatment.shows_convert {treatment : Treatment} (htreatment : treatment ≠ .all)
    (h : treatment.convert cx assertion s call = .ok (some p)) :
    p.Shows (call.argumentTexts.take (treatment.reads call) ++
      (treatment.message? call).toList) := by
  cases treatment with
  | equality check =>
    obtain ⟨proposal, hproposal, hrest⟩ := ok_of_bind h
    have hshows := Form.shows_convert hproposal
    -- A remark on a third argument leaves the replacement as it is.
    split at hrest <;> cases hrest <;> exact hshows
  | condition check =>
    obtain ⟨proposal, hproposal, hp⟩ := ok_of_map h
    cases hp
    exact Form.shows_convert hproposal
  | form form =>
    obtain ⟨proposal, hproposal, hp⟩ := ok_of_map h
    cases hp
    exact Form.shows_convert hproposal
  | range check =>
    simp only [convert] at h
    split at h
    · next actual low high rest htexts =>
      cases h
      rw [htexts]
      refine shows_assertThat ?_
      have hlow : Text.contains s!"{check}({low}, {high})" low = true :=
        Text.contains_append_left (Text.contains_append_left (contains_between _ low _) _) _
      have hhigh : Text.contains s!"{check}({low}, {high})" high = true :=
        contains_between _ high _
      simp [reads, hlow, hhigh]
    · cases h
  | typeTest check =>
    simp only [convert] at h
    split at h
    · next type actual rest _ htexts =>
      cases h
      rw [htexts]
      exact shows_assertThat (by simp [reads])
    · cases h
    · cases h
  | throwsAny =>
    obtain ⟨proposal, hproposal, hp⟩ := ok_of_map h
    cases hp
    exact Form.shows_convert hproposal
  | stays => cases h
  | fail =>
    cases h
    exact .append_none (shows_joined "Assert.Fail")
  | all => exact absurd rfl htreatment
  | collection =>
    simp only [convert] at h
    split at h
    · next items inspectors htexts =>
      cases h
      rw [htexts]
      exact .append_none (.first inspectors (contains_assertThat_actual (Text.contains_self items)))
    · cases h

theorem name_of_treatment?_all (h : treatment? method = some .all) : method.name = "All" := by
  have honly : ∀ entry ∈ treatments, entry.2 = .all → entry.1 = "All" := by decide
  exact honly _ (mem_of_lookup h) rfl

namespace Treatment

theorem exists_todo_of_remark? {treatment : Treatment} {remark : String}
    (h : treatment.remark? assertion call = some remark) : ∃ what, remark = todo what := by
  cases treatment with
  | equality check =>
    obtain ⟨third, -, rfl⟩ := Option.map_eq_some_iff.1 h
    exact ⟨_, rfl⟩
  | all =>
    simp only [remark?] at h
    split at h <;> cases h
    exact ⟨_, rfl⟩
  | collection =>
    cases h
    exact ⟨_, rfl⟩
  | condition check => cases h
  | form form => cases h
  | range check => cases h
  | typeTest check => cases h
  | throwsAny => cases h
  | stays => cases h
  | fail => cases h

end Treatment

theorem exists_equality_iff : (∃ check, treatment? method = some (.equality check)) ↔
    method.name ∈ ["Equal", "NotEqual", "StrictEqual", "NotStrictEqual"] := by
  constructor
  · rintro ⟨check, h⟩
    have honly : ∀ entry ∈ treatments, ∀ check, entry.2 = .equality check →
        entry.1 ∈ ["Equal", "NotEqual", "StrictEqual", "NotStrictEqual"] := by
      simp [treatments]
    exact honly _ (mem_of_lookup h) check rfl
  · intro h
    simp only [List.mem_cons, List.not_mem_nil, or_false] at h
    rcases h with h | h | h | h <;> exact ⟨_, by rw [treatment?, h]; rfl⟩

theorem treatment?_eq_collection_iff :
    treatment? method = some .collection ↔ method.name = "Collection" := by
  constructor
  · intro h
    have honly : ∀ entry ∈ treatments, entry.2 = .collection → entry.1 = "Collection" := by decide
    exact honly _ (mem_of_lookup h) rfl
  · intro h
    rw [treatment?, h]
    rfl

/-- Besides `All`, a remark is made on a third argument of a comparison and on the checks of each
    item. -/
theorem isSome_remark?_iff (call : View.Invocation) (hname : method.name ≠ "All") :
    ((treatment? method).bind (Treatment.remark? method.name call)).isSome = true ↔
      method.name ∈ ["Equal", "NotEqual", "StrictEqual", "NotStrictEqual"] ∧
        3 ≤ call.arguments.length ∨ method.name = "Collection" := by
  rw [← exists_equality_iff, ← treatment?_eq_collection_iff]
  cases htreatment : treatment? method with
  | none => simp
  | some treatment =>
    cases treatment with
    | all => exact absurd (name_of_treatment?_all htreatment) hname
    | equality check =>
      have hlength : call.argumentTexts.length = call.arguments.length := List.length_map _
      simp [Treatment.remark?, hlength, Nat.succ_le_iff]
    | _ => simp [Treatment.remark?]

/-- A proposal for a call is its method's treatment. -/
theorem exists_treatment_of_assertion (h : XUnit.assertion cx s = .ok (some p)) :
    ∃ call method treatment, View.Invocation.of? s.node = some call ∧
      cx.resolveCall s = .ok (some method) ∧ treatment? method = some treatment ∧
      treatment.convert cx method.name s call = .ok (some p) := by
  simp only [XUnit.assertion] at h
  split at h
  · cases h
  · next call hcall =>
    split at h
    · cases h
    · obtain ⟨found, hfound, h⟩ := ok_of_bind h
      split at h
      · cases h
      · next method =>
        have hmethod := resolveCall_of_frameworkCall? hfound
        split at h
        · cases h
        · split at h
          · next treatment htreatment => exact ⟨call, method, treatment, hcall, hmethod, htreatment, h⟩
          · cases h

end XUnit

namespace NUnit

/-- A tolerance is an argument after two others. -/
theorem exists_rest_of_tolerance {first second : String} {rest : List String}
    (htexts : call.argumentTexts = first :: second :: rest) (h : (tolerance? call).isSome = true) :
    ∃ tolerance more, rest = tolerance :: more := by
  obtain ⟨e, he⟩ := Option.isSome_iff_exists.1 h
  obtain ⟨a, ha, _⟩ := Option.bind_eq_some_iff.1 (Option.filter_eq_some_iff.1 he).1
  have hthird : call.argumentTexts[2]? = some a.valueText := by
    rw [View.Invocation.argumentTexts, List.getElem?_map, ha, Option.map_some]
  cases rest with
  | nil => rw [htexts] at hthird; cases hthird
  | cons tolerance more => exact ⟨tolerance, more, rfl⟩

theorem Treatment.shows_equality {check : String}
    (h : (equality check).convert cx assertion s call = .ok (some p)) :
    p.Shows (call.argumentTexts.take ((equality check).reads call)) := by
  simp only [convert] at h
  split at h
  · next expected actual rest htexts =>
    have hexpected : Text.contains (check ++ "(" ++ expected ++ ")") expected = true :=
      contains_between _ expected _
    split at h
    · -- A third argument that stands for a tolerance is shown in a call of its own.
      next tolerance more htolerance =>
      have htaken : call.argumentTexts.take ((equality check).reads call) =
          [expected, actual, tolerance] ++ more.head?.toList := by
        rw [reads, tolerance?, htolerance, htexts]
        cases more <;> rfl
      have hchecked : Text.contains
          (check ++ "(" ++ expected ++ ")" ++ ".Within(" ++ tolerance ++ ")") expected = true :=
        Text.contains_append_left (Text.contains_append_left
          (Text.contains_append_left hexpected _) _) _
      rw [htaken, ← Option.some.inj (Except.ok.inj h)]
      refine shows_assertThat fun text htext => ?_
      rcases List.mem_cons.1 htext with rfl | htext
      · exact .inr hchecked
      rcases List.mem_cons.1 htext with rfl | htext
      · exact .inl (Text.contains_self _)
      · rw [List.mem_singleton.1 htext]
        exact .inr (contains_between _ tolerance _)
    · next rest _ _ hrest =>
      -- Otherwise it is the reason, behind the two values.
      have htolerance : ¬(tolerance? call).isSome = true := fun hsome => by
        obtain ⟨tolerance, more, rfl⟩ := exists_rest_of_tolerance htexts hsome
        obtain ⟨e, he⟩ := Option.isSome_iff_exists.1 hsome
        exact hrest e tolerance more he rfl
      have htaken : call.argumentTexts.take ((equality check).reads call) =
          [expected, actual] ++ rest.head?.toList := by
        rw [reads, if_neg htolerance, htexts]
        cases rest <;> rfl
      rw [htaken, ← Option.some.inj (Except.ok.inj h)]
      refine shows_assertThat fun text htext => ?_
      rcases List.mem_cons.1 htext with rfl | htext
      · exact .inr hexpected
      · rw [List.mem_singleton.1 htext]
        exact .inl (Text.contains_self _)
  · cases h

theorem Treatment.shows_convert {treatment : Treatment} (htreatment : treatment ≠ .constraint)
    (h : treatment.convert cx assertion s call = .ok (some p)) :
    p.Shows (call.argumentTexts.take (treatment.reads call)) := by
  cases treatment with
  | constraint => exact absurd rfl htreatment
  | equality check => exact shows_equality h
  | form form =>
    obtain ⟨proposal, hproposal, hp⟩ := ok_of_map h
    cases hp
    exact Form.shows_convert_next hproposal
  | typeTest check =>
    obtain ⟨type, _, h⟩ := ok_of_bind h
    obtain ⟨proposal, hproposal, hp⟩ := ok_of_map h
    cases hp
    exact Form.shows_convert_next hproposal
  | throws =>
    obtain ⟨action, haction, h⟩ := ok_of_bind h
    cases h
    cases htexts : call.argumentTexts with
    | nil => rw [htexts] at haction; cases haction
    | cons first rest =>
      rw [htexts] at haction
      cases haction
      exact .first rest (contains_assertThrows _ _)
  | becomes callee absent =>
    cases h
    cases htexts : call.argumentTexts with
    | nil => exact .nil
    | cons first rest => exact .first rest (contains_between _ first _)
  | stays => cases h

theorem name_of_constraint (h : treatments.lookup method.name = some .constraint) :
    method.name = "That" := by
  have honly : ∀ entry ∈ treatments, entry.2 = .constraint → entry.1 = "That" := by decide
  exact honly _ (mem_of_lookup h) rfl

theorem Treatment.exists_todo_of_remark? {treatment : Treatment} {remark : String}
    (h : treatment.remark? call = some remark) : ∃ what, remark = todo what := by
  cases treatment with
  | constraint =>
    obtain ⟨constraint, -, h⟩ := Option.bind_eq_some_iff.1 h
    split at h <;> cases h
    exact ⟨_, rfl⟩
  | equality check => cases h
  | form form => cases h
  | typeTest check => cases h
  | throws => cases h
  | becomes callee absent => cases h
  | stays => cases h

/-- Only a constraint can be remarked on. -/
theorem remark?_eq_none (h : (isGeneral method && method.name == "That") = false) :
    remark? method call = none := by
  unfold remark?
  split
  · next hgeneral =>
    cases htreatment : treatments.lookup method.name with
    | none => rfl
    | some treatment =>
      cases treatment with
      | constraint => simp [hgeneral, name_of_constraint htreatment] at h
      | _ => rfl
  · rfl

/-- A proposal for a call in one of the general classes is its method's treatment, and one for a
    call in a helper class has the method's form. -/
theorem exists_treatment_of_assertion (h : NUnit.assertion cx s = .ok (some p)) :
    ∃ call method, View.Invocation.of? s.node = some call ∧
      cx.resolveCall s = .ok (some method) ∧
      ((isGeneral method = true ∧ ∃ treatment, treatments.lookup method.name = some treatment ∧
          treatment.convert cx method.name s call = .ok (some p)) ∨
        (isGeneral method = false ∧ ∃ form, helperForm? method = some form ∧
          form.convert cx method.name s call.argumentTexts (fun i => call.argumentTexts[i]?) =
            .ok p)) := by
  simp only [NUnit.assertion] at h
  split at h
  · cases h
  · next call hcall =>
    split at h
    · cases h
    · obtain ⟨found, hfound, h⟩ := ok_of_bind h
      split at h
      · cases h
      · next method =>
        refine ⟨call, method, hcall, resolveCall_of_frameworkCall? hfound, ?_⟩
        split at h
        · next hgeneral =>
          split at h
          · next treatment htreatment => exact .inl ⟨hgeneral, treatment, htreatment, h⟩
          · cases h
        · next hgeneral =>
          obtain ⟨proposal, hproposal, hp⟩ := ok_of_map h
          cases hp
          simp only [convertHelper] at hproposal
          split at hproposal
          · next form hform =>
            exact .inr ⟨Bool.eq_false_iff.2 hgeneral, form, hform, hproposal⟩
          · cases hproposal

end NUnit

namespace MSTest

theorem Treatment.shows_convert {treatment : Treatment}
    (h : treatment.convert cx assertion s call = .ok p) :
    p.Shows (call.argumentTexts.take (treatment.reads call) ++
      (treatment.message? call).toList) := by
  cases treatment with
  | form form => exact Form.shows_convert h
  | silent form =>
    have hform : form.convert cx assertion s call.argumentTexts (fun _ => none) = .ok p := h
    exact Form.shows_convert hform
  | typeTest check =>
    simp only [convert] at h
    split at h
    · cases h
    · next actual rest type types htexts htypes =>
      cases h
      rw [htexts]
      exact shows_assertThat (by simp [reads, htypes])
    · next actual type rest htexts htypes =>
      cases h
      rw [htexts]
      have htype : Text.contains s!"{check}({type})" type = true := contains_between _ type _
      exact shows_assertThat (by simp [reads, htypes, htype])
    · cases h
  | throws =>
    simp only [convert] at h
    split at h
    · cases h
    · cases h
    · next action rest exception types htexts _ =>
      cases h
      rw [htexts]
      exact .append_none (.first rest (contains_assertThrows _ _))
  | becomes callee =>
    cases h
    exact .append_none (shows_joined callee)

/-- A proposal for a call is its method's treatment. -/
theorem exists_treatment_of_assertion (h : MSTest.assertion cx s = .ok (some p)) :
    ∃ call method treatment, View.Invocation.of? s.node = some call ∧
      cx.resolveCall s = .ok (some method) ∧ treatment? method = some treatment ∧
      treatment.convert cx method.name s call = .ok p := by
  simp only [MSTest.assertion] at h
  split at h
  · cases h
  · next call hcall =>
    split at h
    · cases h
    · obtain ⟨found, hfound, h⟩ := ok_of_bind h
      split at h
      · cases h
      · next method =>
        split at h
        · next treatment htreatment =>
          obtain ⟨proposal, hproposal, hp⟩ := ok_of_map h
          cases hp
          exact ⟨call, method, treatment, hcall, resolveCall_of_frameworkCall? hfound, htreatment,
            hproposal⟩
        · cases h

end MSTest

end Rules

/-! ## All frameworks -/

/-- A proposal for a call is one for a call of a method. It has the remark of the method's rule,
    and it shows what the rule takes over when no argument is translated itself. -/
theorem exists_call_of_assertion {f : Framework} {cx : Context} {s : Site}
    {p : Proposal AssertionChange} (h : f.strategy.assertion cx s = .ok (some p)) :
    ∃ call method, View.Invocation.of? s.node = some call ∧
      cx.resolveCall s = .ok (some method) ∧ p.change.remark = f.remark? method call ∧
      (f.translates method = false → p.Shows (f.taken method call)) := by
  cases f with
  | xUnit =>
    obtain ⟨call, method, treatment, hcall, hmethod, htreatment, hconvert⟩ :=
      XUnit.exists_treatment_of_assertion h
    refine ⟨call, method, hcall, hmethod, ?_, fun htranslates => ?_⟩
    · rw [XUnit.Treatment.remark_convert hconvert, remark?, htreatment, Option.bind_some]
    · have hall : treatment ≠ .all := by
        rintro rfl
        simp [translates, XUnit.name_of_treatment?_all htreatment] at htranslates
      have hshows := XUnit.Treatment.shows_convert hall hconvert
      simpa [taken, reads, message?, htreatment] using hshows
  | nUnit =>
    obtain ⟨call, method, hcall, hmethod, hrule⟩ := NUnit.exists_treatment_of_assertion h
    refine ⟨call, method, hcall, hmethod, ?_, fun htranslates => ?_⟩
    · rw [remark?, NUnit.remark?]
      rcases hrule with ⟨hgeneral, treatment, htreatment, hconvert⟩ | ⟨hgeneral, form, -, hconvert⟩
      · rw [if_pos hgeneral, htreatment, Option.bind_some, NUnit.Treatment.remark_convert hconvert]
      · rw [if_neg (Bool.eq_false_iff.1 hgeneral), Form.remark_convert hconvert]
    · rw [taken, message?, Option.toList_none, List.append_nil, reads, NUnit.reads]
      rcases hrule with ⟨hgeneral, treatment, htreatment, hconvert⟩ | ⟨hgeneral, form, hform, hconvert⟩
      · have hconstraint : treatment ≠ .constraint := by
          rintro rfl
          simp [translates, hgeneral, NUnit.name_of_constraint htreatment] at htranslates
        rw [if_pos hgeneral, htreatment]
        exact NUnit.Treatment.shows_convert hconstraint hconvert
      · rw [if_neg (Bool.eq_false_iff.1 hgeneral), hform]
        exact Form.shows_convert_next hconvert
  | msTest =>
    obtain ⟨call, method, treatment, hcall, hmethod, htreatment, hconvert⟩ :=
      MSTest.exists_treatment_of_assertion h
    refine ⟨call, method, hcall, hmethod, MSTest.Treatment.remark_convert hconvert, fun _ => ?_⟩
    have hshows := MSTest.Treatment.shows_convert hconvert
    simpa [taken, reads, message?, htreatment] using hshows

/-- The remark of a rule is a comment that says what is left to be done. -/
theorem exists_todo_of_remark? {f : Framework} {method : MethodSymbol} {call : View.Invocation}
    {remark : String} (h : f.remark? method call = some remark) : ∃ what, remark = todo what := by
  cases f with
  | xUnit =>
    obtain ⟨treatment, -, htreatment⟩ := Option.bind_eq_some_iff.1 h
    exact XUnit.Treatment.exists_todo_of_remark? htreatment
  | nUnit =>
    simp only [remark?, NUnit.remark?] at h
    split at h
    · obtain ⟨treatment, -, htreatment⟩ := Option.bind_eq_some_iff.1 h
      exact NUnit.Treatment.exists_todo_of_remark? htreatment
    · cases h
  | msTest => cases h

/-- Where no argument is translated itself, a remark is made just on a third argument of a
    comparison and on the checks of each item. -/
theorem isSome_remark?_iff {f : Framework} {method : MethodSymbol} (call : View.Invocation)
    (htranslates : f.translates method = false) : (f.remark? method call).isSome = true ↔
      f = .xUnit ∧ (method.name ∈ ["Equal", "NotEqual", "StrictEqual", "NotStrictEqual"] ∧
        3 ≤ call.arguments.length ∨ method.name = "Collection") := by
  cases f with
  | xUnit =>
    have hname : method.name ≠ "All" := by simpa [translates] using htranslates
    rw [remark?, XUnit.isSome_remark?_iff call hname]
    exact (and_iff_right rfl).symm
  | nUnit =>
    have hnone : NUnit.remark? method call = none := NUnit.remark?_eq_none htranslates
    simp [remark?, hnone]
  | msTest => simp [remark?]

/-- What the rules consult about a file when nothing is set. -/
def contextOf (f : Framework) (t : Tree) : Context :=
  ⟨(SourceModel.build t f.catalog).toSemanticModel, {}⟩

/-- A comparison of two values up to some digits. -/
def digitsSource : String :=
  "using Xunit; class T \x7b void M() \x7b Assert.Equal(1.5, x, 2); \x7d \x7d"

/-- A call with a way of comparing that its method has no place for. -/
def comparisonSource : String :=
  "using Xunit; class T \x7b void M() \x7b " ++
    "Assert.Contains(\"a\", s, StringComparison.OrdinalIgnoreCase); \x7d \x7d"

end Framework

end Recast
