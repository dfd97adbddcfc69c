-- SUMMARY: A type that stands in a file can be read again where it is wrapped, and what is read then is wrapped.
import Recast.Proofs.Analysis.Awaiting
import Recast.Proofs.Grammar.Placement
import Recast.Proofs.Grammar.Tiling

/-! # Wrapped types

The return type of a method is wrapped by reading its text again in angle brackets
(`Fragment.exists_wrapped`). What a text was read as starts like the text, so the type that is read
is a wrapper again (`Settings.isWrapped_append`), and one that was read from another name is
not. -/

namespace Recast

/-! ## Text -/

theorem Text.startsWith_append (head rest : String) : startsWith (head ++ rest) head = true := by
  rw [startsWith, after?_eq_some_iff.2 rfl]
  rfl

theorem Text.after?_eq_none {head text : String} (h : dropHead? head.toList text.toList = none) :
    after? head text = none := by
  rw [after?, h]
  rfl

namespace Settings

/-- Whether a type is wrapped, when it is not qualified. -/
theorem isWrapped_of_bare {type : String}
    (hbare : Text.after? "System.Threading.Tasks." type = none) :
    isWrapped {} type = ["Task", "ValueTask"].any fun name =>
      type == name || ((Text.after? name type).map (Text.startsWith · "<")).getD false := by
  have hspace : ({} : Settings).wrapperNamespace ++ "." = "System.Threading.Tasks." := by decide
  rw [isWrapped, hspace, hbare]
  rfl

theorem isWrapped_append (rest : String) : isWrapped {} ("Task" ++ ("<" ++ rest)) = true := by
  have hname : Text.after? "Task" ("Task" ++ ("<" ++ rest)) = some ("<" ++ rest) :=
    Text.after?_eq_some_iff.2 rfl
  rw [isWrapped_of_bare (Text.after?_eq_none (by rw [String.toList_append]; rfl)), List.any_cons,
    hname, Option.map_some, Text.startsWith_append, Option.getD_some, Bool.or_true, Bool.true_or]

/-- A type that starts with the name of a container of rows is not wrapped. -/
theorem isWrapped_rows (rest : String) : isWrapped {} ("TheoryData" ++ rest) = false := by
  have hnone : ∀ head : String, Text.dropHead? head.toList ("TheoryData" ++ rest).toList = none →
      Text.after? head ("TheoryData" ++ rest) = none ∧ ("TheoryData" ++ rest == head) = false := by
    intro head hdrop
    refine ⟨Text.after?_eq_none hdrop, beq_eq_false_iff_ne.2 fun heq => ?_⟩
    rw [heq, Text.dropHead?_eq_some_iff.2 (List.append_nil _).symm] at hdrop
    cases hdrop
  obtain ⟨hbare, -⟩ := hnone "System.Threading.Tasks." (by rw [String.toList_append]; rfl)
  obtain ⟨htask, htask'⟩ := hnone "Task" (by rw [String.toList_append]; rfl)
  obtain ⟨hvalue, hvalue'⟩ := hnone "ValueTask" (by rw [String.toList_append]; rfl)
  rw [isWrapped_of_bare hbare, List.any_cons, List.any_cons, htask, htask', hvalue, hvalue']
  rfl

end Settings

/-! ## What is read of a text -/

namespace Fragment

variable {source : String} {n : Node}

theorem holdsText_of_readType (h : readType source = .ok n) : HoldsText source [n] := by
  have hread : Fragment.type.read source = .ok [n] := by
    show (do return [← readType source]) = _
    rw [h]
    rfl
  exact (readFrom_of_read hread).holdsText

theorem spelled_of_readType (h : readType source = .ok n) : Grammar.Spelled .type n.tokens :=
  of_readAll (A := fun m : Node => Grammar.Spelled .type m.tokens) (fun hg => hg.spelling) h

/-- The text of a type that was read is what its source starts with, when no trivia is there. -/
theorem exists_text_append (h : readType source = .ok n)
    (hstart : Trivia.readLeading source.toList = ([], source.toList)) :
    ∃ more, source = n.text ++ more := by
  obtain ⟨last, hscan, -, -⟩ := holdsText_of_readType h
  rw [List.flatMap_singleton] at hscan
  rcases hts : n.tokens with _ | ⟨t, ts⟩
  · exact ⟨source, by rw [Node.text, hts]; simp [Token.textOf]⟩
  · rw [hts] at hscan
    have hsource := (Token.scanned_of_scan hscan).source_eq
    simp only [Token.scan, hstart, List.cons_append] at hscan
    obtain ⟨_, _, _, _, hleading, -⟩ := Token.scanFrom_eq_ok_cons hscan (by simp)
    have hfinal := List.getLast?_eq_some_getLast (List.cons_ne_nil t ts)
    rw [Token.sourceOf_append, Token.sourceOf_eq_append_textOf rfl hfinal, hleading,
      String.append_assoc, String.append_assoc] at hsource
    rw [Node.text, hts]
    exact ⟨_, hsource.symm.trans (String.empty_append)⟩

/-- A type that was read from a name and more starts like it. -/
theorem exists_text_append_name {name rest : String} (h : readType (name ++ rest) = .ok n)
    (hname : name.toList.head?.any (fun c => !Trivia.starts.contains c) = true) :
    ∃ more, name ++ rest = n.text ++ more := by
  refine exists_text_append h ?_
  obtain ⟨c, hhead, hc⟩ := (Option.any_eq_true _ _).1 hname
  obtain ⟨cs, hcs⟩ := List.head?_eq_some_iff.1 hhead
  rw [String.toList_append, hcs]
  exact Trivia.readLeading_eq_nil (by simpa using hc) _

/-- What is left of a text that starts with a bracket starts with it, unless nothing is. -/
theorem exists_bracket_append {rest left more : String} (h : "<" ++ rest = left ++ more)
    (hleft : left ≠ "") : ∃ inner, left = "<" ++ inner := by
  have hlist : '<' :: rest.toList = left.toList ++ more.toList := by
    rw [← String.toList_append, ← h, String.toList_append]
    rfl
  rcases hcs : left.toList with _ | ⟨c, cs⟩
  · exact absurd (String.toList_injective hcs) hleft
  · rw [hcs] at hlist
    obtain ⟨rfl, -⟩ := List.cons.inj hlist
    exact ⟨String.ofList cs, String.toList_injective (by simp [hcs])⟩

/-- A type that was read from a wrapped text is wrapped. -/
theorem isWrapped_of_readType {type : String} {t u : Token} {ts : List Token}
    (h : readType ("Task<" ++ type ++ ">") = .ok n) (hts : n.tokens = t :: u :: ts)
    (ht : t.text = "Task") (hu : u.text ≠ "") : Settings.isWrapped {} n.text = true := by
  have hsource : "Task<" ++ type ++ ">" = "Task" ++ ("<" ++ (type ++ ">")) := by
    rw [show "Task<" = "Task" ++ "<" from rfl, String.append_assoc, String.append_assoc]
  obtain ⟨rest, hrest⟩ := Token.exists_textOf_cons u ts
  have htext : n.text = "Task" ++ (Trivia.textOf t.trailing ++ (Trivia.textOf u.leading ++
      (u.text ++ rest))) := by
    rw [Node.text, hts, Token.textOf_cons_cons, ht, hrest]
  rw [hsource] at h
  obtain ⟨more, hmore⟩ := exists_text_append_name h (by decide)
  rw [htext, String.append_assoc] at hmore
  obtain ⟨inner, hinner⟩ := exists_bracket_append (String.append_right_inj _ |>.1 hmore) fun hnone =>
    hu (String.append_eq_empty_iff.1 (String.append_eq_empty_iff.1
      (String.append_eq_empty_iff.1 hnone).2).2).1
  rw [htext, hinner]
  exact Settings.isWrapped_append inner

/-- A type that stands in a text can be read again where it is wrapped, and is wrapped then. -/
theorem exists_wrapped {before ts after : List Token}
    (hscan : Token.scan source = .ok (before ++ (ts ++ after))) (hafter : after ≠ [])
    (hts : Grammar.Spelled .type ts) :
    ∃ n, readType ("Task<" ++ Token.textOf ts ++ ">") = .ok n ∧
      Settings.isWrapped {} n.text = true := by
  obtain ⟨n, us, hn, hus, hwords⟩ := Grammar.exists_readType_wrapped hscan hafter hts
  refine ⟨n, hn, ?_⟩
  obtain ⟨last, hheld, -, -⟩ := holdsText_of_readType hn
  rw [List.flatMap_singleton] at hheld
  obtain rfl := Except.ok.inj (hus.symm.trans hheld)
  rw [List.map_append, Token.enclosed] at hwords
  rcases hts : n.tokens with _ | ⟨t, _ | ⟨u, us⟩⟩
  · simp [hts] at hwords
  · simp [hts] at hwords
  · rw [hts] at hwords
    obtain ⟨ht, hwords⟩ := List.cons.inj hwords
    obtain ⟨hu, -⟩ := List.cons.inj hwords
    refine isWrapped_of_readType hn hts (Prod.mk.inj ht).2 ?_
    rw [(Prod.mk.inj hu).2]
    decide

/-- A type that was read can be read again where it is wrapped, and is wrapped then. -/
theorem exists_wrapped_of_readType (h : readType source = .ok n) :
    ∃ m, readType ("Task<" ++ n.text ++ ">") = .ok m ∧ Settings.isWrapped {} m.text = true := by
  obtain ⟨last, hscan, -, -⟩ := holdsText_of_readType h
  rw [List.flatMap_singleton] at hscan
  exact @exists_wrapped source [] n.tokens [last] hscan (List.cons_ne_nil _ _) (spelled_of_readType h)

end Fragment

end Recast
