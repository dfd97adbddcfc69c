-- SUMMARY: The part of a text that a span covers, when the span starts and stops between characters.
import Recast.Source.Span
import Recast.Text.Basic

/-! # Slices

Spans count bytes, texts are made of characters. A slice is the text between two offsets; there is
none when an offset lies inside of a character or behind the end. -/

namespace Recast

namespace Text

theorem byteSize_toList (text : String) : byteSize text.toList = text.utf8ByteSize := by
  have hlist : ∀ cs : List Char, byteSize cs = (String.ofList cs).utf8ByteSize := by
    intro cs
    induction cs with
    | nil => rfl
    | cons c cs ih =>
      have hsplit : String.ofList (c :: cs) = String.singleton c ++ String.ofList cs := by
        rw [String.singleton_eq_ofList, ← String.ofList_append, List.singleton_append]
      rw [hsplit, String.utf8ByteSize_append, String.utf8ByteSize_singleton, byteSize_cons, ih]
  rw [hlist, String.ofList_toList]

/-- A list of characters cut in two after so many bytes, which has to be between characters. -/
def cut? : (bytes : Nat) → List Char → Option (List Char × List Char)
  | 0, cs => some ([], cs)
  | _ + 1, [] => none
  | bytes + 1, c :: cs =>
    if c.utf8Size ≤ bytes + 1 then
      (cut? (bytes + 1 - c.utf8Size) cs).map fun (head, rest) => (c :: head, rest)
    else none

theorem cut?_byteSize_append (head rest : List Char) :
    cut? (byteSize head) (head ++ rest) = some (head, rest) := by
  induction head with
  | nil => cases rest <;> rfl
  | cons c head ih =>
    obtain ⟨bytes, hbytes⟩ : ∃ bytes, byteSize (c :: head) = bytes + 1 :=
      Nat.exists_eq_succ_of_ne_zero (by have := c.utf8Size_pos; rw [byteSize_cons]; omega)
    have hleft : bytes + 1 - c.utf8Size = byteSize head := by
      rw [← hbytes, byteSize_cons, Nat.add_sub_cancel_left]
    have hfits : c.utf8Size ≤ bytes + 1 := hbytes ▸ Nat.le_add_right _ _
    rw [hbytes, List.cons_append, cut?, if_pos hfits, hleft, ih]
    rfl

theorem eq_append_of_cut? {bytes : Nat} {cs head rest : List Char}
    (h : cut? bytes cs = some (head, rest)) : cs = head ++ rest ∧ byteSize head = bytes := by
  fun_induction cut? bytes cs generalizing head with
  | case1 cs =>
    obtain ⟨rfl, rfl⟩ := Prod.mk.inj (Option.some.inj h)
    exact ⟨rfl, rfl⟩
  | case2 bytes => cases h
  | case3 bytes c cs hfits ih =>
    obtain ⟨⟨head', rest'⟩, hcut, heq⟩ := Option.map_eq_some_iff.1 h
    obtain ⟨rfl, rfl⟩ := Prod.mk.inj heq
    obtain ⟨rfl, hsize⟩ := ih hcut
    exact ⟨rfl, by rw [byteSize_cons, hsize]; omega⟩
  | case4 bytes c cs hfits => cases h

end Text

/-- The part of a text in a span. -/
def Span.slice? (s : Span) (source : String) : Option String :=
  (Text.cut? s.stop source.toList).bind fun (head, _) =>
    (Text.cut? s.start head).map fun (_, inside) => String.ofList inside

/-- A slice is the text between what is in front of the start and what is behind the stop. -/
theorem Span.slice?_eq_some_iff {s : Span} {source text : String} :
    s.slice? source = some text ↔ ∃ before after, source = before ++ text ++ after ∧
      before.utf8ByteSize = s.start ∧ (before ++ text).utf8ByteSize = s.stop := by
  unfold slice?
  constructor
  · intro h
    obtain ⟨⟨head, after⟩, hhead, h⟩ := Option.bind_eq_some_iff.1 h
    obtain ⟨⟨before, inside⟩, hbefore, rfl⟩ := Option.map_eq_some_iff.1 h
    obtain ⟨hsource, hstop⟩ := Text.eq_append_of_cut? hhead
    obtain ⟨rfl, hstart⟩ := Text.eq_append_of_cut? hbefore
    refine ⟨String.ofList before, String.ofList after, ?_, ?_, ?_⟩
    · rw [← String.toList_inj, hsource]
      simp
    · rw [← Text.byteSize_toList, String.toList_ofList, hstart]
    · rw [← Text.byteSize_toList, ← String.ofList_append, String.toList_ofList, hstop]
  · rintro ⟨before, after, rfl, hstart, hstop⟩
    have hhead : Text.cut? s.stop (before ++ text ++ after).toList =
        some ((before ++ text).toList, after.toList) := by
      rw [← hstop, ← Text.byteSize_toList, String.toList_append (s := before ++ text)]
      exact Text.cut?_byteSize_append _ _
    have hbefore : Text.cut? s.start (before ++ text).toList =
        some (before.toList, text.toList) := by
      rw [← hstart, ← Text.byteSize_toList, String.toList_append]
      exact Text.cut?_byteSize_append _ _
    simp only [hhead, Option.bind_some, hbefore, Option.map_some, String.ofList_toList]

end Recast
