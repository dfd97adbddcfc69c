-- SUMMARY: Comma-separated lists as rows of marks: what opens a list, its items with one comma between any two, perhaps one more comma, and what closes it.
import Recast.Tree.Node

/-! # Lists

Attributes, base types and parameters stand in lists. What a part shows of itself among its siblings
is a mark, and whether the parts of a list are well separated is seen in their marks alone: a row of
marks is what opens the list, the items with one comma between any two (`Mark.Separated`), perhaps a
comma after the last, and what closes it (`Mark.IsList`).

`Kind.Arranges` says of a node that its parts are arranged as lists need it: its own parts when it is
a list, the list among its parts that holds the parameters of a constructor, and that attributes
and base types stand in their lists alone. -/

namespace Recast

namespace Kind

/-- The kind of the items of a list. -/
def item? : Kind → Option Kind
  | .attributeList => some .attribute
  | .baseList => some .baseType
  | .parameterList => some .parameter
  | _ => none

/-- The list that all items of a kind stand in. Parameters have none, since one may stand alone in
    front of the arrow of a lambda. -/
def list? : Kind → Option Kind
  | .attribute => some .attributeList
  | .baseType => some .baseList
  | _ => none

/-- A declaration whose parameters are those of a constructor: a constructor, or a type with a
    primary one. -/
def isConstructible (kind : Kind) : Bool :=
  kind == .constructorDeclaration || kind.isTypeDeclaration

theorem item?_of_list? {item list : Kind} (h : item.list? = some list) : list.item? = some item := by
  cases item <;> first | (cases h; rfl) | cases h

end Kind

/-! ## Marks -/

/-- What a part shows of itself among its siblings: the kind and the span of a node, the text of a
    token. -/
inductive Mark where
  | node (kind : Kind) (span : Option Span)
  | comma
  | word (text : String)
  deriving DecidableEq

namespace Mark

/-- The kind, when the mark is that of a node. -/
def kind? : Mark → Option Kind
  | .node kind _ => some kind
  | _ => none

/-- Items of a kind with one comma between any two. -/
inductive Separated (item : Kind) : List Mark → Prop where
  | last {span : Option Span} : Separated item [.node item span]
  | more {span : Option Span} {marks : List Mark} (rest : Separated item marks) :
      Separated item (.node item span :: .comma :: marks)

/-- More items after a comma, or nothing. -/
def Continues (item : Kind) (row : List Mark) : Prop :=
  row = [] ∨ ∃ marks, row = .comma :: marks ∧ Separated item marks

/-- Items with perhaps a comma after the last, or nothing. -/
def Open (item : Kind) (row : List Mark) : Prop :=
  row = [] ∨ ∃ items trailing, row = items ++ trailing ∧ Separated item items ∧
    (trailing = [] ∨ trailing = [.comma])

/-- The stretches of a list: what opens it, which may name its target, the items, a comma after the
    last or none, and what closes it. Base types have no comma after the last, and only parameters
    may be none. -/
structure Lists (list : Kind) (opening items trailing closing : List Mark) : Prop where
  opens : ∀ m ∈ opening, m ≠ .comma ∧ ∀ kind ∈ m.kind?, kind = .attributeTargetSpecifier
  separated : items = [] ∨ ∃ item, list.item? = some item ∧ Separated item items
  filled : items = [] → list = .parameterList ∧ trailing = []
  trails : trailing = [] ∨ trailing = [.comma] ∧ list ≠ .baseList
  closes : ∀ m ∈ closing, ∃ text, m = .word text

/-- A list of a kind, with these marks between its items and what closes it. -/
def IsList (list : Kind) (trailing row : List Mark) : Prop :=
  ∃ opening items closing, row = opening ++ items ++ trailing ++ closing ∧
    Lists list opening items trailing closing

theorem IsList.isSome_item? {list : Kind} {trailing row : List Mark}
    (h : IsList list trailing row) : list.item?.isSome = true := by
  obtain ⟨opening, items, closing, -, h⟩ := h
  rcases h.separated with rfl | ⟨item, hitem, -⟩
  · rw [(h.filled rfl).1]
    rfl
  · rw [hitem]
    rfl

/-! ### Items -/

variable {item : Kind} {xs ys marks : List Mark} {m : Mark}

theorem Separated.kind?_eq (h : Separated item marks) (hm : m ∈ marks) :
    m = .comma ∨ m.kind? = some item := by
  induction h with
  | last =>
    obtain rfl := List.mem_singleton.1 hm
    exact .inr rfl
  | more rest ih =>
    rcases List.mem_cons.1 hm with rfl | hm
    · exact .inr rfl
    · rcases List.mem_cons.1 hm with rfl | hm
      · exact .inl rfl
      · exact ih hm

theorem Separated.ne_nil (h : Separated item marks) : marks ≠ [] := by
  cases h <;> simp

/-- Two runs of items with a comma between them. -/
theorem Separated.append (hx : Separated item xs) (hy : Separated item ys) :
    Separated item (xs ++ .comma :: ys) := by
  induction hx with
  | last => exact .more hy
  | more rest ih => exact .more ih

/-- An item cuts a run of items in two, each of which is nothing or ends at a comma there. -/
theorem Separated.split (h : Separated item (xs ++ m :: ys)) (hm : m.kind? = some item) :
    (xs = [] ∨ ∃ xs', xs = xs' ++ [.comma] ∧ Separated item xs') ∧
      (ys = [] ∨ ∃ ys', ys = .comma :: ys' ∧ Separated item ys') := by
  generalize hrow : xs ++ m :: ys = row at h
  induction h generalizing xs with
  | last =>
    rcases List.append_eq_cons_iff.1 hrow with ⟨rfl, hrest⟩ | ⟨xs', rfl, hrest⟩
    · exact ⟨.inl rfl, .inl (List.cons.inj hrest).2⟩
    · simp at hrest
  | @more span marks rest ih =>
    rcases List.append_eq_cons_iff.1 hrow with ⟨rfl, hrest⟩ | ⟨xs', rfl, hrest⟩
    · exact ⟨.inl rfl, .inr ⟨marks, (List.cons.inj hrest).2, rest⟩⟩
    · -- The item is no comma, so it stands further on.
      rcases List.append_eq_cons_iff.1 hrest.symm with ⟨rfl, hcomma⟩ | ⟨xs'', rfl, hmarks⟩
      · obtain ⟨rfl, -⟩ := List.cons.inj hcomma
        cases hm
      · obtain ⟨hbefore, hafter⟩ := ih hmarks.symm
        refine ⟨.inr ?_, hafter⟩
        rcases hbefore with rfl | ⟨before, rfl, hbefore⟩
        · exact ⟨[.node item span], rfl, .last⟩
        · exact ⟨.node item span :: .comma :: before, rfl, .more hbefore⟩

/-- The first of a run of items is an item. -/
theorem Separated.exists_cons (h : Separated item marks) :
    ∃ span rest, marks = .node item span :: rest := by
  cases h with
  | last => exact ⟨_, _, rfl⟩
  | more => exact ⟨_, _, rfl⟩

end Mark

/-! ## Parts -/

namespace Element

/-- The mark of a part. -/
def mark : Element → Mark
  | .token u => if u.is "," then .comma else .word u.text
  | .node n => .node n.kind n.span

/-- The marks of parts. -/
def row (es : List Element) : List Mark :=
  es.map mark

@[simp] theorem row_nil : row [] = [] := rfl

@[simp] theorem row_append (xs ys : List Element) : row (xs ++ ys) = row xs ++ row ys :=
  List.map_append

theorem mark_comma {u : Token} (h : u.is "," = true) : mark (.token u) = .comma :=
  if_pos h

/-- True for a comma. -/
def isComma (e : Element) : Bool :=
  e.isToken ","

theorem mark_eq_comma {e : Element} : e.mark = .comma ↔ e.isComma = true := by
  cases e with
  | token u =>
    simp only [mark, isComma, isToken]
    split <;> simp [*]
  | node n => simp [mark, isComma, isToken]

theorem exists_node_of_mark {e : Element} {kind : Kind} {span : Option Span}
    (h : e.mark = .node kind span) : ∃ n, e = .node n ∧ n.kind = kind ∧ n.span = span := by
  cases e with
  | token u =>
    simp only [mark] at h
    split at h <;> cases h
  | node n =>
    obtain ⟨rfl, rfl⟩ := Mark.node.inj h
    exact ⟨n, rfl, rfl, rfl⟩

/-- What a part shows of itself and of the parts right below it. -/
def outlook (e : Element) : Mark × List Mark :=
  (e.mark, (e.node?.map fun n => row n.children).getD [])

theorem map_fst_outlook (es : List Element) : (es.map outlook).map Prod.fst = row es :=
  List.map_map

end Element

/-- The parts of a node of a kind are arranged as lists need it. -/
structure Kind.Arranges (kind : Kind) (parts : List Element) : Prop where
  /-- A list is well separated. -/
  listed : kind.item?.isSome = true → ∃ trailing, Mark.IsList kind trailing (Element.row parts)
  /-- The parameters of a constructor have no comma after the last. -/
  strict : kind.isConstructible = true → ∀ c, .node c ∈ parts → c.kind = .parameterList →
    Mark.IsList .parameterList [] (Element.row c.children)
  /-- Attributes and base types stand in their lists. -/
  placed : ∀ c, .node c ∈ parts → ∀ list, c.kind.list? = some list → kind = list

namespace Kind.Arranges

variable {kind : Kind} {xs ys : List Element}

theorem of_outlook (h : kind.Arranges xs) (hsame : ys.map Element.outlook = xs.map Element.outlook) :
    kind.Arranges ys := by
  have hrow : Element.row ys = Element.row xs := by
    rw [← Element.map_fst_outlook, hsame, Element.map_fst_outlook]
  have hchild : ∀ c, .node c ∈ ys → ∃ d, .node d ∈ xs ∧ d.kind = c.kind ∧
      Element.row d.children = Element.row c.children := by
    intro c hc
    obtain ⟨e, he, hout⟩ := List.mem_map.1 (hsame ▸ List.mem_map_of_mem hc)
    obtain ⟨hmark, hbelow⟩ := Prod.mk.inj hout
    obtain ⟨d, rfl, hkind, -⟩ := Element.exists_node_of_mark hmark
    exact ⟨d, he, hkind, hbelow⟩
  refine ⟨fun hlist => ?_, fun hkind c hc hparameters => ?_, fun c hc list hlist => ?_⟩
  · rw [hrow]
    exact h.listed hlist
  · obtain ⟨d, hd, hkind', hsame⟩ := hchild c hc
    rw [← hsame]
    exact h.strict hkind d hd (hkind'.trans hparameters)
  · obtain ⟨d, hd, hkind', -⟩ := hchild c hc
    exact h.placed d hd list (hkind' ▸ hlist)

/-- A construct that is no list, over parts that are no items of lists. -/
theorem of_plain (hlist : kind.item? = none) (hplain : kind.isConstructible = false)
    (hparts : ∀ c, .node c ∈ xs → c.kind.list? = none) : kind.Arranges xs where
  listed h := by
    rw [hlist] at h
    cases h
  strict h := by
    rw [hplain] at h
    cases h
  placed c hc list h := by
    rw [hparts c hc] at h
    cases h

end Kind.Arranges

end Recast
