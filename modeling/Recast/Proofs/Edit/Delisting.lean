-- SUMMARY: An item that goes from a well-separated list with the comma that belongs to it leaves a well-separated list.
import Recast.Proofs.Grammar.Listing
import Recast.Proofs.Tree.Retouching

/-! # Items that go from lists

An item goes with the comma after it, or else with the one before it (`Tree.dropItem`). But for
trivia, what is left are the two sides of the item, closed up over that comma (`closeUp`).

Whether the list is still well separated depends on where the item stood: between others, first,
last with or without a comma behind it, or alone (`Mark.Around`). In all these cases but the
last the list stays well separated, and the commas between its items do not tell which item is gone
(`Element.joints_closeUp`). -/

namespace Recast

/-- The two sides of an item that goes, without the comma that goes with it: the first of the right
    side, or else the last of the left side. -/
def closeUp {α : Type} (isComma : α → Bool) (pre post : List α) : List α :=
  if post.head?.any isComma then pre ++ post.tail
  else if pre.getLast?.any isComma then pre.dropLast ++ post
  else pre ++ post

section CloseUp

variable {α β : Type} {isComma : α → Bool} {pre post : List α} {c : α}

theorem map_closeUp {f : α → β} {isComma' : β → Bool} (hf : ∀ a, isComma' (f a) = isComma a)
    (pre post : List α) :
    (closeUp isComma pre post).map f = closeUp isComma' (pre.map f) (post.map f) := by
  have hany : ∀ o : Option α, (o.map f).any isComma' = o.any isComma := by
    rintro (_ | a) <;> simp [hf]
  unfold closeUp
  rw [List.head?_map, hany, List.getLast?_map, hany]
  split
  · simp
  · split <;> simp [List.map_dropLast]

theorem closeUp_of_after (hc : isComma c = true) : closeUp isComma pre (c :: post) = pre ++ post := by
  simp [closeUp, hc]

theorem closeUp_of_before (hc : isComma c = true) (hpost : ∀ a ∈ post, isComma a = false) :
    closeUp isComma (pre ++ [c]) post = pre ++ post := by
  cases post with
  | nil => simp [closeUp, hc]
  | cons a post => simp [closeUp, hc, hpost a (List.mem_cons_self ..)]

theorem closeUp_of_neither (hpre : ∀ a ∈ pre, isComma a = false)
    (hpost : ∀ a ∈ post, isComma a = false) : closeUp isComma pre post = pre ++ post := by
  have hnone : ∀ o : Option α, (∀ a ∈ o, isComma a = false) → o.any isComma = false := by
    rintro (_ | a) h
    · rfl
    · exact h a rfl
  rw [closeUp, hnone _ fun a ha => hpost a (List.mem_of_head? ha),
    hnone _ fun a ha => hpre a (List.mem_of_getLast? ha)]
  rfl

theorem closeUp_sublist : (closeUp isComma pre post).Sublist (pre ++ post) := by
  unfold closeUp
  split
  · exact (List.tail_sublist post).append_left pre
  · split
    · exact (List.dropLast_sublist pre).append_right post
    · exact List.Sublist.refl _

theorem all_closeUp {test : α → Bool} (htest : ∀ a, isComma a = true → test a = true) :
    (closeUp isComma pre post).all test = (pre ++ post).all test := by
  unfold closeUp
  split
  · rename_i hcomma
    cases post with
    | nil => cases hcomma
    | cons a post => simp [htest a hcomma]
  · split
    · rename_i hcomma
      rcases List.eq_nil_or_concat' pre with rfl | ⟨pre, a, rfl⟩
      · cases hcomma
      · rw [List.getLast?_concat] at hcomma
        simp [htest a hcomma]
    · rfl

end CloseUp

theorem exists_append_of_not_mem_left {α : Type} {a : α} {pre post xs ys : List α}
    (h : pre ++ a :: post = xs ++ ys) (ha : a ∉ xs) :
    ∃ zs, pre = xs ++ zs ∧ ys = zs ++ a :: post := by
  rcases List.append_eq_append_iff.1 h with ⟨zs, rfl, hys⟩ | ⟨zs, rfl, hys⟩
  · rcases zs with _ | ⟨b, zs⟩
    · exact ⟨[], by simp, by simpa using hys.symm⟩
    · obtain ⟨rfl, -⟩ := List.cons.inj hys
      simp at ha
  · exact ⟨zs, rfl, hys⟩

theorem exists_append_of_not_mem_right {α : Type} {a : α} {pre post xs ys : List α}
    (h : pre ++ a :: post = xs ++ ys) (ha : a ∉ ys) :
    ∃ zs, xs = pre ++ a :: zs ∧ post = zs ++ ys := by
  rcases List.append_eq_append_iff.1 h with ⟨zs, rfl, hys⟩ | ⟨zs, rfl, hys⟩
  · rcases zs with _ | ⟨b, zs⟩
    · rw [List.nil_append] at hys
      exact absurd (hys ▸ List.mem_cons_self ..) ha
    · obtain ⟨rfl, rfl⟩ := List.cons.inj hys
      exact ⟨zs, rfl, rfl⟩
  · exact absurd (hys ▸ List.mem_append_right _ (List.mem_cons_self ..)) ha

/-! ## Rows of marks -/

namespace Mark

variable {list item : Kind} {trailing opening before after closing pre post : List Mark} {m : Mark}

/-- The two sides of an item of a list: what opens the list and more items, each with a comma after
    it, or none, and more items, each with a comma before it, or none, and what ends the list. -/
structure Around (list item : Kind) (opening before after trailing closing : List Mark) :
    Prop where
  isItem : list.item? = some item
  opens : ∀ m ∈ opening, m ≠ .comma ∧ ∀ kind ∈ m.kind?, kind = .attributeTargetSpecifier
  before : before = [] ∨ ∃ items, before = items ++ [.comma] ∧ Separated item items
  after : after = [] ∨ ∃ items, after = .comma :: items ∧ Separated item items
  trails : trailing = [] ∨ trailing = [.comma] ∧ list ≠ .baseList
  closes : ∀ m ∈ closing, ∃ text, m = .word text

theorem ne_targetSpecifier_of_item? (h : list.item? = some item) :
    item ≠ .attributeTargetSpecifier := by
  rintro rfl
  cases list <;> cases h

theorem IsList.exists_around (h : IsList list trailing (pre ++ m :: post))
    (hitem : list.item? = some item) (hm : m.kind? = some item) :
    ∃ opening before after closing, pre = opening ++ before ∧ post = after ++ trailing ++ closing ∧
      Around list item opening before after trailing closing := by
  obtain ⟨opening, items, closing, hrow, opens, separated, -, trails, closes⟩ := h
  have hopening : m ∉ opening := fun hmem =>
    ne_targetSpecifier_of_item? hitem ((opens m hmem).2 item hm)
  have hclosing : m ∉ trailing ++ closing := by
    intro hmem
    rcases List.mem_append.1 hmem with hmem | hmem
    · rcases trails with rfl | ⟨rfl, -⟩
      · cases hmem
      · obtain rfl := List.mem_singleton.1 hmem
        cases hm
    · obtain ⟨text, rfl⟩ := closes m hmem
      cases hm
  rw [List.append_assoc opening, List.append_assoc opening, List.append_assoc items] at hrow
  obtain ⟨before, rfl, hrest⟩ := exists_append_of_not_mem_left hrow hopening
  obtain ⟨after, rfl, rfl⟩ := exists_append_of_not_mem_right hrest.symm hclosing
  have hseparated : Separated item (before ++ m :: after) := by
    rcases separated with hnil | ⟨item', hitem', hseparated⟩
    · simp at hnil
    · obtain rfl := Option.some.inj (hitem.symm.trans hitem')
      exact hseparated
  obtain ⟨hbefore, hafter⟩ := hseparated.split hm
  exact ⟨opening, before, after, closing, rfl, (List.append_assoc ..).symm,
    ⟨hitem, opens, hbefore, hafter, trails, closes⟩⟩

namespace Around

variable (h : Around list item opening before after trailing closing)

include h

/-- Items that take the place of all there are. -/
theorem isList {items : List Mark} (hitems : items = [] ∨ Separated item items)
    (hfilled : items = [] → list = .parameterList ∧ trailing = []) :
    IsList list trailing (opening ++ items ++ trailing ++ closing) :=
  ⟨opening, items, closing, rfl, h.opens, hitems.imp_right fun hitems => ⟨item, h.isItem, hitems⟩,
    hfilled, h.trails, h.closes⟩

theorem opening_ne_comma : ∀ m ∈ opening, m ≠ .comma :=
  fun m hm => (h.opens m hm).1

theorem closing_ne_comma : ∀ m ∈ closing, m ≠ .comma := by
  rintro m hm rfl
  obtain ⟨text, htext⟩ := h.closes _ hm
  cases htext

/-- There is no other item. -/
theorem not_item (hbefore : before = []) (hafter : after = [])
    (hm : m ∈ opening ++ before ++ (after ++ trailing ++ closing)) : m.kind? ≠ some item := by
  intro hkind
  subst hbefore hafter
  rw [List.append_nil, List.nil_append, List.mem_append, List.mem_append] at hm
  rcases hm with hm | hm | hm
  · exact ne_targetSpecifier_of_item? h.isItem ((h.opens m hm).2 item hkind)
  · rcases h.trails with rfl | ⟨rfl, -⟩
    · cases hm
    · obtain rfl := List.mem_singleton.1 hm
      cases hkind
  · obtain ⟨text, rfl⟩ := h.closes m hm
    cases hkind

end Around

/-- A list without one of its items is a list, when there is another item or no need for one. -/
theorem IsList.closeUp (h : IsList list trailing (pre ++ m :: post))
    (hitem : list.item? = some item) (hm : m.kind? = some item)
    (hrest : (∃ m' ∈ pre ++ post, m'.kind? = some item) ∨ list = .parameterList ∧ trailing = []) :
    IsList list trailing (closeUp (· == .comma) pre post) := by
  obtain ⟨opening, before, after, closing, rfl, rfl, haround⟩ := h.exists_around hitem hm
  rcases haround.after with rfl | ⟨items, rfl, hafter⟩
  · rcases haround.trails with rfl | ⟨rfl, hlist⟩
    · rw [List.nil_append, List.nil_append]
      rcases haround.before with rfl | ⟨items, rfl, hbefore⟩
      · -- it was alone
        have hempty : list = .parameterList ∧ ([] : List Mark) = [] := by
          refine hrest.resolve_left fun hother => ?_
          obtain ⟨m', hm', hkind⟩ := hother
          exact haround.not_item rfl rfl hm' hkind
        rw [List.append_nil, closeUp_of_neither (fun m hm => beq_false_of_ne (haround.opening_ne_comma m hm))
          fun m hm => beq_false_of_ne (haround.closing_ne_comma m hm)]
        simpa using haround.isList (.inl rfl) fun _ => hempty
      · rw [← List.append_assoc, closeUp_of_before rfl
          fun m hm => beq_false_of_ne (haround.closing_ne_comma m hm)]
        simpa using haround.isList (.inr hbefore) fun hnil => absurd hnil hbefore.ne_nil
    · rw [List.nil_append, List.cons_append, List.nil_append, closeUp_of_after rfl]
      rcases haround.before with rfl | ⟨items, rfl, hbefore⟩
      · rcases hrest with ⟨m', hm', hkind⟩ | ⟨-, hnil⟩
        · exact absurd hkind (haround.not_item rfl rfl hm')
        · cases hnil
      · simpa using haround.isList (.inr hbefore) fun hnil => absurd hnil hbefore.ne_nil
  · rw [List.cons_append, List.cons_append, closeUp_of_after rfl]
    rcases haround.before with rfl | ⟨items', rfl, hbefore⟩
    · simpa using haround.isList (.inr hafter) fun hnil => absurd hnil hafter.ne_nil
    · simpa using haround.isList (.inr (hbefore.append hafter)) fun hnil => by simp at hnil

end Mark

/-! ## Parts -/

/-- The token without trivia. All commas are alike. -/
def Token.core (u : Token) : Token :=
  if u.is "," then .ofMark "," else { u with leading := [], trailing := [] }

theorem Token.forgets_core : Forgets core :=
  fun _ _ _ => rfl

theorem Token.is_core (u : Token) : u.core.is "," = u.is "," := by
  unfold core
  split
  · simp [*]
    rfl
  · rfl

namespace Element

variable {g : Token → Token} {e c : Element} {es xs ys pre post : List Element}

theorem mapTokens_core_of_comma (h : e.isComma = true) (h' : c.isComma = true) :
    e.mapTokens .core = c.mapTokens .core := by
  cases e with
  | node n => cases h
  | token u =>
    cases c with
    | node n => cases h'
    | token u' =>
      simp only [isComma, isToken] at h h'
      simp only [mapTokens, Token.core, h, h', if_true]

theorem row_closeUp (pre post : List Element) : row (closeUp isComma pre post) =
    closeUp (· == .comma) (row pre) (row post) :=
  map_closeUp (fun e => by rw [Bool.eq_iff_iff, beq_iff_eq, mark_eq_comma]) pre post

/-- But for trivia, an item that goes leaves its two sides closed up. -/
theorem map_dropItem (hg : Token.Forgets g) (e : Element) (pre post : List Element) :
    (Tree.dropItem pre.length (pre ++ e :: post)).map (mapTokens g) =
      (closeUp isComma pre post).map (mapTokens g) := by
  have hafter : (pre ++ e :: post)[pre.length + 1]? = post.head? := by
    simp [List.getElem?_append_right, List.head?_eq_getElem?]
  have hcomma : ∀ o : Option Element, (o.map (·.isToken ",")).getD false = o.any isComma := by
    rintro (_ | c) <;> rfl
  have herase : (pre ++ e :: post).eraseIdx pre.length = pre ++ post := by
    simp [List.eraseIdx_append_of_length_le]
  unfold Tree.dropItem closeUp
  simp only [hafter, hcomma, herase]
  split
  · simp [List.drop_append]
  · rcases List.eq_nil_or_concat' pre with rfl | ⟨pre, c, rfl⟩
    · simp
    · have hbefore : (pre ++ [c] ++ e :: post)[(pre ++ [c]).length - 1]? = some c := by simp
      have htake : (pre ++ [c] ++ e :: post).take ((pre ++ [c]).length - 1) = pre := by simp
      have hdrop : (pre ++ [c] ++ e :: post).drop ((pre ++ [c]).length + 1) = post := by
        rw [List.append_cons (pre ++ [c]), List.drop_left' (by simp)]
      simp only [hbefore, htake, hdrop]
      by_cases hc : c.isComma = true
      · simp only [hc, List.getLast?_concat, Option.any_some, List.dropLast_concat, if_true,
          List.length_append, List.length_singleton, Nat.zero_lt_succ, decide_true, Bool.and_self]
        split
        · rfl
        · exact map_modify_of_eq (mapTokens_mapLast fun u => hg u u.leading _) _ _
      · simp [hc]

/-! ## Commas between items -/

/-- True when a node comes next. `followed` says whether one comes after the parts. -/
def nodeNext (followed : Bool) : List Element → Bool
  | [] => followed
  | e :: _ => e.node?.isSome

/-- The parts without the commas that a node comes after. `followed` says whether a node comes after
    the last part. -/
def joints (followed : Bool) : List Element → List Element
  | [] => []
  | e :: es =>
    if e.isComma && nodeNext followed es then joints followed es else e :: joints followed es

theorem nodeNext_append (followed : Bool) (xs ys : List Element) :
    nodeNext followed (xs ++ ys) = nodeNext (nodeNext followed ys) xs := by
  cases xs <;> rfl

theorem joints_append (followed : Bool) (xs ys : List Element) :
    joints followed (xs ++ ys) = joints (nodeNext followed ys) xs ++ joints followed ys := by
  induction xs with
  | nil => rfl
  | cons e xs ih =>
    rw [List.cons_append, joints, joints, nodeNext_append, ih]
    split <;> rfl

theorem joints_sublist (followed : Bool) (es : List Element) : (joints followed es).Sublist es := by
  induction es with
  | nil => exact .slnil
  | cons e es ih =>
    rw [joints]
    split
    · exact ih.cons e
    · exact ih.cons_cons e

/-- Where no comma stands, no comma goes. -/
theorem joints_eq_self (followed : Bool) (h : ∀ e ∈ es, e.isComma = false) :
    joints followed es = es := by
  induction es with
  | nil => rfl
  | cons e es ih =>
    rw [joints, h e (List.mem_cons_self ..), ih fun e he => h e (List.mem_cons_of_mem _ he)]
    rfl

theorem joints_comma (hc : c.isComma = true) (followed : Bool) (es : List Element) :
    joints followed (c :: es) =
      if nodeNext followed es then joints followed es else c :: joints followed es := by
  rw [joints, hc, Bool.true_and]

theorem nodeNext_comma (hc : c.isComma = true) (followed : Bool) (es : List Element) :
    nodeNext followed (c :: es) = false := by
  cases c with
  | token u => rfl
  | node n => cases hc

theorem joints_concat_comma (hc : c.isComma = true) (es : List Element) :
    joints true (es ++ [c]) = joints false es := by
  rw [joints_append, nodeNext_comma hc, joints_comma hc]
  exact List.append_nil _

/-! ### Marks of parts -/

theorem isToken_of_row (h : ∀ m ∈ row es, m ≠ .comma) : ∀ e ∈ es, e.isComma = false := by
  intro e he
  rw [Bool.eq_false_iff]
  exact fun hcomma => h _ (List.mem_map_of_mem he) (mark_eq_comma.2 hcomma)

theorem nodeNext_of_separated {item : Kind} (followed : Bool) {items rest : List Mark}
    (h : Mark.Separated item items) (hes : row es = items ++ rest) :
    nodeNext followed es = true := by
  obtain ⟨span, items, rfl⟩ := h.exists_cons
  obtain ⟨e, es, rfl, hmark, -⟩ := List.map_eq_cons_iff.1 hes
  obtain ⟨n, rfl, -⟩ := exists_node_of_mark hmark
  rfl

theorem nodeNext_of_words (h : ∀ m ∈ row es, ∃ text, m = .word text) :
    nodeNext false es = false := by
  cases es with
  | nil => rfl
  | cons e es =>
    cases e with
    | token u => rfl
    | node n =>
      obtain ⟨text, htext⟩ := h _ (List.mem_cons_self ..)
      cases htext

theorem exists_concat_of_row {opening items : List Mark}
    (h : row es = opening ++ (items ++ [.comma])) :
    ∃ xs c, es = xs ++ [c] ∧ c.isComma = true := by
  rw [← List.append_assoc] at h
  obtain ⟨xs, ys, rfl, -, hys⟩ := List.map_eq_append_iff.1 h
  obtain ⟨c, rest, rfl, hc, hrest⟩ := List.map_eq_cons_iff.1 hys
  obtain rfl := List.map_eq_nil_iff.1 hrest
  exact ⟨xs, c, rfl, mark_eq_comma.1 hc⟩

theorem exists_cons_of_row {rest : List Mark} (h : row es = .comma :: rest) :
    ∃ c xs, es = c :: xs ∧ c.isComma = true ∧ row xs = rest := by
  obtain ⟨c, xs, rfl, hc, hxs⟩ := List.map_eq_cons_iff.1 h
  exact ⟨c, xs, rfl, mark_eq_comma.1 hc, hxs⟩

/-- The commas between the items of a list do not tell which item is gone. -/
theorem exists_joints_eq {list item : Kind} {trailing : List Mark} {x : Node}
    (h : Mark.IsList list trailing (row (pre ++ .node x :: post))) (hitem : list.item? = some item)
    (hx : x.kind = item)
    (hrest : (∃ c, .node c ∈ pre ++ post ∧ c.kind = item) ∨ list = .parameterList ∧ trailing = []) :
    ∃ xs ys, joints false (pre ++ .node x :: post) = xs ++ .node x :: ys ∧
      xs.Sublist pre ∧ ys.Sublist post ∧
      (joints false (closeUp isComma pre post)).map (mapTokens .core) =
        (xs ++ ys).map (mapTokens .core) := by
  have hrow : row (pre ++ .node x :: post) = row pre ++ mark (.node x) :: row post :=
    List.map_append
  have hwhole (xs : List Element) : joints false (pre ++ .node x :: xs) =
      joints true pre ++ .node x :: joints false xs := joints_append ..
  rw [hrow] at h
  obtain ⟨opening, before, after, closing, hpre, hpost, haround⟩ :=
    h.exists_around hitem (by rw [mark, Mark.kind?, hx])
  rcases haround.after with rfl | ⟨items, rfl, hafter⟩
  · rcases haround.trails with rfl | ⟨rfl, -⟩
    · rw [List.nil_append, List.nil_append] at hpost
      have hnext : nodeNext false post = false := nodeNext_of_words (hpost ▸ haround.closes)
      have hend := isToken_of_row (hpost ▸ haround.closing_ne_comma)
      rcases haround.before with rfl | ⟨items, rfl, -⟩
      · rw [List.append_nil] at hpre
        have hbegin := isToken_of_row (hpre ▸ haround.opening_ne_comma)
        refine ⟨pre, joints false post, ?_, .refl _, joints_sublist .., ?_⟩
        · rw [hwhole, joints_eq_self true hbegin]
        · rw [closeUp_of_neither hbegin hend, joints_append, joints_eq_self _ hbegin]
      · obtain ⟨pre, c, rfl, hc⟩ := exists_concat_of_row hpre
        refine ⟨joints false pre, joints false post, ?_, ?_, joints_sublist .., ?_⟩
        · rw [hwhole, joints_concat_comma hc]
        · exact (joints_sublist ..).trans (List.sublist_append_left ..)
        · rw [closeUp_of_before hc hend, joints_append, hnext]
    · obtain ⟨c, post, rfl, hc, hend⟩ := exists_cons_of_row hpost
      rw [List.append_eq, List.nil_append] at hend
      have hnext : nodeNext false post = false := nodeNext_of_words (hend ▸ haround.closes)
      rcases haround.before with rfl | ⟨items, rfl, -⟩
      · rcases hrest with ⟨other, hother, hkind⟩ | ⟨-, hnil⟩
        · have hmark : (Element.node other).mark ∈ row pre ++ row (c :: post) := by
            rw [← row_append]
            exact List.mem_map_of_mem hother
          rw [hpre, hpost] at hmark
          exact absurd (by rw [mark, Mark.kind?, hkind]) (haround.not_item rfl rfl hmark)
        · cases hnil
      · obtain ⟨pre, c', rfl, hc'⟩ := exists_concat_of_row hpre
        refine ⟨joints false pre, c :: joints false post, ?_, ?_, ?_, ?_⟩
        · rw [hwhole, joints_concat_comma hc', joints_comma hc, hnext]
          rfl
        · exact (joints_sublist ..).trans (List.sublist_append_left ..)
        · exact (joints_sublist ..).cons_cons c
        · rw [closeUp_of_after hc, List.append_assoc, joints_append, List.singleton_append,
            nodeNext_comma hc', joints_comma hc', hnext]
          simp [mapTokens_core_of_comma hc hc']
  · obtain ⟨c, post, rfl, hc, hmore⟩ := exists_cons_of_row hpost
    have hnext : nodeNext false post = true := nodeNext_of_separated false hafter
      (hmore.trans (List.append_assoc ..))
    refine ⟨joints true pre, joints false post, ?_, joints_sublist .., ?_, ?_⟩
    · rw [hwhole, joints_comma hc, hnext]
      rfl
    · exact (joints_sublist ..).cons c
    · rw [closeUp_of_after hc, joints_append, hnext]

end Element

end Recast
