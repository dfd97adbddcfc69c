-- SUMMARY: A method has its return type right after its modifiers, in a tree that was read and in all that the edits up to the last change of a method header make of it.
import Recast.Proofs.Grammar.Placement
import Recast.Proofs.Plan.Accounting

/-! # Headings

An edit of a method header takes the part after the modifiers for the return type. This is right
as long as every method has its return type there (`Node.Headed`). It holds in a tree that was read,
it shows in the shape, and it lasts when an expression or a type takes the place of another node,
and when statements take the place of one. Header edits come before all edits that add or remove
parts elsewhere (`Plan.sorted_ordered`), so these need not be looked at. -/

namespace Recast

/-! ## Parts of methods -/

/-- A node of the first kind may take the place of one of the second kind in a method. -/
def Kind.Fills (new old : Kind) : Prop :=
  (new = .modifiers → old = .modifiers) ∧ (old.isValue = true → new.isValue = true)

theorem Kind.fills_refl (kind : Kind) : kind.Fills kind :=
  ⟨id, id⟩

theorem Kind.fills_of_isValue {new : Kind} (h : new.isValue = true) (old : Kind) :
    new.Fills old := by
  refine ⟨?_, fun _ => h⟩
  rintro rfl
  cases h

namespace Element

variable {xs ys : List Element} {i : Nat}

theorem headedIn_iff : HeadedIn xs ↔ ∀ i m, xs[i]? = some (.node m) → m.kind = .modifiers →
    ∃ v, xs[i + 1]? = some (.node v) ∧ v.kind.isValue = true := by
  induction xs with
  | nil => simp [HeadedIn]
  | cons e xs ih =>
    rw [HeadedIn, ih]
    constructor
    · rintro ⟨hhead, htail⟩ i m hm hkind
      cases i with
      | zero =>
        obtain rfl := Option.some.inj hm
        rw [List.getElem?_cons_succ, ← List.head?_eq_getElem?]
        exact hhead (by simp [isNode, hkind])
      | succ i => exact htail i m hm hkind
    · intro h
      refine ⟨fun hmodifiers => ?_, fun i => h (i + 1)⟩
      cases e with
      | token u => cases hmodifiers
      | node m =>
        rw [List.head?_eq_getElem?]
        exact h 0 m rfl (eq_of_beq hmodifiers)

theorem HeadedIn.set {c r : Node} (h : HeadedIn xs) (hc : xs[i]? = some (.node c))
    (hfills : r.kind.Fills c.kind) : HeadedIn (xs.set i (.node r)) := by
  have hlt : i < xs.length := (List.getElem?_eq_some_iff.1 hc).1
  rw [headedIn_iff] at h ⊢
  intro j m hm hkind
  -- There were modifiers before, so a value followed them.
  have hmodifiers : ∃ m, xs[j]? = some (.node m) ∧ m.kind = .modifiers := by
    rcases eq_or_ne i j with rfl | hne
    · rw [List.getElem?_set_self hlt] at hm
      obtain rfl := Element.node.inj (Option.some.inj hm)
      exact ⟨c, hc, hfills.1 hkind⟩
    · rw [List.getElem?_set_ne hne] at hm
      exact ⟨m, hm, hkind⟩
  obtain ⟨m, hm, hkind⟩ := hmodifiers
  obtain ⟨v, hv, hvalue⟩ := h j m hm hkind
  rcases eq_or_ne i (j + 1) with rfl | hne
  · rw [List.getElem?_set_self hlt]
    obtain rfl : c = v := by simpa [hc] using hv
    exact ⟨r, rfl, hfills.2 hvalue⟩
  · rw [List.getElem?_set_ne hne]
    exact ⟨v, hv, hvalue⟩

/-- Other parts take the place of one that is no value. -/
theorem HeadedIn.splice {c : Node} {zs : List Element} (h : HeadedIn (xs ++ .node c :: ys))
    (hc : c.kind.isValue = false) (hzs : Each (·.kind ≠ .modifiers) zs) :
    HeadedIn (xs ++ zs ++ ys) := by
  induction xs with
  | nil => exact headedIn_append hzs h.2
  | cons e xs ih =>
    refine ⟨fun hmodifiers => ?_, ih h.2⟩
    obtain ⟨v, hv, hvalue⟩ := h.1 hmodifiers
    cases xs with
    | nil =>
      obtain rfl : c = v := Element.node.inj (Option.some.inj hv)
      rw [hc] at hvalue
      cases hvalue
    | cons e' xs => exact ⟨v, hv, hvalue⟩

theorem HeadedIn.of_shapesIn (h : HeadedIn xs) (hshape : shapesIn xs = shapesIn ys) :
    HeadedIn ys := by
  rw [headedIn_iff] at h ⊢
  intro i m hm hkind
  obtain ⟨m', hm', hsame⟩ := getElem?_of_shapesIn hshape.symm hm
  obtain ⟨v, hv, hvalue⟩ := h i m' hm' (Node.kind_eq_of_shape hsame ▸ hkind)
  obtain ⟨v', hv', hsame⟩ := getElem?_of_shapesIn hshape hv
  exact ⟨v', hv', Node.kind_eq_of_shape hsame ▸ hvalue⟩

theorem Each.set {P : Node → Prop} {r : Node} (h : Each P xs) (hr : P r) :
    Each P (xs.set i (.node r)) := by
  intro n hn
  rcases List.mem_or_eq_of_mem_set hn with hn | hn
  · exact h n hn
  · obtain rfl := Element.node.inj hn
    exact hr

theorem Each.subset {P : Node → Prop} (h : Each P xs) (hsub : ∀ e ∈ ys, e ∈ xs) : Each P ys :=
  fun n hn => h n (hsub _ hn)

theorem Each.cons {P : Node → Prop} {n : Node} (hn : P n) (h : Each P xs) :
    Each P (.node n :: xs) :=
  (each_single hn).append h

end Element

/-! ## Headed nodes -/

namespace Node

/-- Every method in a node has its return type after its modifiers. -/
inductive Headed : Node → Prop where
  | intro {n : Node} (parts : n.kind = .methodDeclaration → Element.HeadedIn n.children)
      (below : Element.Each Headed n.children) : n.Headed

variable {n m : Node}

theorem Headed.parts (h : n.Headed) (hkind : n.kind = .methodDeclaration) :
    Element.HeadedIn n.children := by
  cases h with
  | intro parts below => exact parts hkind

theorem Headed.children (h : n.Headed) : Element.Each Headed n.children := by
  cases h with
  | intro parts below => exact below

theorem Headed.at? {p : Path} (h : n.Headed) (hat : n.at? p = some m) : m.Headed := by
  induction p generalizing n with
  | nil =>
    obtain rfl := Option.some.inj hat
    exact h
  | cons i p ih =>
    obtain ⟨c, hc, hat⟩ := at?_cons_eq_some.1 hat
    exact ih (h.children c (List.mem_of_getElem? hc)) hat

theorem Housed.headed (h : n.Housed) : n.Headed := by
  induction h with
  | intro houses below ih => exact .intro houses.headed ih

theorem Formed.headed (h : n.Formed) : n.Headed :=
  h.housed.headed

/-- It shows in the shape whether the children of all nodes fit them. -/
theorem Housed.of_shape (h : n.Housed) (hshape : n.shape = m.shape) : m.Housed := by
  induction h generalizing m with
  | @intro n houses below ih =>
    have hkind := kind_eq_of_shape hshape
    have hchildren := shapesIn_children hshape
    have hchild : ∀ c : Node, .node c ∈ m.children →
        ∃ d : Node, .node d ∈ n.children ∧ c.shape = d.shape := by
      intro c hc
      obtain ⟨i, hi⟩ := List.mem_iff_getElem?.1 hc
      obtain ⟨d, hd, hsame⟩ := Element.getElem?_of_shapesIn hchildren.symm hi
      exact ⟨d, List.mem_of_getElem? hd, hsame⟩
    refine .intro ⟨fun c hc hbars top htop => ?_, fun hmethod => ?_, fun c hc hscope => ?_⟩ ?_
    · obtain ⟨d, hd, hsame⟩ := hchild c hc
      rw [← hkind, kind_eq_of_shape hsame] at hbars
      obtain ⟨p, u, hat, rfl⟩ := mem_tops.1 htop
      obtain ⟨v, hv, hsame⟩ := exists_at?_of_shape hsame hat
      rw [show u.top.kind = v.top.kind from kind_eq_of_shape hsame]
      exact houses.dull d hd hbars _ (mem_tops.2 ⟨p, v, hv, rfl⟩)
    · exact (houses.headed (hkind.trans hmethod)).of_shapesIn hchildren
    · obtain ⟨d, hd, hsame⟩ := hchild c hc
      rw [← hkind]
      exact houses.scope d hd (kind_eq_of_shape hsame ▸ hscope)
    · intro c hc
      obtain ⟨d, hd, hsame⟩ := hchild c hc
      exact ih d hd hsame.symm

theorem Headed.of_shape (h : n.Headed) (hshape : n.shape = m.shape) : m.Headed := by
  induction h generalizing m with
  | @intro n parts below ih =>
    have hchildren := shapesIn_children hshape
    refine .intro (fun hkind => ?_) fun c hc => ?_
    · exact (parts (kind_eq_of_shape hshape ▸ hkind)).of_shapesIn hchildren
    · obtain ⟨i, hi⟩ := List.mem_iff_getElem?.1 hc
      obtain ⟨d, hd, hsame⟩ := Element.getElem?_of_shapesIn hchildren.symm hi
      exact ih d (List.mem_of_getElem? hd) hsame.symm

theorem each_of_shapesIn {xs ys : List Element} (h : Element.Each Headed xs)
    (hshape : Element.shapesIn xs = Element.shapesIn ys) : Element.Each Headed ys := by
  intro n hn
  obtain ⟨i, hi⟩ := List.mem_iff_getElem?.1 hn
  obtain ⟨m, hm, hsame⟩ := Element.getElem?_of_shapesIn hshape.symm hi
  exact (h m (List.mem_of_getElem? hm)).of_shape hsame.symm

theorem headed_mapFirst {f : Token → Token} (hf : ∀ u, (f u).text = u.text) (h : n.Headed) :
    (n.mapFirst f).Headed :=
  h.of_shape (shape_mapFirst hf n).symm

theorem headed_mapLast {f : Token → Token} (hf : ∀ u, (f u).text = u.text) (h : n.Headed) :
    (n.mapLast f).Headed :=
  h.of_shape (shape_mapLast hf n).symm

theorem Headed.withLeading (h : n.Headed) (trivia : List Trivia) : (n.withLeading trivia).Headed :=
  headed_mapFirst (fun _ => rfl) h

theorem Headed.withTrailing (h : n.Headed) (trivia : List Trivia) :
    (n.withTrailing trivia).Headed :=
  headed_mapLast (fun _ => rfl) h

theorem Headed.withTriviaOf (h : n.Headed) (other : Node) : (n.withTriviaOf other).Headed :=
  (h.withLeading _).withTrailing _

theorem headed_of_kind_ne (hkind : n.kind ≠ .methodDeclaration)
    (hbelow : Element.Each Headed n.children) : n.Headed :=
  .intro (fun h => absurd h hkind) hbelow

/-- A headed node put in the place of another that it may stand for. -/
theorem Headed.put {r n' : Node} {p : Path} (h : n.Headed) (hat : n.at? p = some m)
    (hr : r.Headed) (hfills : r.kind.Fills m.kind) (hput : Put r p n n') : n'.Headed := by
  induction hput with
  | here n => exact hr
  | @under n c c' i p child rest ih =>
    obtain ⟨d, hd, hat⟩ := at?_cons_eq_some.1 hat
    obtain rfl : c = d := by simpa [child] using hd
    have hc' : c'.Headed := ih (h.children c (List.mem_of_getElem? child)) hat
    have hfills' : c'.kind.Fills c.kind := by
      cases rest with
      | here =>
        obtain rfl := Option.some.inj hat
        exact hfills
      | under => exact Kind.fills_refl _
    exact .intro (fun hkind => (h.parts hkind).set child hfills') (h.children.set hc')

/-- A node with other parts put in the place of one that it may stand for. -/
theorem Headed.put_withChildren {u n' : Node} {es : List Element} {p : Path} (h : n.Headed)
    (hat : n.at? p = some m) (hfills : u.kind.Fills m.kind)
    (hparts : u.kind = .methodDeclaration → Element.HeadedIn es) (hbelow : Element.Each Headed es)
    (hput : Put (u.withChildren es) p n n') : n'.Headed := by
  have hu : (u.withChildren es).Headed := .intro hparts hbelow
  exact h.put hat hu hfills hput

end Node

/-! ## Calls and containers -/

namespace Edit

variable {t t' : Tree} {s : Site}

theorem headed_replaceAt {r : Node} (ht : t.root.Headed) (hs : s ∈ t.sites) (hr : r.Value)
    (h : replaceAt s r = .ok t') : t'.root.Headed := by
  obtain ⟨-, hat⟩ := Tree.mem_sites_iff.1 hs
  have hvalue : (r.withTriviaOf s.node).kind.isValue = true := by
    rw [(r.keeps_withTriviaOf s.node).kind_eq]
    exact hr.2
  exact ht.put hat (hr.1.headed.withTriviaOf _) (Kind.fills_of_isValue hvalue _) (put_replaceAt hs h)

theorem headed_replaceCall {text : String} (ht : t.root.Headed) (hs : s ∈ t.sites)
    (h : replaceCall text s = .ok t') : t'.root.Headed := by
  obtain ⟨e, hread, h⟩ := replaceCall_eq_ok h
  exact headed_replaceAt ht hs (Fragment.value_of_readExpression hread) h

theorem headed_replaceAssertion {change : AssertionChange} (ht : t.root.Headed) (hs : s ∈ t.sites)
    (h : replaceAssertion change s = .ok t') : t'.root.Headed := by
  obtain ⟨w, hw, -, hshape⟩ := exists_replaceCall_of_replaceAssertion hs h
  exact (headed_replaceCall ht hs hw).of_shape hshape.symm

theorem headed_runWithTriviaOf {n : Node} {rs : List Node} (h : ∀ r ∈ rs, r.Statement) :
    ∀ r ∈ runWithTriviaOf n rs, r.Headed ∧ r.kind ≠ .modifiers := by
  have hstatement : ∀ r : Node, r.Statement → r.Headed ∧ r.kind ≠ .modifiers := by
    rintro r ⟨hhoused, hkind⟩
    refine ⟨hhoused.headed, fun hmodifiers => ?_⟩
    rw [hmodifiers] at hkind
    rcases hkind with hkind | hkind <;> cases hkind
  refine forall_mem_runWithTriviaOf (fun r hr => ?_) (fun r hr => ?_) fun r hr => hstatement r (h r hr)
  · rw [(r.keeps_withLeading _).kind_eq]
    exact ⟨hr.1.withLeading _, hr.2⟩
  · rw [(r.keeps_withTrailing _).kind_eq]
    exact ⟨hr.1.withTrailing _, hr.2⟩

/-- Nodes take the place of one that is no value. None of them may be modifiers, since nothing has
    to follow it. -/
theorem headed_replaceMany {rs : List Node} (ht : t.root.Headed)
    (hat : t.root.at? s.path = some s.node) (hold : s.node.kind.isValue = false)
    (hnew : ∀ r ∈ rs, r.Headed ∧ r.kind ≠ .modifiers) (h : t.replaceMany s.path rs = .ok t') :
    t'.root.Headed := by
  obtain ⟨-, rfl⟩ | ⟨q, i, u, -, hu, hc, hput⟩ := Tree.replaceMany_eq_ok hat h
  · exact (hnew _ (List.mem_singleton_self _)).1
  · have hheaded := ht.at? hu
    refine ht.put_withChildren hu (Kind.fills_refl _) (fun hmethod => ?_) ?_ hput
    · have hparts := hheaded.parts hmethod
      rw [Node.children_split hc] at hparts
      exact hparts.splice hold (Element.each_nodes fun r hr => (hnew r hr).2)
    · refine Element.Each.append (Element.Each.append ?_ ?_) ?_
      · exact hheaded.children.subset fun _ => List.mem_of_mem_take
      · exact Element.each_nodes fun r hr => (hnew r hr).1
      · exact hheaded.children.subset fun _ => List.mem_of_mem_drop

theorem headed_captureException {settings : Settings} {captured body : String}
    (ht : t.root.Headed) (hs : s ∈ t.sites) (h : captureException settings captured body s = .ok t') :
    t'.root.Headed := by
  obtain ⟨hlocal, first, rest, hread, hreplace⟩ := captureException_eq_ok hs h
  exact headed_replaceMany ht (Tree.mem_sites_iff.1 hs).2 (by rw [hlocal]; rfl)
    (headed_runWithTriviaOf (Fragment.statement_of_readStatements hread)) hreplace

theorem headed_tupleRow {e e' : Element} (he : Element.Each Node.Headed [e])
    (h : tupleRow e = .ok e') : Element.Each Node.Headed [e'] := by
  obtain rfl | ⟨row, tuple, text, rfl, hread, rfl⟩ := tupleRow_eq_ok h
  · exact he
  · have hvalue := Fragment.value_of_readExpression hread
    exact Element.each_single (hvalue.1.headed.withTriviaOf row)

theorem headed_tupleRows {rows rows' : Node} (hkind : rows.kind = .initializerExpression)
    (hrows : rows.Headed) (h : tupleRows rows = .ok rows') : rows'.Headed := by
  obtain ⟨es, hes, rfl⟩ := tupleRows_eq_ok h
  have heach : ∀ e ∈ es, Element.Each Node.Headed [e] := forall_of_mapM (fun e he _ =>
    headed_tupleRow (hrows.children.subset fun _ h => List.mem_singleton.1 h ▸ he)) hes
  refine Node.headed_of_kind_ne (by simp [Node.withChildren, hkind]) fun n hn => ?_
  exact heach _ hn n (List.mem_singleton_self _)

theorem headed_arrayOf {settings : Settings} {element : String} {creation : Site} {e : Node}
    (hcreation : creation.node.Headed) (h : arrayOf settings element creation = .ok e) :
    e.Headed ∧ e.kind.isValue = true := by
  obtain ⟨initializer, rows, rows', array, index, c, before, hmem, hkind, hrows, hplaced, hread, -,
    hbefore, rfl⟩ := arrayOf_eq_ok h
  have hrows := headed_tupleRows hkind (hcreation.children _ hmem) hrows
  obtain ⟨harray, hvalue⟩ := Fragment.value_of_readExpression hread
  rw [(Node.keeps_withTriviaOf _ _).kind_eq]
  refine ⟨Node.Headed.withTriviaOf (Node.headed_of_kind_ne ?_ ?_) _, hvalue⟩
  · intro hmethod
    rw [show array.kind = .methodDeclaration from hmethod] at hvalue
    cases hvalue
  · have htaken : Element.Each Node.Headed (array.children.take index) :=
      harray.headed.children.subset fun _ => List.mem_of_mem_take
    have hafter : Element.Each Node.Headed (array.children.drop (index + 1)) :=
      harray.headed.children.subset fun _ => List.mem_of_mem_drop
    refine Element.Each.append ?_ (hafter.cons ?_)
    · obtain rfl | rfl := hbefore
      · exact htaken
      · refine Node.each_of_shapesIn htaken (Element.shapesIn_modify_mapLast ?_ _ _).symm
        intro u
        rfl
    · obtain rfl | ⟨trivia, rfl⟩ := hplaced
      · exact hrows
      · exact hrows.withLeading trivia

theorem headed_replaceTagged {tag : Option Tag} {make : Site → Except EditError Node}
    (ht : t.root.Headed)
    (hmake : ∀ s e, s ∈ t.sites → make s = .ok e → e.Headed ∧ e.kind.isValue = true)
    (h : replaceTagged tag make t = .ok t') : t'.root.Headed := by
  obtain rfl | ⟨x, s, e, -, -, hs, -, he, hput⟩ := replaceTagged_eq_ok h
  · exact ht
  · obtain ⟨hheaded, hvalue⟩ := hmake s e hs he
    exact ht.put (Tree.mem_sites_iff.1 hs).2 hheaded (Kind.fills_of_isValue hvalue _) hput

theorem headed_reshapeContainer {settings : Settings} {change : ContainerChange}
    (ht : t.root.Headed) (hs : s ∈ t.sites) (h : reshapeContainer settings change s = .ok t') :
    t'.root.Headed := by
  obtain ⟨w, hw, h⟩ := reshapeContainer_eq_ok hs h
  have hw : w.root.Headed := headed_replaceTagged ht (fun creation e hcreation he =>
    headed_arrayOf (ht.at? (Tree.mem_sites_iff.1 hcreation).2) he) hw
  refine headed_replaceTagged hw (fun declared e _ he => ?_) h
  obtain ⟨read, hread, rfl⟩ := sequenceType_eq_ok he
  obtain ⟨hhoused, hvalue⟩ := (Fragment.typeName_of_readType hread).value
  rw [(Node.keeps_withTriviaOf _ _).kind_eq]
  exact ⟨hhoused.headed.withTriviaOf _, hvalue⟩

/-! ## Method headers -/

/-- Headed parts of a method, the return type after the modifiers. -/
structure HeadedParts (es : List Element) : Prop where
  order : Element.HeadedIn es
  each : Element.Each Node.Headed es

theorem HeadedParts.set {es : List Element} {i : Nat} {c r : Node} (h : HeadedParts es)
    (hc : es[i]? = some (.node c)) (hr : r.Headed) (hfills : r.kind.Fills c.kind) :
    HeadedParts (es.set i (.node r)) :=
  ⟨h.order.set hc hfills, h.each.set hr⟩

theorem headedParts_replaceModifiers {index : Nat} {old new : List Token} {es : List Element}
    {c : Node} (h : HeadedParts es) (hc : es[index]? = some (.node c))
    (hkind : c.kind = .modifiers) : HeadedParts (replaceModifiers index old new es) := by
  have hmodifiers : ∀ ts : List Token, (Node.ofChildren .modifiers (ts.map .token)).Headed :=
    fun ts => Node.headed_of_kind_ne nofun (Element.each_tokens ts)
  have hfills : ∀ ts : List Token,
      (Node.ofChildren .modifiers (ts.map .token)).kind.Fills c.kind := by
    intro ts
    rw [hkind]
    exact Kind.fills_refl _
  obtain ⟨ts, heq, -⟩ | ⟨type, htype, -, -, heq⟩ := replaceModifiers_cases index old new es
  · rw [heq]
    exact h.set hc (hmodifiers ts) (hfills ts)
  · -- The return type hands its trivia over and stays a value.
    have hmoved : HeadedParts (es.set (index + 1) (.node (type.withLeading []))) := by
      refine h.set htype ((h.each type (List.mem_of_getElem? htype)).withLeading _) ?_
      rw [(type.keeps_withLeading _).kind_eq]
      exact Kind.fills_refl _
    rw [heq]
    refine hmoved.set ?_ (hmodifiers _) (hfills _)
    rw [List.getElem?_set_ne (Nat.succ_ne_self index)]
    exact hc

theorem getElem?_replaceModifiers {index : Nat} {old new : List Token} {es : List Element}
    (hlt : index < es.length) :
    ∃ c : Node, (replaceModifiers index old new es)[index]? = some (.node c) ∧ c.kind = .modifiers := by
  obtain ⟨ts, heq, -⟩ | ⟨type, -, -, -, heq⟩ := replaceModifiers_cases index old new es
  · exact ⟨_, by rw [heq, List.getElem?_set_self hlt], rfl⟩
  · exact ⟨_, by rw [heq, List.getElem?_set_self (by simpa using hlt)], rfl⟩

theorem headedParts_setReturnType {index : Nat} {make : Node → Except EditError (Option Node)}
    {es es' : List Element} (hes : HeadedParts es)
    (hmake : ∀ current type, make current = .ok (some type) → type.Value)
    (h : setReturnType index make es = .ok es') : HeadedParts es' := by
  obtain ⟨current, hcurrent, rfl | ⟨type, htype, rfl⟩⟩ := setReturnType_eq_ok h
  · exact hes
  · obtain ⟨hhoused, hvalue⟩ := hmake current type htype
    refine hes.set hcurrent (hhoused.headed.withTriviaOf _) ?_
    rw [(type.keeps_withTriviaOf _).kind_eq]
    exact Kind.fills_of_isValue hvalue _

theorem headedParts_of_headed {n : Node} (h : n.Headed) (hkind : n.kind = .methodDeclaration) :
    HeadedParts n.children :=
  ⟨h.parts hkind, h.children⟩

theorem headed_changeSignature {settings : Settings} {change : SignatureChange}
    (ht : t.root.Headed) (hs : s ∈ t.sites) (h : changeSignature settings change s = .ok t') :
    t'.root.Headed := by
  obtain ⟨hkind, rfl | ⟨method, hmethod, hput⟩⟩ := changeSignature_eq_ok hs h
  · exact ht
  · obtain ⟨-, hat⟩ := Tree.mem_sites_iff.1 hs
    obtain ⟨index, c, es, hc, hmodifiers, hes, rfl⟩ := changeHeader_eq_ok hmethod
    have hparts := headedParts_setReturnType
      (headedParts_replaceModifiers (headedParts_of_headed (ht.at? hat) hkind) hc hmodifiers)
      (fun current type htype => by
        obtain ⟨text, -, hread⟩ := mapM_returnTypeOf_eq_ok htype
        exact (Fragment.typeName_of_readType hread).value) hes
    exact ht.put_withChildren hat (Kind.fills_refl _) (fun _ => hparts.order) hparts.each hput

theorem headedParts_cons {n : Node} {es : List Element} (h : HeadedParts es) (hn : n.Headed)
    (hkind : n.kind ≠ .modifiers) : HeadedParts (.node n :: es) :=
  ⟨Element.headedIn_append (Element.each_single hkind) h.order, h.each.cons hn⟩

/-- A method with a marker list in front is a method with headed parts. -/
theorem headedParts_putMarker {list method : Node} (hlist : list.Is .attributeList)
    (hmethod : method.Headed) (hkind : method.kind = .methodDeclaration) :
    HeadedParts (putMarker list method).children ∧
      (putMarker list method).kind = .methodDeclaration := by
  have htrimmed : ∀ lead trail, ((list.withLeading lead).withTrailing trail).Headed ∧
      ((list.withLeading lead).withTrailing trail).kind ≠ .modifiers := by
    intro lead trail
    rw [(Node.keeps_withTrailing _ _).kind_eq, (Node.keeps_withLeading _ _).kind_eq, hlist.2]
    exact ⟨(hlist.1.headed.withLeading lead).withTrailing trail, nofun⟩
  obtain heq | ⟨first, rest, hchildren, -, heq⟩ := putMarker_cases list method
  · have hbelow : (method.withLeading (Trivia.indentation method.leading)).kind =
        .methodDeclaration := by
      rw [(method.keeps_withLeading _).kind_eq, hkind]
    rw [heq]
    exact ⟨headedParts_cons (headedParts_of_headed (hmethod.withLeading _) hbelow)
      (htrimmed _ _).1 (htrimmed _ _).2, hbelow⟩
  · have hparts := headedParts_of_headed hmethod hkind
    rw [hchildren] at hparts
    rw [heq]
    refine ⟨headedParts_cons ?_ (htrimmed _ _).1 (htrimmed _ _).2, hkind⟩
    refine hparts.set (i := 0) rfl ((hparts.each first (List.mem_cons_self ..)).withLeading _) ?_
    rw [(first.keeps_withLeading _).kind_eq]
    exact Kind.fills_refl _

theorem headed_addMethodMarker {marker : String} {returnType : Option String} (ht : t.root.Headed)
    (hs : s ∈ t.sites) (h : addMethodMarker marker returnType s = .ok t') : t'.root.Headed := by
  obtain ⟨hkind, list, hlist, hput⟩ := addMethodMarker_eq_ok hs h
  obtain ⟨-, hat⟩ := Tree.mem_sites_iff.1 hs
  obtain ⟨hparts, hmarked⟩ := headedParts_putMarker
    (Fragment.is_of_readAttributeList (markerList_eq_ok hlist)) (ht.at? hat) hkind
  have hfills : (putMarker list s.node).kind.Fills s.node.kind := by
    rw [hmarked, hkind]
    exact Kind.fills_refl _
  obtain ⟨-, hput⟩ | ⟨text, type, index, es, -, hread, -, hes, hput⟩ := hput
  · exact ht.put hat (.intro (fun _ => hparts.order) hparts.each) hfills hput
  · have hparts := headedParts_setReturnType hparts (fun current made hmade => by
      obtain rfl := Option.some.inj (Except.ok.inj hmade)
      exact (Fragment.typeName_of_readType hread).value) hes
    exact ht.put_withChildren hat hfills (fun _ => hparts.order) hparts.each hput

end Edit

/-! ## The order of records -/

/-- The place of a kind in the order in which records are carried out. -/
def RecordKind.rank (kind : RecordKind) : Nat :=
  all.idxOf kind

/-- Records are carried out by the rank of their kind. -/
theorem Plan.sorted_ordered (plan : Plan) :
    plan.ordered.Pairwise fun a b => a.kind.rank ≤ b.kind.rank := by
  have hkind : ∀ k, ∀ r ∈ plan.recordsOf k, r.kind = k := fun k r hr => by
    simpa using (List.mem_filter.1 hr).2
  refine List.pairwise_flatMap.2 ⟨fun k _ => ?_, ?_⟩
  · refine List.pairwise_of_forall_mem_list fun a ha b hb => Nat.le_of_eq ?_
    rw [hkind k a ha, hkind k b hb]
  · have hranks : RecordKind.all.Pairwise fun k k' => k.rank ≤ k'.rank := by decide
    refine hranks.imp fun hle a ha b hb => ?_
    rw [hkind _ a ha, hkind _ b hb]
    exact hle

section Run

variable {t t' : Tree} {s : Site} {settings : Settings}

/-- The changes up to those of method headers keep methods headed. -/
theorem Change.headed_apply {c : Change} (hrank : c.kind.rank ≤ RecordKind.methodMarker.rank)
    (ht : t.root.Headed) (hs : s ∈ t.sites) (h : c.apply settings s = .ok t') :
    t'.root.Headed := by
  cases c with
  | exceptionCapture captured body => exact Edit.headed_captureException ht hs h
  | callReplacement text => exact Edit.headed_replaceCall ht hs h
  | container change => exact Edit.headed_reshapeContainer ht hs h
  | assertion change => exact Edit.headed_replaceAssertion ht hs h
  | signature change => exact Edit.headed_changeSignature ht hs h
  | methodMarker marker returnType => exact Edit.headed_addMethodMarker ht hs h
  | _ =>
    simp only [Change.kind] at hrank
    exact absurd hrank (by decide)

theorem Tree.headed_after {records : List Record}
    (hrank : ∀ r ∈ records, r.kind.rank ≤ RecordKind.methodMarker.rank) (ht : t.root.Headed) :
    (t.after settings records).root.Headed := by
  refine after_induction (P := fun w => w.root.Headed) ht ?_
  intro before r rest s t' hsplit _ hs _ happly hbefore
  exact Change.headed_apply (hrank r (by rw [hsplit]; simp)) hbefore hs happly

end Run

end Recast
