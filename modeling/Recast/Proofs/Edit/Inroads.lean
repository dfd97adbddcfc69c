-- SUMMARY: What stands outside the constructs that the records of a plan replace, remove or give another header, and how it depends on the parts of a node.
import Recast.Proofs.Edit.Flatness
import Recast.Proofs.Edit.Preserving

/-! # Inroads

A record changes the node with its tag, and some records change what stands beside it. What may be
lost that way is read off the tree and the tags (`Inroads`). A node that is replaced loses what
stands in it, but not what stands in front of its first token, since the new node takes that over. A
node that goes is lost whole, and so is a list that all its items leave. An item goes with a comma
beside it, so what hangs on the commas beside it may be lost. A method that gets another header
loses what stands in its modifiers and its return type.

`Node.outside` reads the tokens of a tree that stand outside all this, in document order. It goes
down the tree with the loss that the constructs around a part bring (`Loss`). -/

namespace Recast

/-! ## Losses -/

/-- How much of a part of a tree may be lost. -/
inductive Loss where
  | nothing
  /-- All but what stands in front of the first token. -/
  | inner
  | whole
  deriving DecidableEq

namespace Loss

def rank : Loss → Nat
  | .nothing => 0
  | .inner => 1
  | .whole => 2

instance : LE Loss :=
  ⟨fun a b => a.rank ≤ b.rank⟩

instance (a b : Loss) : Decidable (a ≤ b) :=
  inferInstanceAs (Decidable (a.rank ≤ b.rank))

/-- The loss of a part that two constructs bring a loss to. -/
def join (a b : Loss) : Loss :=
  if a ≤ b then b else a

/-- The loss behind the first token. -/
def beyond : Loss → Loss
  | .nothing => .nothing
  | _ => .whole

variable {a b c d : Loss}

theorem le_refl (a : Loss) : a ≤ a :=
  Nat.le_refl _

theorem le_trans (h : a ≤ b) (h' : b ≤ c) : a ≤ c :=
  Nat.le_trans h h'

theorem nothing_le (a : Loss) : .nothing ≤ a :=
  Nat.zero_le _

theorem le_whole (a : Loss) : a ≤ .whole := by
  cases a <;> decide

theorem eq_whole_of_le (h : .whole ≤ a) : a = .whole := by
  revert h
  cases a <;> decide

theorem le_join_left (a b : Loss) : a ≤ a.join b := by
  cases a <;> cases b <;> decide

theorem le_join_right (a b : Loss) : b ≤ a.join b := by
  cases a <;> cases b <;> decide

theorem join_mono (h : a ≤ c) (h' : b ≤ d) : a.join b ≤ c.join d := by
  revert h h'
  cases a <;> cases b <;> cases c <;> cases d <;> decide

theorem beyond_mono (h : a ≤ b) : a.beyond ≤ b.beyond := by
  revert h
  cases a <;> cases b <;> decide

theorem le_beyond (a : Loss) : a ≤ a.beyond := by
  cases a <;> decide

@[simp] theorem join_nothing (a : Loss) : a.join .nothing = a := by
  cases a <;> rfl

@[simp] theorem nothing_join (a : Loss) : Loss.nothing.join a = a := by
  cases a <;> rfl

@[simp] theorem join_whole (a : Loss) : a.join .whole = .whole := by
  cases a <;> rfl

@[simp] theorem whole_join (a : Loss) : Loss.whole.join a = .whole := by
  cases a <;> rfl

@[simp] theorem beyond_beyond (a : Loss) : a.beyond.beyond = a.beyond := by
  cases a <;> rfl

end Loss

/-! ## Inroads of records -/

/-- The tags of the nodes that records change, by what becomes of the nodes. -/
structure Inroads where
  /-- An expression, a type or statements are put in their place. -/
  replaced : List Tag := []
  /-- Markers that get another name and other arguments. -/
  renamed : List Tag := []
  /-- They are made anew from some of their parts. -/
  remade : List Tag := []
  /-- They go, and an item of a list goes with a comma beside it. -/
  removed : List Tag := []
  /-- Declarations that get a marker, a base type or another header. -/
  altered : List Tag := []
  /-- Methods that get other modifiers or another return type. -/
  reheaded : List Tag := []

/-- The tags of the nodes that are lost whole. -/
def Inroads.gone (i : Inroads) : List Tag :=
  i.remade ++ i.removed

/-- What a record makes of the nodes with its tags. -/
def Record.inroads (r : Record) : Inroads :=
  match r.change with
  | .exceptionCapture .. | .callReplacement _ | .assertion _ => { replaced := [r.tag] }
  | .container change =>
    { replaced := change.typeTag.toList, remade := change.creationTag.toList }
  | .signature _ => { altered := [r.tag], reheaded := [r.tag] }
  | .methodMarker _ returnType =>
    { altered := [r.tag], reheaded := if returnType.isSome then [r.tag] else [] }
  | .marker _ | .parameterMarker .. => { renamed := [r.tag] }
  | .baseTypeAddition _ | .classMarker _ => { altered := [r.tag] }
  | .markerRemoval | .baseTypeRemoval _ | .memberRemoval _ | .parameterRemoval .. =>
    { removed := [r.tag] }

/-- What the records of a plan make of the nodes with their tags. -/
def Plan.inroads (plan : Plan) : Inroads where
  replaced := plan.records.flatMap (·.inroads.replaced)
  renamed := plan.records.flatMap (·.inroads.renamed)
  remade := plan.records.flatMap (·.inroads.remade)
  removed := plan.records.flatMap (·.inroads.removed)
  altered := plan.records.flatMap (·.inroads.altered)
  reheaded := plan.records.flatMap (·.inroads.reheaded)

instance (tags : List Tag) (top : Top) : Decidable (top.Bears tags) :=
  inferInstanceAs (Decidable (∃ tag ∈ tags, tag ∈ top.tags))

theorem Top.Bears.mono {tags tags' : List Tag} {top : Top} (h : top.Bears tags)
    (hsub : tags ⊆ tags') : top.Bears tags' := by
  obtain ⟨tag, htag, hmem⟩ := h
  exact ⟨tag, hsub htag, hmem⟩

theorem Top.not_bears {tags : List Tag} {top : Top} (h : top.tags = []) : ¬top.Bears tags := by
  rintro ⟨tag, -, hmem⟩
  rw [h] at hmem
  cases hmem

/-- What stands around a part. -/
structure Place where
  /-- The construct around the part is a method that gets another header. -/
  reheaded : Bool := false
  /-- The child in front of the part goes. -/
  before : Bool := false
  /-- The child behind the part goes. -/
  after : Bool := false

/-- The kinds and tags of the nodes among some parts. -/
def Element.kids (es : List Element) : List Top :=
  es.filterMap fun e => e.node?.map Node.top

/-- True when a part holds a token, or a node that an edit may put tokens in the place of. -/
def Element.fills (e : Element) : Bool :=
  e.hasTokens || e.tops.any fun top => !top.tags.isEmpty

namespace Inroads

/-- An item of a list that stays an item of the list. -/
def Stays (i : Inroads) (kind : Kind) (top : Top) : Prop :=
  kind.bars top.kind = false ∧ ¬top.Bears i.gone ∧ ¬top.Bears i.replaced

instance (i : Inroads) (kind : Kind) (top : Top) : Decidable (i.Stays kind top) :=
  inferInstanceAs (Decidable (_ ∧ _ ∧ _))

/-- A list of markers or base types that goes with the last of its items. -/
def Empties (i : Inroads) (top : Top) (kids : List Top) : Prop :=
  top.kind.isListing = true ∧ (∃ kid ∈ kids, kid.Bears i.removed) ∧
    ¬∃ kid ∈ kids, i.Stays top.kind kid

instance (i : Inroads) (top : Top) (kids : List Top) : Decidable (i.Empties top kids) :=
  inferInstanceAs (Decidable (_ ∧ _ ∧ _))

/-- What a node is to its parts. -/
def place (i : Inroads) (top : Top) : Place where
  reheaded := decide (top.kind = .methodDeclaration ∧ top.Bears i.reheaded)

/-- Whether a child goes, for what is next to it. A list of markers or base types is no item itself,
    so one that stays passes on whether the child beyond it goes. -/
def flank (i : Inroads) (beyond : Bool) (top : Top) : Bool :=
  decide (top.Bears i.removed) || (top.kind.isListing && beyond)

/-- True of a node that is lost whole: it goes, or all its items do, or it is the modifiers of a
    method that gets others and holds what is no modifier. -/
def Drops (i : Inroads) (p : Place) (top : Top) (kids : List Top) : Prop :=
  top.Bears i.gone ∨ i.Empties top kids ∨
    (p.reheaded = true ∧ top.kind = .modifiers ∧ kids ≠ [])

instance (i : Inroads) (p : Place) (top : Top) (kids : List Top) : Decidable (i.Drops p top kids) :=
  inferInstanceAs (Decidable (_ ∨ _ ∨ _))

/-- True of a node that another takes the place of, of imports, which may go but leave what stands
    in front of them, and of the modifiers and the return type of a method that gets others. -/
def Rewrites (i : Inroads) (p : Place) (top : Top) : Prop :=
  top.Bears i.replaced ∨ top.Bears i.renamed ∨ top.kind = .usingDirective ∨
    (p.reheaded = true ∧ Kind.bars .methodDeclaration top.kind = true)

instance (i : Inroads) (p : Place) (top : Top) : Decidable (i.Rewrites p top) :=
  inferInstanceAs (Decidable (_ ∨ _ ∨ _ ∨ _))

/-- The loss that a node brings to its parts, given what stands around it. -/
def own (i : Inroads) (p : Place) (top : Top) (kids : List Top) : Loss :=
  if i.Drops p top kids then .whole else if i.Rewrites p top then .inner else .nothing

/-- The loss of the parts of a node. A declaration that is altered has something new in front, so
    nothing of it is left where only what stands in front would be. -/
def within (i : Inroads) (p : Place) (loss : Loss) (top : Top) (kids : List Top) : Loss :=
  if top.Bears i.altered then (loss.join (i.own p top kids)).beyond
  else loss.join (i.own p top kids)

end Inroads

namespace Element

/-- Whether the child next to what is beside a part goes. -/
def flank (i : Inroads) (beyond : Bool) : Element → Bool
  | .token _ => beyond
  | .node n => i.flank beyond n.top

/-- Whether the first child of some parts goes, or the one behind them when there is none. -/
def firstGoes (i : Inroads) (behind : Bool) (es : List Element) : Bool :=
  es.foldr (fun e beyond => flank i beyond e) behind

/-- Whether the last child of some parts goes, or the one in front of them when there is none. -/
def lastGoes (i : Inroads) (ahead : Bool) (es : List Element) : Bool :=
  es.foldl (flank i) ahead

end Element

/-- The loss of what follows a part. -/
def Loss.past (loss : Loss) (e : Element) : Loss :=
  if e.fills then loss.beyond else loss

mutual

/-- What a function tells of the tokens of a node that stand outside some inroads. -/
def Node.outside {α : Type} (f : Token → List α) (i : Inroads) : Place → Loss → Node → List α
  | p, loss, ⟨kind, children, _, tags⟩ =>
    Element.outsideIn f i (i.place ⟨kind, tags⟩)
      (i.within p loss ⟨kind, tags⟩ (Element.kids children)) children

/-- What it tells of the tokens of a part. A comma may go with a child beside it. -/
def Element.outside {α : Type} (f : Token → List α) (i : Inroads) :
    Place → Loss → Element → List α
  | p, loss, .token u =>
    if loss = .whole ∨ ((p.before || p.after) = true ∧ u.is "," = true) then [] else f u
  | p, loss, .node n => n.outside f i p loss

/-- What it tells of the tokens of a list of parts. -/
def Element.outsideIn {α : Type} (f : Token → List α) (i : Inroads) :
    Place → Loss → List Element → List α
  | _, _, [] => []
  | p, loss, e :: es =>
    e.outside f i { p with after := Element.firstGoes i p.after es } loss ++
      Element.outsideIn f i { p with before := Element.flank i p.before e } (loss.past e) es

end

/-! ## Parts -/

namespace Element

/-- The loss of what follows a list of parts. -/
def past (loss : Loss) (es : List Element) : Loss :=
  if es.any fills then loss.beyond else loss

theorem past_cons (loss : Loss) (e : Element) (es : List Element) :
    past loss (e :: es) = past (loss.past e) es := by
  unfold past Loss.past
  rw [List.any_cons]
  cases e.fills <;> cases es.any fills <;> simp

theorem past_mono {a b : Loss} (h : a ≤ b) {xs ys : List Element}
    (hfills : xs.any fills = true → ys.any fills = true) : past a xs ≤ past b ys := by
  unfold past
  split
  · rename_i hxs
    rw [if_pos (hfills hxs)]
    exact Loss.beyond_mono h
  · split
    · exact Loss.le_trans h b.le_beyond
    · exact h

@[simp] theorem kids_nil : kids [] = [] := rfl

@[simp] theorem kids_token (u : Token) (es : List Element) : kids (.token u :: es) = kids es := rfl

@[simp] theorem kids_node (n : Node) (es : List Element) :
    kids (.node n :: es) = n.top :: kids es := rfl

@[simp] theorem kids_append (xs ys : List Element) : kids (xs ++ ys) = kids xs ++ kids ys :=
  List.filterMap_append

@[simp] theorem kids_nodes (ns : List Node) : kids (ns.map .node) = ns.map Node.top := by
  induction ns with
  | nil => rfl
  | cons n ns ih => rw [List.map_cons, kids_node, ih, List.map_cons]

@[simp] theorem kids_tokens (ts : List Token) : kids (ts.map .token) = [] := by
  induction ts with
  | nil => rfl
  | cons t ts ih => rw [List.map_cons, kids_token, ih]

theorem tokensIn_of_kids {es : List Element} (h : kids es = []) :
    tokensIn es = es.filterMap token? := by
  induction es with
  | nil => rfl
  | cons e es ih =>
    cases e with
    | token u => exact congrArg (u :: ·) (ih h)
    | node n => cases h

theorem mem_kids {es : List Element} {top : Top} :
    top ∈ kids es ↔ ∃ n, .node n ∈ es ∧ n.top = top := by
  induction es with
  | nil => simp
  | cons e es ih => cases e <;> simp [ih, eq_comm]

theorem fills_of_hasTokens {e : Element} (h : e.hasTokens = true) : e.fills = true := by
  simp [fills, h]

@[simp] theorem fills_token (u : Token) : fills (.token u) = true := rfl

/-- A node fills its place when it bears a tag or one of its parts fills its own. -/
theorem fills_node (n : Node) :
    fills (.node n) = (!n.tags.isEmpty || n.children.any fills) := by
  have hparts : ∀ es : List Element, es.any fills =
      (es.any hasTokens || (topsIn es).any fun top => !top.tags.isEmpty) := by
    intro es
    induction es with
    | nil => rfl
    | cons e es ih =>
      rw [List.any_cons, List.any_cons, ih, topsIn, List.any_append, fills]
      ac_rfl
  rw [hparts, any_hasTokens, fills, hasTokens, tops, tokens_node, Node.tops_eq, List.any_cons,
    Node.tokens_eq]
  simp only [Node.top]
  ac_rfl

theorem fills_of_bears {n : Node} {tags : List Tag} (h : n.top.Bears tags) :
    fills (.node n) = true := by
  obtain ⟨tag, -, htag⟩ := h
  rw [fills_node, Bool.or_eq_true, Bool.not_eq_true', List.isEmpty_eq_false_iff]
  exact .inl (List.ne_nil_of_mem htag)

end Element

/-! ## Neighbours that go -/

namespace Element

variable {i : Inroads} {d : Bool}

@[simp] theorem firstGoes_nil : firstGoes i d [] = d := rfl

@[simp] theorem lastGoes_nil : lastGoes i d [] = d := rfl

theorem firstGoes_cons (e : Element) (es : List Element) :
    firstGoes i d (e :: es) = flank i (firstGoes i d es) e := rfl

theorem lastGoes_cons (e : Element) (es : List Element) :
    lastGoes i d (e :: es) = lastGoes i (flank i d e) es := rfl

theorem firstGoes_append (xs ys : List Element) :
    firstGoes i d (xs ++ ys) = firstGoes i (firstGoes i d ys) xs :=
  List.foldr_append

theorem lastGoes_append (xs ys : List Element) :
    lastGoes i d (xs ++ ys) = lastGoes i (lastGoes i d xs) ys :=
  List.foldl_append

end Element

section

variable {α : Type} {f : Token → List α} {i : Inroads} {p q : Place} {loss loss' : Loss}

theorem Node.outside_eq (n : Node) : n.outside f i p loss =
    Element.outsideIn f i (i.place n.top)
      (i.within p loss n.top (Element.kids n.children)) n.children := by
  obtain ⟨kind, children, span, tags⟩ := n
  rfl

namespace Element

@[simp] theorem outsideIn_nil : outsideIn f i p loss [] = [] := rfl

theorem outsideIn_cons (e : Element) (es : List Element) : outsideIn f i p loss (e :: es) =
    e.outside f i { p with after := firstGoes i p.after es } loss ++
      outsideIn f i { p with before := flank i p.before e } (loss.past e) es := rfl

@[simp] theorem outside_node (n : Node) :
    outside f i p loss (.node n) = n.outside f i p loss := rfl

theorem outsideIn_append (xs ys : List Element) : outsideIn f i p loss (xs ++ ys) =
    outsideIn f i { p with after := firstGoes i p.after ys } loss xs ++
      outsideIn f i { p with before := lastGoes i p.before xs } (past loss xs) ys := by
  induction xs generalizing p loss with
  | nil => rfl
  | cons e xs ih =>
    rw [List.cons_append, outsideIn_cons, outsideIn_cons, ih, past_cons, firstGoes_append,
      lastGoes_cons, List.append_assoc]

theorem outsideIn_single (e : Element) : outsideIn f i p loss [e] = e.outside f i p loss := by
  rw [outsideIn_cons, outsideIn_nil, List.append_nil, firstGoes_nil]

end Element

/-! ## Less loss -/

/-- The second inroads have all the tags of the first. -/
structure Inroads.Within (i j : Inroads) : Prop where
  replaced : i.replaced ⊆ j.replaced
  renamed : i.renamed ⊆ j.renamed
  remade : i.remade ⊆ j.remade
  removed : i.removed ⊆ j.removed
  altered : i.altered ⊆ j.altered
  reheaded : i.reheaded ⊆ j.reheaded

instance : LE Inroads :=
  ⟨Inroads.Within⟩

/-- What is so of the first place is so of the second. -/
structure Place.Within (p q : Place) : Prop where
  reheaded : p.reheaded = true → q.reheaded = true
  before : p.before = true → q.before = true
  after : p.after = true → q.after = true

instance : LE Place :=
  ⟨Place.Within⟩

theorem Place.le_refl (p : Place) : p ≤ p :=
  ⟨id, id, id⟩

namespace Inroads

variable {j : Inroads} {top : Top} {kids : List Top}

theorem le_refl (i : Inroads) : i ≤ i :=
  ⟨List.Subset.refl _, List.Subset.refl _, List.Subset.refl _, List.Subset.refl _,
    List.Subset.refl _, List.Subset.refl _⟩

theorem Within.gone (h : i ≤ j) : i.gone ⊆ j.gone :=
  List.append_subset.2 ⟨List.subset_append_of_subset_left _ h.remade,
    List.subset_append_of_subset_right _ h.removed⟩

theorem removed_subset_gone (i : Inroads) : i.removed ⊆ i.gone :=
  List.subset_append_right _ _

theorem Stays.anti (h : i ≤ j) {kind : Kind} (hstays : j.Stays kind top) : i.Stays kind top :=
  ⟨hstays.1, fun hgone => hstays.2.1 (hgone.mono h.gone),
    fun hreplaced => hstays.2.2 (hreplaced.mono h.replaced)⟩

theorem Empties.mono (h : i ≤ j) (hempties : i.Empties top kids) : j.Empties top kids := by
  obtain ⟨hlisting, ⟨kid, hkid, hgone⟩, hnone⟩ := hempties
  refine ⟨hlisting, ⟨kid, hkid, hgone.mono h.removed⟩, ?_⟩
  rintro ⟨kid, hkid, hstays⟩
  exact hnone ⟨kid, hkid, hstays.anti h⟩

theorem place_mono (h : i ≤ j) (top : Top) : i.place top ≤ j.place top := by
  refine ⟨fun hreheaded => ?_, id, id⟩
  obtain ⟨hkind, hbears⟩ := of_decide_eq_true hreheaded
  exact decide_eq_true ⟨hkind, hbears.mono h.reheaded⟩

theorem flank_mono (h : i ≤ j) {d d' : Bool} (hd : d = true → d' = true)
    (hflank : i.flank d top = true) : j.flank d' top = true := by
  simp only [flank, Bool.or_eq_true, Bool.and_eq_true, decide_eq_true_eq] at hflank ⊢
  exact hflank.imp (·.mono h.removed) fun ⟨hlisting, hgoes⟩ => ⟨hlisting, hd hgoes⟩

theorem own_mono (h : i ≤ j) (hp : p ≤ q) (top : Top) (kids : List Top) :
    i.own p top kids ≤ j.own q top kids := by
  -- Each reason to drop or rewrite a node is there for larger inroads as well.
  have hdrops : i.Drops p top kids → j.Drops q top kids := by
    rintro (hgone | hempties | ⟨hreheaded, hrest⟩)
    · exact .inl (hgone.mono h.gone)
    · exact .inr (.inl (hempties.mono h))
    · exact .inr (.inr ⟨hp.reheaded hreheaded, hrest⟩)
  have hrewrites : i.Rewrites p top → j.Rewrites q top := by
    rintro (hreplaced | hrenamed | himport | ⟨hreheaded, hbars⟩)
    · exact .inl (hreplaced.mono h.replaced)
    · exact .inr (.inl (hrenamed.mono h.renamed))
    · exact .inr (.inr (.inl himport))
    · exact .inr (.inr (.inr ⟨hp.reheaded hreheaded, hbars⟩))
  unfold own
  by_cases hj : j.Drops q top kids
  · rw [if_pos hj]
    exact Loss.le_whole _
  · rw [if_neg hj, if_neg fun hi => hj (hdrops hi)]
    by_cases hi : i.Rewrites p top
    · rw [if_pos hi, if_pos (hrewrites hi)]
      exact Loss.le_refl _
    · rw [if_neg hi]
      exact Loss.nothing_le _

theorem within_mono (h : i ≤ j) (hp : p ≤ q) (hloss : loss ≤ loss') (top : Top)
    (kids : List Top) : i.within p loss top kids ≤ j.within q loss' top kids := by
  have hjoin := Loss.join_mono hloss (own_mono h hp top kids)
  unfold within
  split
  · rename_i haltered
    rw [if_pos (haltered.mono h.altered)]
    exact Loss.beyond_mono hjoin
  · split
    · exact Loss.le_trans hjoin (Loss.le_beyond _)
    · exact hjoin

/-- What is lost within a node depends on its children in no more than whether it is lost whole. -/
theorem within_le_of_drops {kids' : List Top} (h : i.Drops p top kids → i.Drops p top kids') :
    i.within p loss top kids ≤ i.within p loss top kids' := by
  have hown : i.own p top kids ≤ i.own p top kids' := by
    unfold own
    by_cases hdrops : i.Drops p top kids
    · rw [if_pos hdrops, if_pos (h hdrops)]
      exact Loss.le_refl _
    · rw [if_neg hdrops]
      by_cases hdrops' : i.Drops p top kids'
      · rw [if_pos hdrops']
        exact Loss.le_whole _
      · rw [if_neg hdrops']
        exact Loss.le_refl _
  unfold within
  split
  · exact Loss.beyond_mono (Loss.join_mono (Loss.le_refl _) hown)
  · exact Loss.join_mono (Loss.le_refl _) hown

theorem le_within (i : Inroads) (p : Place) (loss : Loss) (top : Top) (kids : List Top) :
    loss ≤ i.within p loss top kids := by
  have hjoin := Loss.le_join_left loss (i.own p top kids)
  unfold within
  split
  · exact Loss.le_trans hjoin (Loss.le_beyond _)
  · exact hjoin

theorem own_le_within (i : Inroads) (p : Place) (loss : Loss) (top : Top) (kids : List Top) :
    i.own p top kids ≤ i.within p loss top kids := by
  have hjoin := Loss.le_join_right loss (i.own p top kids)
  unfold within
  split
  · exact Loss.le_trans hjoin (Loss.le_beyond _)
  · exact hjoin

end Inroads

namespace Element

variable {j : Inroads} {d d' : Bool}

theorem flank_mono (h : i ≤ j) (hd : d = true → d' = true) (e : Element) :
    flank i d e = true → flank j d' e = true := by
  cases e with
  | token u => exact hd
  | node n => exact Inroads.flank_mono h hd

theorem firstGoes_mono (h : i ≤ j) (hd : d = true → d' = true) (es : List Element) :
    firstGoes i d es = true → firstGoes j d' es = true := by
  induction es with
  | nil => exact hd
  | cons e es ih => exact flank_mono h ih e

theorem lastGoes_mono (h : i ≤ j) (hd : d = true → d' = true) (es : List Element) :
    lastGoes i d es = true → lastGoes j d' es = true := by
  induction es generalizing d d' with
  | nil => exact hd
  | cons e es ih => exact ih (flank_mono h hd e)

end Element

/-- The place of the first of some parts. -/
theorem Place.Within.first {j : Inroads} (h : i ≤ j) (hp : p ≤ q) (es : List Element) :
    ({ p with after := Element.firstGoes i p.after es } : Place) ≤
      { q with after := Element.firstGoes j q.after es } :=
  ⟨hp.reheaded, hp.before, Element.firstGoes_mono h hp.after es⟩

/-- The place of what follows a part. -/
theorem Place.Within.next {j : Inroads} (h : i ≤ j) (hp : p ≤ q) (e : Element) :
    ({ p with before := Element.flank i p.before e } : Place) ≤
      { q with before := Element.flank j q.before e } :=
  ⟨hp.reheaded, Element.flank_mono h hp.before e, hp.after⟩

theorem Loss.past_mono (h : loss ≤ loss') (e : Element) : loss.past e ≤ loss'.past e := by
  unfold past
  split
  · exact beyond_mono h
  · exact h

mutual

/-- The less is lost, the more is told. -/
theorem Node.outside_anti {j : Inroads} (h : i ≤ j) : (n : Node) → {p q : Place} →
    {loss loss' : Loss} → p ≤ q → loss ≤ loss' →
    (n.outside f j q loss').Sublist (n.outside f i p loss)
  | ⟨_, children, _, _⟩, _, _, _, _, hp, hloss =>
    Element.outsideIn_anti h children (Inroads.place_mono h _)
      (Inroads.within_mono h hp hloss _ _)

theorem Element.outside_anti {j : Inroads} (h : i ≤ j) : (e : Element) → {p q : Place} →
    {loss loss' : Loss} → p ≤ q → loss ≤ loss' →
    (e.outside f j q loss').Sublist (e.outside f i p loss)
  | .token u, p, q, loss, loss', hp, hloss => by
    rw [Element.outside, Element.outside]
    split
    · exact List.nil_sublist _
    · rename_i hkept
      rw [if_neg]
      rintro (rfl | ⟨hbeside, hcomma⟩)
      · exact hkept (.inl (Loss.eq_whole_of_le hloss))
      · rw [Bool.or_eq_true] at hbeside
        exact hkept (.inr ⟨Bool.or_eq_true _ _ ▸ hbeside.imp hp.before hp.after, hcomma⟩)
  | .node n, _, _, _, _, hp, hloss => n.outside_anti h hp hloss

theorem Element.outsideIn_anti {j : Inroads} (h : i ≤ j) : (es : List Element) →
    {p q : Place} → {loss loss' : Loss} → p ≤ q → loss ≤ loss' →
    (Element.outsideIn f j q loss' es).Sublist (Element.outsideIn f i p loss es)
  | [], _, _, _, _, _, _ => .refl _
  | e :: es, _, _, _, _, hp, hloss =>
    (e.outside_anti h (hp.first h es) hloss).append
      (Element.outsideIn_anti h es (hp.next h e) (Loss.past_mono hloss e))

end

mutual

theorem Node.outside_whole : (n : Node) → (p : Place) → n.outside f i p .whole = []
  | ⟨kind, children, _, tags⟩, p => by
    have hwhole : i.within p .whole ⟨kind, tags⟩ (Element.kids children) = .whole :=
      Loss.eq_whole_of_le (i.le_within p .whole _ _)
    rw [Node.outside, hwhole]
    exact Element.outsideIn_whole children _

theorem Element.outside_whole : (e : Element) → (p : Place) → e.outside f i p .whole = []
  | .token _, _ => by
    rw [Element.outside]
    exact if_pos (.inl rfl)
  | .node n, p => n.outside_whole p

theorem Element.outsideIn_whole : (es : List Element) → (p : Place) →
    Element.outsideIn f i p .whole es = []
  | [], _ => rfl
  | e :: es, p => by
    have hpast : Loss.past .whole e = .whole := ite_self _
    rw [Element.outsideIn, hpast, e.outside_whole, Element.outsideIn_whole es]
    rfl

end

/-- What is told of a node that is lost whole. -/
theorem Node.outside_of_drops {n : Node} (h : i.Drops p n.top (Element.kids n.children)) :
    n.outside f i p loss = [] := by
  have hown : i.own p n.top (Element.kids n.children) = .whole := if_pos h
  have hwhole : i.within p loss n.top (Element.kids n.children) = .whole :=
    Loss.eq_whole_of_le (hown ▸ i.own_le_within p loss _ _)
  rw [n.outside_eq, hwhole, Element.outsideIn_whole]

mutual

/-- What is told is told of the tokens, in their order. -/
theorem Node.outside_sublist : (n : Node) → (p : Place) → (loss : Loss) →
    (n.outside f i p loss).Sublist (n.tokens.flatMap f)
  | ⟨_, children, _, _⟩, _, _ => Element.outsideIn_sublist children _ _

theorem Element.outside_sublist : (e : Element) → (p : Place) → (loss : Loss) →
    (e.outside f i p loss).Sublist (e.tokens.flatMap f)
  | .token u, p, loss => by
    rw [Element.outside, Element.tokens_token, List.flatMap_cons, List.flatMap_nil, List.append_nil]
    split
    · exact List.nil_sublist _
    · exact .refl _
  | .node n, p, loss => n.outside_sublist p loss

theorem Element.outsideIn_sublist : (es : List Element) → (p : Place) → (loss : Loss) →
    (Element.outsideIn f i p loss es).Sublist ((Element.tokensIn es).flatMap f)
  | [], _, _ => .refl _
  | e :: es, p, loss => by
    rw [Element.outsideIn, Element.tokensIn_cons, List.flatMap_append]
    exact (e.outside_sublist _ loss).append (Element.outsideIn_sublist es _ _)

end

theorem Element.outside_of_tokens_eq_nil {e : Element} (h : e.tokens = []) :
    e.outside f i p loss = [] := by
  have hsub := e.outside_sublist (f := f) (i := i) p loss
  rw [h] at hsub
  exact List.sublist_nil.1 hsub

mutual

theorem Node.outside_congr {g : Token → List α} : (n : Node) → (p : Place) → (loss : Loss) →
    (∀ u ∈ n.tokens, f u = g u) → n.outside f i p loss = n.outside g i p loss
  | ⟨_, children, _, _⟩, _, _, h => Element.outsideIn_congr children _ _ h

theorem Element.outside_congr {g : Token → List α} : (e : Element) → (p : Place) →
    (loss : Loss) → (∀ u ∈ e.tokens, f u = g u) → e.outside f i p loss = e.outside g i p loss
  | .token u, p, loss, h => by
    rw [Element.outside, Element.outside, h u (List.mem_singleton_self u)]
  | .node n, p, loss, h => n.outside_congr p loss h

theorem Element.outsideIn_congr {g : Token → List α} : (es : List Element) → (p : Place) →
    (loss : Loss) → (∀ u ∈ Element.tokensIn es, f u = g u) →
    Element.outsideIn f i p loss es = Element.outsideIn g i p loss es
  | [], _, _, _ => rfl
  | e :: es, p, loss, h => by
    rw [Element.outsideIn, Element.outsideIn,
      e.outside_congr _ loss fun u hu => h u (List.mem_append_left _ hu),
      Element.outsideIn_congr es _ _ fun u hu => h u (List.mem_append_right _ hu)]

end

/-! ## First tokens -/

/-- What is told of the first of some tokens. -/
def Token.tellFirst (f : Token → List α) (ts : List Token) : List α :=
  (ts.head?.map f).getD []

theorem Token.tellFirst_append_of_ne_nil {ts : List Token} (h : ts ≠ []) (us : List Token) :
    Token.tellFirst f (ts ++ us) = Token.tellFirst f ts := by
  cases ts with
  | nil => exact absurd rfl h
  | cons t ts => rfl

mutual

/-- Where all but what stands in front is lost, no more is told than of the first token. -/
theorem Node.outside_inner_sublist : (n : Node) → (p : Place) →
    (n.outside f i p .inner).Sublist (Token.tellFirst f n.tokens)
  | ⟨_, children, _, _⟩, _ =>
    (Element.outsideIn_anti i.le_refl children (Place.le_refl _) (i.le_within _ _ _ _)).trans
      (Element.outsideIn_inner_sublist children _)

theorem Element.outside_inner_sublist : (e : Element) → (p : Place) →
    (e.outside f i p .inner).Sublist (Token.tellFirst f e.tokens)
  | .token u, p => by
    rw [Element.outside]
    split
    · exact List.nil_sublist _
    · exact .refl _
  | .node n, p => n.outside_inner_sublist p

theorem Element.outsideIn_inner_sublist : (es : List Element) → (p : Place) →
    (Element.outsideIn f i p .inner es).Sublist (Token.tellFirst f (Element.tokensIn es))
  | [], _ => List.nil_sublist _
  | e :: es, p => by
    rw [Element.outsideIn, Element.tokensIn_cons]
    by_cases htokens : e.tokens = []
    · rw [Element.outside_of_tokens_eq_nil htokens, htokens, List.nil_append, List.nil_append]
      refine (Element.outsideIn_anti i.le_refl es (Place.le_refl _) ?_).trans
        (Element.outsideIn_inner_sublist es _)
      unfold Loss.past
      split <;> decide
    · have hfills : e.fills = true :=
        Element.fills_of_hasTokens (by simpa [Element.hasTokens] using htokens)
      have hpast : Loss.past .inner e = .whole := if_pos hfills
      rw [hpast, Element.outsideIn_whole, List.append_nil, Token.tellFirst_append_of_ne_nil htokens]
      exact e.outside_inner_sublist _

end

/-! ### Fresh nodes -/

theorem Node.Fresh.kids {n : Node} (h : n.Fresh) :
    ∀ kid ∈ Element.kids n.children, kid.tags = [] := by
  intro kid hkid
  obtain ⟨c, hc, rfl⟩ := Element.mem_kids.1 hkid
  exact (Node.fresh_iff.1 ((Node.fresh_iff.1 h).2 c hc)).1

theorem Inroads.place_of_fresh (i : Inroads) {n : Node} (h : n.Fresh) : i.place n.top = {} := by
  have htags : n.top.tags = [] := (Node.fresh_iff.1 h).1
  simp [Inroads.place, Top.not_bears htags]

theorem Inroads.flank_of_bears (i : Inroads) {top : Top} (h : top.Bears i.removed) (d : Bool) :
    i.flank d top = true := by
  simp [flank, h]

/-- A node without tags does not go, so what is next to it is told at most what is beyond it. -/
theorem Inroads.flank_of_untagged {top : Top} (h : top.tags = []) {d : Bool}
    (hflank : i.flank d top = true) : d = true := by
  simp only [flank, Top.not_bears h, decide_false, Bool.false_or, Bool.and_eq_true] at hflank
  exact hflank.2

theorem Element.flank_of_fresh {n : Node} (h : n.Fresh) : flank i false (.node n) = false :=
  Bool.eq_false_iff.2 fun hflank =>
    Bool.false_ne_true (Inroads.flank_of_untagged (Node.fresh_iff.1 h).1 hflank)

theorem Element.firstGoes_of_fresh {es : List Element} (h : Each Node.Fresh es) :
    firstGoes i false es = false := by
  induction es with
  | nil => rfl
  | cons e es ih =>
    rw [firstGoes_cons, ih fun c hc => h c (List.mem_cons_of_mem _ hc)]
    cases e with
    | token u => rfl
    | node n => exact flank_of_fresh (h n (List.mem_cons_self ..))

/-- A fresh node brings its parts no more than the loss of what stands behind the first token,
    unless it holds nodes where the modifiers of a method stand. -/
theorem Inroads.within_of_fresh (i : Inroads) {n : Node} (h : n.Fresh)
    (hp : p.reheaded = true → n.kind = .modifiers → Element.kids n.children = []) :
    i.within p .inner n.top (Element.kids n.children) = .inner := by
  have htags : n.top.tags = [] := (Node.fresh_iff.1 h).1
  have hdrops : ¬i.Drops p n.top (Element.kids n.children) := by
    rintro (hgone | ⟨-, ⟨kid, hkid, hgone⟩, -⟩ | ⟨hreheaded, hkind, hkids⟩)
    · exact Top.not_bears htags hgone
    · exact Top.not_bears (h.kids kid hkid) hgone
    · exact hkids (hp hreheaded hkind)
  rw [Inroads.within, if_neg (Top.not_bears htags), Inroads.own, if_neg hdrops]
  split <;> rfl

mutual

/-- What stands in front of a fresh node is told. -/
theorem Node.tellFirst_sublist_outside : (n : Node) → (p : Place) → n.Fresh →
    (p.reheaded = true → n.kind = .modifiers → Element.kids n.children = []) →
    (Token.tellFirst f n.tokens).Sublist (n.outside f i p .inner)
  | ⟨kind, children, span, tags⟩, p, hfresh, hkind => by
    rw [Node.outside_eq, i.within_of_fresh hfresh hkind, i.place_of_fresh hfresh]
    exact Element.tellFirst_sublist_outsideIn children (Node.fresh_iff.1 hfresh).2

theorem Element.tellFirst_sublist_outsideIn : (es : List Element) →
    Element.Each Node.Fresh es →
    (Token.tellFirst f (Element.tokensIn es)).Sublist (Element.outsideIn f i {} .inner es)
  | [], _ => List.nil_sublist _
  | .token u :: es, hes => by
    have hnext := Element.firstGoes_of_fresh (i := i) fun c hc => hes c (List.mem_cons_of_mem _ hc)
    rw [Element.outsideIn, Element.outside, if_neg (by simp [hnext])]
    exact List.sublist_append_left _ _
  | .node n :: es, hes => by
    have hfresh := hes n (List.mem_cons_self ..)
    have hnode := n.tellFirst_sublist_outside { after := Element.firstGoes i false es } hfresh nofun
    have hrest := Element.tellFirst_sublist_outsideIn es fun c hc =>
      hes c (List.mem_cons_of_mem _ hc)
    rw [Element.outsideIn, Element.tokensIn_cons, Element.tokens_node, Element.outside,
      Element.flank_of_fresh hfresh]
    by_cases htokens : n.tokens = []
    · have hpast : Loss.past .inner (.node n) = .inner := by
        refine if_neg ?_
        simp only [Element.fills, Element.hasTokens, Element.tokens_node, htokens, Element.tops]
        simpa [Node.Fresh] using hfresh
      rw [htokens, List.nil_append, hpast]
      exact hrest.trans (List.sublist_append_right _ _)
    · rw [Token.tellFirst_append_of_ne_nil htokens]
      exact hnode.trans (List.sublist_append_left _ _)

end

/-! ### Changes of tokens -/

/-- A change of tokens that leaves the words. -/
def Token.KeepsWord (g : Token → Token) : Prop :=
  ∀ u, (g u).kind = u.kind ∧ (g u).text = u.text

theorem Token.KeepsWord.is_eq {g : Token → Token} (h : Token.KeepsWord g) (u : Token)
    (text : String) : (g u).is text = u.is text := by
  obtain ⟨hkind, htext⟩ := h u
  simp only [Token.is, Token.isWord, hkind, htext]

theorem Token.keepsWord_leading (g : Token → List Trivia) :
    Token.KeepsWord fun u => { u with leading := g u } :=
  fun _ => ⟨rfl, rfl⟩

theorem Token.keepsWord_trailing (g : Token → List Trivia) :
    Token.KeepsWord fun u => { u with trailing := g u } :=
  fun _ => ⟨rfl, rfl⟩

mutual

theorem Node.tokens_blank_eq_nil : (n : Node) → (n.blank.tokens = [] ↔ n.tokens = [])
  | ⟨_, children, _, _⟩ => Element.tokensIn_blankIn_eq_nil children

theorem Element.tokens_blank_eq_nil : (e : Element) → (e.blank.tokens = [] ↔ e.tokens = [])
  | .token _ => by simp [Element.blank]
  | .node n => n.tokens_blank_eq_nil

theorem Element.tokensIn_blankIn_eq_nil : (es : List Element) →
    (Element.tokensIn (Element.blankIn es) = [] ↔ Element.tokensIn es = [])
  | [] => Iff.rfl
  | e :: es => by
    rw [Element.blankIn, Element.tokensIn_cons, Element.tokensIn_cons, List.append_eq_nil_iff,
      List.append_eq_nil_iff, e.tokens_blank_eq_nil, Element.tokensIn_blankIn_eq_nil es]

end

theorem Node.tokens_ne_nil_of_blank {n n' : Node} (h : n.tokens ≠ []) (hblank : n'.blank = n.blank) :
    n'.tokens ≠ [] := by
  rwa [Ne, ← n'.tokens_blank_eq_nil, hblank, tokens_blank_eq_nil]

namespace Element

variable {e e' : Element} {xs ys : List Element}

theorem hasTokens_blank (e : Element) : e.blank.hasTokens = e.hasTokens := by
  rw [Bool.eq_iff_iff, ← Bool.not_eq_false, ← Bool.not_eq_false, hasTokens_eq_false,
    hasTokens_eq_false, tokens_blank_eq_nil]

theorem fills_blank (e : Element) : e.blank.fills = e.fills := by
  rw [fills, fills, hasTokens_blank, tops_blank]

theorem fills_of_blank (h : e'.blank = e.blank) : e'.fills = e.fills := by
  rw [← e'.fills_blank, h, fills_blank]

theorem any_fills_of_blank (h : ys.map blank = xs.map blank) : ys.any fills = xs.any fills := by
  have hmap : ∀ zs : List Element, (zs.map blank).any fills = zs.any fills := fun zs => by
    rw [List.any_map]
    exact congrArg (List.any zs) (funext fills_blank)
  rw [← hmap ys, h, hmap]

theorem kids_map_blank (es : List Element) : kids (es.map blank) = kids es := by
  induction es with
  | nil => rfl
  | cons e es ih =>
    cases e with
    | token u => simpa [blank] using ih
    | node n =>
      obtain ⟨kind, children, span, tags⟩ := n
      simpa [blank, Node.blank, Node.top] using ih

theorem kids_of_blank (h : ys.map blank = xs.map blank) : kids ys = kids xs := by
  rw [← kids_map_blank ys, h, kids_map_blank]

theorem flank_blank (d : Bool) (e : Element) : flank i d e.blank = flank i d e := by
  cases e with
  | token u => rfl
  | node n =>
    obtain ⟨kind, children, span, tags⟩ := n
    simp [blank, Node.blank, flank, Node.top]

theorem flank_of_blank (h : e'.blank = e.blank) (d : Bool) : flank i d e' = flank i d e := by
  rw [← flank_blank, h, flank_blank]

theorem firstGoes_of_blank (h : ys.map blank = xs.map blank) (d : Bool) :
    firstGoes i d ys = firstGoes i d xs := by
  have hmap : ∀ zs : List Element, firstGoes i d (zs.map blank) = firstGoes i d zs := fun zs => by
    simp only [firstGoes, List.foldr_map, flank_blank]
  rw [← hmap ys, h, hmap]

theorem lastGoes_of_blank (h : ys.map blank = xs.map blank) (d : Bool) :
    lastGoes i d ys = lastGoes i d xs := by
  have hmap : ∀ zs : List Element, lastGoes i d (zs.map blank) = lastGoes i d zs := fun zs => by
    simp only [lastGoes, List.foldl_map, flank_blank]
  rw [← hmap ys, h, hmap]

theorem firstGoes_mapFirstIn (g : Token → Token) (d : Bool) (es : List Element) :
    firstGoes i d (mapFirstIn g es) = firstGoes i d es := by
  refine firstGoes_of_blank ?_ d
  rw [← blankIn_eq_map, ← blankIn_eq_map, blankIn_mapFirstIn]

theorem firstGoes_mapLastIn (g : Token → Token) (d : Bool) (es : List Element) :
    firstGoes i d (mapLastIn g es) = firstGoes i d es := by
  refine firstGoes_of_blank ?_ d
  rw [← blankIn_eq_map, ← blankIn_eq_map, blankIn_mapLastIn]

theorem kids_mapFirstIn (g : Token → Token) (es : List Element) :
    kids (mapFirstIn g es) = kids es := by
  refine kids_of_blank ?_
  rw [← blankIn_eq_map, ← blankIn_eq_map, blankIn_mapFirstIn]

theorem kids_mapLastIn (g : Token → Token) (es : List Element) :
    kids (mapLastIn g es) = kids es := by
  refine kids_of_blank ?_
  rw [← blankIn_eq_map, ← blankIn_eq_map, blankIn_mapLastIn]

end Element

mutual

/-- What is not told of the trivia after a token does not change with it. -/
theorem Node.outside_mapLast {g : Token → Token} (hword : Token.KeepsWord g)
    (hg : ∀ u, f (g u) = f u) : (n : Node) → (p : Place) → (loss : Loss) →
    (n.mapLast g).outside f i p loss = n.outside f i p loss
  | ⟨_, children, _, _⟩, _, _ => by
    rw [Node.mapLast, Node.outside, Node.outside, Element.kids_mapLastIn,
      Element.outsideIn_mapLastIn hword hg children]

theorem Element.outside_mapLast {g : Token → Token} (hword : Token.KeepsWord g)
    (hg : ∀ u, f (g u) = f u) : (e : Element) → (p : Place) → (loss : Loss) →
    (e.mapLast g).outside f i p loss = e.outside f i p loss
  | .token u, p, loss => by
    rw [Element.mapLast, Element.outside, Element.outside, hword.is_eq, hg]
  | .node n, p, loss => n.outside_mapLast hword hg p loss

theorem Element.outsideIn_mapLastIn {g : Token → Token} (hword : Token.KeepsWord g)
    (hg : ∀ u, f (g u) = f u) : (es : List Element) → (p : Place) → (loss : Loss) →
    Element.outsideIn f i p loss (Element.mapLastIn g es) = Element.outsideIn f i p loss es
  | [], _, _ => rfl
  | e :: es, p, loss => by
    rw [Element.mapLastIn]
    split
    · rw [Element.outsideIn, Element.outsideIn, Element.outsideIn_mapLastIn hword hg es,
        Element.firstGoes_mapLastIn]
    · have hpast : loss.past (e.mapLast g) = loss.past e := by
        rw [Loss.past, Loss.past, Element.fills_of_blank (e.blank_mapLast g)]
      rw [Element.outsideIn, Element.outsideIn, e.outside_mapLast hword hg, hpast,
        Element.flank_of_blank (e.blank_mapLast g)]

end

mutual

/-- A change of the first token changes no more than what is told of that token. -/
theorem Node.outside_mapFirst {g : Token → Token} (hword : Token.KeepsWord g) {l : List α} :
    (n : Node) → (p : Place) → (loss : Loss) →
    (∀ u ∈ n.tokens.head?, (f u).Sublist (l ++ f (g u))) →
    (n.outside f i p loss).Sublist (l ++ (n.mapFirst g).outside f i p loss)
  | ⟨_, children, _, _⟩, _, _, hg => by
    rw [Node.mapFirst, Node.outside, Node.outside, Element.kids_mapFirstIn]
    exact Element.outsideIn_mapFirstIn hword children _ _ hg

theorem Element.outside_mapFirst {g : Token → Token} (hword : Token.KeepsWord g)
    {l : List α} : (e : Element) → (p : Place) → (loss : Loss) →
    (∀ u ∈ e.tokens.head?, (f u).Sublist (l ++ f (g u))) →
    (e.outside f i p loss).Sublist (l ++ (e.mapFirst g).outside f i p loss)
  | .token u, p, loss, hg => by
    rw [Element.mapFirst, Element.outside, Element.outside, hword.is_eq]
    split
    · exact List.nil_sublist _
    · exact hg u rfl
  | .node n, p, loss, hg => n.outside_mapFirst hword p loss hg

theorem Element.outsideIn_mapFirstIn {g : Token → Token} (hword : Token.KeepsWord g)
    {l : List α} : (es : List Element) → (p : Place) → (loss : Loss) →
    (∀ u ∈ (Element.tokensIn es).head?, (f u).Sublist (l ++ f (g u))) →
    (Element.outsideIn f i p loss es).Sublist
      (l ++ Element.outsideIn f i p loss (Element.mapFirstIn g es))
  | [], _, _, _ => List.nil_sublist _
  | e :: es, p, loss, hg => by
    rw [Element.mapFirstIn]
    split
    · rename_i htokens
      have hne : e.tokens ≠ [] := by simpa [Element.hasTokens] using htokens
      have hpast : loss.past (e.mapFirst g) = loss.past e := by
        rw [Loss.past, Loss.past, Element.fills_of_blank (e.blank_mapFirst g)]
      rw [Element.outsideIn, Element.outsideIn, hpast, ← List.append_assoc,
        Element.flank_of_blank (e.blank_mapFirst g)]
      refine (e.outside_mapFirst hword _ loss fun u hu => hg u ?_).append_right _
      rw [Element.tokensIn_cons, List.head?_append_of_ne_nil _ hne]
      exact hu
    · rename_i htokens
      have hnil : e.tokens = [] := Element.hasTokens_eq_false.1 (by simpa using htokens)
      rw [Element.outsideIn, Element.outsideIn, Element.outside_of_tokens_eq_nil hnil,
        Element.outside_of_tokens_eq_nil hnil, List.nil_append, List.nil_append]
      refine Element.outsideIn_mapFirstIn hword es _ _ fun u hu => hg u ?_
      rw [Element.tokensIn_cons, hnil]
      exact hu

end

end

end Recast
