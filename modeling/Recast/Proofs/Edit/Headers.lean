-- SUMMARY: The header of a method as modifiers and a return type, and what the edits that rewrite headers make of it.
import Recast.Proofs.Edit.Preserving
import Recast.Proofs.Grammar.Wrapping

/-! # Headers

The head of a method shows its modifiers and its return type (`Head.Shows`). An edit of a header
takes the node after the modifiers for the return type, so the method splits there
(`Element.exists_split`). A change of a header makes known modifiers of those that the method had
(`SignatureChange.modifiersFrom`) and asks little of the return type (`SignatureChange.Fits`): then
it is carried out, and an asynchronous method gets a type that is wrapped (`reads_changeHeader`). -/

namespace Recast

/-! ## What a head shows -/

/-- The kind of a part of a header. -/
def HeaderPart.kind? (part : HeaderPart) : Option Kind :=
  part.tops.head?.map Top.kind

@[simp] theorem Node.kind?_headerPart (n : Node) : n.headerPart.kind? = some n.kind := by
  rw [HeaderPart.kind?, headerPart, tops_eq]
  rfl

/-- Types and parts of types without tags are of the sort. -/
def Admits (D : Top → Prop) : Prop :=
  ∀ top : Top, top.kind.isDull = true → top.tags = [] → D top

theorem Admits.type {D : Top → Prop} {n : Node} (hD : Admits D) (htype : n.TypeName)
    (hfresh : n.Fresh) : ∀ top ∈ n.tops, D top :=
  fun top htop => hD top (htype.1.2 top htop) (hfresh top htop)

/-- A header is modifiers and a return type, and all that stands in them is of a sort. -/
structure Head.Shows (D : Top → Prop) (mods type : HeaderPart) (h : Head) : Prop where
  parts_eq : h.parts = [mods, type]
  mods_kind : mods.kind? = some .modifiers
  type_kind : ∃ kind, type.kind? = some kind ∧ kind.isTypeName = true
  mods_each : ∀ top ∈ mods.tops, D top
  type_each : ∀ top ∈ type.tops, D top

/-- A header has some modifiers, and its return type has a text of a sort. -/
def Head.Reads (D : Top → Prop) (words : List String) (P : String → Prop) (h : Head) : Prop :=
  ∃ mods type, h.Shows D mods type ∧ mods.words = words ∧ P type.text

namespace Head

variable {D D' : Top → Prop} {mods type : HeaderPart} {words : List String} {P P' : String → Prop}
  {h : Head}

theorem Shows.clear (hshows : h.Shows D mods type) {Q : Top → Prop} (hQ : ∀ top, D top → ¬Q top) :
    h.Clear Q := by
  intro part hpart top htop
  rw [hshows.parts_eq] at hpart
  rcases List.mem_pair.1 hpart with rfl | rfl
  · exact hQ top (hshows.mods_each top htop)
  · exact hQ top (hshows.type_each top htop)

theorem Reads.clear (hreads : h.Reads D words P) {Q : Top → Prop} (hQ : ∀ top, D top → ¬Q top) :
    h.Clear Q := by
  obtain ⟨mods, type, hshows, -⟩ := hreads
  exact hshows.clear hQ

theorem Reads.mono (hreads : h.Reads D words P) (hP : ∀ type, P type → P' type) :
    h.Reads D words P' := by
  obtain ⟨mods, type, hshows, hwords, htype⟩ := hreads
  exact ⟨mods, type, hshows, hwords, hP _ htype⟩

theorem Reads.weaken (hreads : h.Reads D words P) (hD : ∀ top, D top → D' top) :
    h.Reads D' words P := by
  obtain ⟨mods, type, hshows, hwords⟩ := hreads
  exact ⟨mods, type, ⟨hshows.parts_eq, hshows.mods_kind, hshows.type_kind,
    fun top htop => hD top (hshows.mods_each top htop),
    fun top htop => hD top (hshows.type_each top htop)⟩, hwords⟩

end Head

/-! ## Where a method splits -/

namespace Element

variable {pre post es : List Element} {m v : Node}

theorem headerPart?_of_isValue (hkind : v.kind.isValue = true) :
    (Element.node v).headerPart? = some v.headerPart :=
  if_pos (Kind.bars_of_isValue hkind)

theorem headerPart?_of_modifiers (hkind : m.kind = .modifiers) :
    (Element.node m).headerPart? = some m.headerPart := by
  rw [headerPart?, hkind]
  rfl

theorem headerIn_split (hpre : headerIn pre = []) (hpost : headerIn post = [])
    (hm : m.kind = .modifiers) (hv : v.kind.isValue = true) :
    headerIn (pre ++ .node m :: .node v :: post) = [m.headerPart, v.headerPart] := by
  rw [headerIn_append, hpre, List.nil_append, headerIn, List.filterMap_cons_some
    (headerPart?_of_modifiers hm), List.filterMap_cons_some (headerPart?_of_isValue hv)]
  exact congrArg _ (congrArg _ hpost)

/-- The part in front of a value is the one that modifiers are. -/
theorem eq_node_of_headerPart? {e : Element} {part : HeaderPart} (h : e.headerPart? = some part) :
    ∃ n, e = .node n ∧ n.headerPart = part := by
  cases e with
  | token u => cases h
  | node n =>
    rw [headerPart?] at h
    split at h
    · exact ⟨n, rfl, Option.some.inj h⟩
    · cases h

/-- The parts of a method around its modifiers and its return type. -/
theorem exists_split {mods type : HeaderPart} (hheaded : HeadedIn es)
    (hheader : headerIn es = [mods, type]) (hmods : mods.kind? = some .modifiers) :
    ∃ pre m v post, es = pre ++ .node m :: .node v :: post ∧ headerIn pre = [] ∧
      headerIn post = [] ∧ m.headerPart = mods ∧ v.headerPart = type := by
  obtain ⟨pre, e, rest, rfl, hpre, he, hrest⟩ := List.filterMap_eq_cons_iff.1 hheader
  obtain ⟨m, rfl, rfl⟩ := eq_node_of_headerPart? he
  rw [Node.kind?_headerPart] at hmods
  obtain ⟨v, hv, hvalue⟩ := (headedIn_iff.1 hheaded) pre.length m (by simp) (Option.some.inj hmods)
  obtain ⟨post, rfl⟩ : ∃ post, rest = .node v :: post := by
    cases rest with
    | nil => simp at hv
    | cons e post =>
      refine ⟨post, ?_⟩
      rw [List.getElem?_append_right (Nat.le_succ _)] at hv
      simpa using hv
  rw [List.filterMap_cons_some (headerPart?_of_isValue hvalue)] at hrest
  obtain ⟨htype, hpost⟩ := List.cons.inj hrest
  exact ⟨pre, m, v, post, rfl, List.filterMap_eq_nil_iff.2 hpre, hpost, rfl, htype⟩

/-- Nothing in front of the modifiers is modifiers. -/
theorem findIdx?_split (hpre : headerIn pre = []) (hm : m.kind = .modifiers) (rest : List Element) :
    (pre ++ .node m :: rest).findIdx? (·.isNode .modifiers) = some pre.length := by
  have hnone : pre.findIdx? (·.isNode .modifiers) = none := by
    refine List.findIdx?_eq_none_iff.2 fun e he => Bool.eq_false_iff.2 fun hmodifiers => ?_
    cases e with
    | token u => cases hmodifiers
    | node n =>
      have hpart := List.filterMap_eq_nil_iff.1 hpre _ he
      rw [headerPart?_of_modifiers (eq_of_beq hmodifiers)] at hpart
      cases hpart
  rw [List.findIdx?_append, hnone, List.findIdx?_cons]
  simp [isNode, hm]

end Element

/-- The parts of a method around its modifiers and its return type, whose header reads as given. -/
structure Element.Split (D : Top → Prop) (words : List String) (P : String → Prop)
    (pre : List Element) (m v : Node) (post : List Element) : Prop where
  before : headerIn pre = []
  after : headerIn post = []
  mods_kind : m.kind = .modifiers
  mods_words : m.words = words
  mods_each : ∀ top ∈ m.tops, D top
  type_kind : v.kind.isTypeName = true
  type_text : P v.text
  type_each : ∀ top ∈ v.tops, D top

section Splits

variable {D : Top → Prop} {words : List String} {P : String → Prop} {n m v : Node}
  {pre post : List Element}

theorem Head.Reads.isMethod (h : (n.head true).Reads D words P) : n.kind = .methodDeclaration := by
  obtain ⟨mods, type, hshows, -⟩ := h
  by_contra hkind
  have hparts := hshows.parts_eq
  rw [Node.head, if_neg fun hdeep => hkind hdeep.2] at hparts
  cases hparts

/-- A method whose return type follows its modifiers splits there. -/
theorem Head.Reads.exists_split (h : (n.head true).Reads D words P)
    (hheaded : Element.HeadedIn n.children) :
    ∃ pre m v post, n.children = pre ++ .node m :: .node v :: post ∧
      Element.Split D words P pre m v post := by
  have hkind := h.isMethod
  obtain ⟨mods, type, hshows, hwords, htext⟩ := h
  have hparts := hshows.parts_eq
  rw [Node.head, if_pos ⟨rfl, hkind⟩] at hparts
  obtain ⟨pre, m, v, post, hchildren, hpre, hpost, rfl, rfl⟩ :=
    Element.exists_split hheaded hparts hshows.mods_kind
  have hmods := hshows.mods_kind
  obtain ⟨kind, hkind, htype⟩ := hshows.type_kind
  rw [Node.kind?_headerPart] at hmods hkind
  obtain rfl := Option.some.inj hkind
  exact ⟨pre, m, v, post, hchildren, hpre, hpost, Option.some.inj hmods, hwords, hshows.mods_each,
    htype, htext, hshows.type_each⟩

theorem Element.Split.reads (h : Element.Split D words P pre m v post)
    (hkind : n.kind = .methodDeclaration)
    (hchildren : n.children = pre ++ .node m :: .node v :: post) :
    (n.head true).Reads D words P := by
  have hvalue := Kind.isValue_of_isTypeName h.type_kind
  refine ⟨m.headerPart, v.headerPart, ⟨?_, ?_, ⟨v.kind, v.kind?_headerPart, h.type_kind⟩,
    h.mods_each, h.type_each⟩, h.mods_words, h.type_text⟩
  · rw [Node.head, if_pos ⟨rfl, hkind⟩, hchildren]
    exact Element.headerIn_split h.before h.after h.mods_kind hvalue
  · rw [Node.kind?_headerPart, h.mods_kind]

/-- Other modifiers and another return type at the same places. -/
theorem Element.Split.change {words' : List String} {P' : String → Prop} {m' v' u : Node}
    (h : Element.Split D words P pre m v post) (hmods : m'.kind = .modifiers)
    (hwords : m'.words = words') (hmods_each : ∀ top ∈ m'.tops, D top)
    (hv' : v'.headerPart = u.headerPart) (htype : u.kind.isTypeName = true) (htext : P' u.text)
    (htype_each : ∀ top ∈ u.tops, D top) : Element.Split D words' P' pre m' v' post where
  before := h.before
  after := h.after
  mods_kind := hmods
  mods_words := hwords
  mods_each := hmods_each
  type_kind := by
    have hkind := congrArg HeaderPart.kind? hv'
    rw [Node.kind?_headerPart, Node.kind?_headerPart] at hkind
    rwa [Option.some.inj hkind]
  type_text := by rwa [show v'.text = u.text from congrArg HeaderPart.text hv']
  type_each := by rwa [show v'.tops = u.tops from congrArg HeaderPart.tops hv']

end Splits

/-! ## Modifiers -/

namespace SignatureChange

/-- The modifiers that a change makes of those that a method has. -/
def modifiersFrom (change : SignatureChange) (words : List String) : List String :=
  let shown := if change.makePublic then
    "public" :: words.filter fun word => !Edit.accessModifiers.contains word else words
  if change.addAsync then shown ++ ["async"] else shown

/-- The modifiers that a change adds are not among those that a method has. -/
structure FreeIn (change : SignatureChange) (words : List String) : Prop where
  isPublic : change.makePublic = true → "public" ∉ words
  isAsync : change.addAsync = true → "async" ∉ words

end SignatureChange

namespace Edit

theorem any_is_eq_false {text : String} {ts : List Token} (h : text ∉ ts.map Token.text) :
    ts.any (·.is text) = false := by
  refine List.any_eq_false.2 fun t ht his => h ?_
  rw [← Token.text_of_is his]
  exact List.mem_map_of_mem ht

theorem texts_publicFirst (ts : List Token) : (publicFirst ts).map Token.text =
    "public" :: (ts.map Token.text).filter fun word => !accessModifiers.contains word := by
  simp only [publicFirst, List.map_cons, List.map_map, List.filter_map]
  rfl

theorem texts_changedModifiers {change : SignatureChange} {ts : List Token}
    (hfree : change.FreeIn (ts.map Token.text)) :
    (changedModifiers {} change ts).map Token.text = change.modifiersFrom (ts.map Token.text) := by
  have hshown : (if change.makePublic && !ts.any (·.is "public") then publicFirst ts
      else ts).map Token.text = if change.makePublic then "public" :: (ts.map Token.text).filter
        fun word => !accessModifiers.contains word else ts.map Token.text := by
    cases hpublic : change.makePublic with
    | false => rfl
    | true =>
      rw [any_is_eq_false (hfree.isPublic hpublic)]
      exact texts_publicFirst ts
  simp only [changedModifiers, SignatureChange.modifiersFrom]
  rw [← hshown]
  generalize hts : (if change.makePublic && !ts.any (·.is "public") then publicFirst ts
      else ts) = shown at hshown ⊢
  cases hasync : change.addAsync with
  | false => rfl
  | true =>
    have hnone : "async" ∉ shown.map Token.text := by
      rw [hshown]
      have hold := hfree.isAsync hasync
      split
      · simp only [List.mem_cons, List.mem_filter, not_or, not_and]
        exact ⟨by decide, fun hmem => absurd hmem hold⟩
      · exact hold
    rw [any_is_eq_false hnone]
    simp [Token.ofKeyword]


/-! ## Edits of the parts of a method -/

section Parts

variable {pre post : List Element} {m v : Node}

/-- The modifiers give way to others, and the return type keeps its text. -/
theorem replaceModifiers_split (old new : List Token) : ∃ m' v' : Node,
    replaceModifiers pre.length old new (pre ++ .node m :: .node v :: post) =
      pre ++ .node m' :: .node v' :: post ∧ m'.kind = .modifiers ∧
    m'.words = new.map Token.text ∧ m'.tops = [⟨.modifiers, []⟩] ∧
    v'.headerPart = v.headerPart := by
  have htype : ((pre ++ .node m :: .node v :: post)[pre.length + 1]?.bind Element.node?) = some v := by
    rw [List.getElem?_append_right (Nat.le_succ _)]
    simp [Element.node?]
  have hmods : ∀ (e : Element) (ts : List Token),
      (pre ++ .node m :: e :: post).set pre.length (.node (Node.ofChildren .modifiers
        (ts.map .token))) = pre ++ .node (Node.ofChildren .modifiers (ts.map .token)) :: e :: post := by
    intro e ts
    simp
  have hwords : ∀ ts : List Token, (Node.ofChildren .modifiers (ts.map .token)).words =
      ts.map Token.text := by
    intro ts
    simp [Node.words, Node.childTokens, Node.ofChildren, List.filterMap_map, Function.comp_def,
      Element.token?]
  have htops : ∀ ts : List Token, (Node.ofChildren .modifiers (ts.map .token)).tops =
      [⟨.modifiers, []⟩] := by
    intro ts
    have hnone : Element.topsIn (ts.map .token) = [] := by
      refine List.eq_nil_iff_forall_not_mem.2 fun top htop => ?_
      obtain ⟨c, hc, -⟩ := Element.mem_topsIn.1 htop
      simp at hc
    rw [Node.tops_eq]
    exact congrArg _ hnone
  have htexts : (if old.isEmpty && !new.isEmpty then
      withLeadingTrivia (((some v).map Node.leading).getD []) new else new).map Token.text =
      new.map Token.text := by
    split
    · cases new <;> rfl
    · rfl
  -- Modifiers that come where there were none take the trivia of the return type over.
  simp only [replaceModifiers, htype]
  generalize (if old.isEmpty && !new.isEmpty then withLeadingTrivia (((some v).map
    Node.leading).getD []) new else new) = ts at htexts ⊢
  split
  · rename_i htype
    obtain rfl := Option.some.inj htype
    refine ⟨_, v.withLeading [], ?_, rfl, (hwords ts).trans htexts, htops ts,
      v.headerPart_mapFirst (Token.leadingOnly_set fun _ => [])⟩
    have hset : (pre ++ .node m :: .node v :: post).set (pre.length + 1) (.node (v.withLeading [])) =
        pre ++ .node m :: .node (v.withLeading []) :: post := by
      rw [List.set_append_right _ _ (Nat.le_succ _)]
      simp
    rw [hset]
    exact hmods _ ts
  · exact ⟨_, v, hmods _ ts, rfl, (hwords ts).trans htexts, htops ts, rfl⟩

theorem setReturnType_split {make : Node → Except EditError (Option Node)} {type? : Option Node}
    (hmake : make v = .ok type?) :
    setReturnType (pre.length + 1) make (pre ++ .node m :: .node v :: post) =
      .ok (pre ++ .node m :: .node ((type?.map fun type => type.withTriviaOf v).getD v) :: post) := by
  have htype : ((pre ++ .node m :: .node v :: post)[pre.length + 1]?.bind Element.node?) = some v := by
    rw [List.getElem?_append_right (Nat.le_succ _)]
    simp [Element.node?]
  simp only [setReturnType, htype, hmake, bind, Except.bind]
  cases type? with
  | none => rfl
  | some type => simp [pure, Except.pure]

end Parts

theorem headerPart_withTriviaOf (n other : Node) : (n.withTriviaOf other).headerPart = n.headerPart := by
  rw [Node.withTriviaOf, Node.withTrailing, Node.withLeading,
    Node.headerPart_mapLast (Token.trailingOnly_set fun _ => other.trailing),
    Node.headerPart_mapFirst (Token.leadingOnly_set fun _ => other.leading)]

end Edit

/-! ## Return types -/

namespace SignatureChange

/-- What a change asks of the text of a return type, so that it can be carried out. -/
def Fits (change : SignatureChange) (type : String) : Prop :=
  match change.returnType with
  | .keep => change.addAsync = true → Settings.isWrapped {} type = true
  | .voidToWrapper => type = "void"
  | .wrap _ => type ≠ "void" ∧ ∃ n, Fragment.readType ("Task<" ++ type ++ ">") = .ok n ∧
      Settings.isWrapped {} n.text = true
  | .valueWrapperToWrapper => type = "ValueTask"

/-- What a change makes of the text of a return type: a wrapped one, if the method is asynchronous
    then. -/
def Settles (change : SignatureChange) (type : String) : Prop :=
  change.addAsync = true → Settings.isWrapped {} type = true

end SignatureChange

namespace Edit

open SignatureChange

theorem wrapped_of_readType_wrapper {n : Node} (h : Fragment.readType "Task" = .ok n) :
    Settings.isWrapped {} n.text = true := by
  have htext : (Fragment.readType "Task").toOption.map Node.text = some "Task" := by decide +kernel
  rw [h] at htext
  obtain htext : n.text = "Task" := Option.some.inj htext
  rw [htext]
  decide

theorem exists_readType_wrapper : ∃ n, Fragment.readType "Task" = .ok n :=
  (exists_ok_of_map (b := "Task") (f := Node.text) (by decide +kernel)).imp fun _ h => h.1

theorem mapM_returnTypeOf {text : String} {n : Node} (h : Fragment.readType text = .ok n) :
    (some text).mapM returnTypeOf = .ok (some n) := by
  show (do return some (← reading _ text (Fragment.readType text))) = _
  rw [h]
  rfl

/-- The return type that a change asks for can be read. -/
theorem exists_returnTypeOf {change : SignatureChange} {type : String} (h : change.Fits type) :
    ∃ type?, (changedReturnType? {} type change.returnType).mapM returnTypeOf = .ok type? ∧
      (∀ n ∈ type?, n.TypeName ∧ n.Fresh) ∧
      change.Settles ((type?.map Node.text).getD type) := by
  have hnew : ∀ {text : String} {n : Node}, Fragment.readType text = .ok n →
      ∀ m ∈ some n, m.TypeName ∧ m.Fresh := by
    intro text n hn m hm
    obtain rfl := Option.some.inj hm
    exact ⟨Fragment.typeName_of_readType hn, Fragment.fresh_of_readType hn⟩
  unfold Fits at h
  cases hreturn : change.returnType with
  | keep =>
    rw [hreturn] at h
    exact ⟨none, rfl, nofun, h⟩
  | voidToWrapper =>
    rw [hreturn] at h
    obtain rfl : type = "void" := h
    obtain ⟨n, hn⟩ := exists_readType_wrapper
    exact ⟨some n, mapM_returnTypeOf hn, hnew hn, fun _ => wrapped_of_readType_wrapper hn⟩
  | valueWrapperToWrapper =>
    rw [hreturn] at h
    obtain rfl : type = "ValueTask" := h
    obtain ⟨n, hn⟩ := exists_readType_wrapper
    exact ⟨some n, mapM_returnTypeOf hn, hnew hn, fun _ => wrapped_of_readType_wrapper hn⟩
  | wrap asked =>
    rw [hreturn] at h
    obtain ⟨hvoid, n, hn, hwrapped⟩ := h
    -- A type that is wrapped already is kept.
    cases hold : Settings.isWrapped {} type with
    | true =>
      refine ⟨none, ?_, nofun, fun _ => hold⟩
      have hkept : changedReturnType? {} type (.wrap asked) = none := by
        simp [changedReturnType?, hold]
      rw [hkept]
      rfl
    | false =>
      refine ⟨some n, ?_, hnew hn, fun _ => hwrapped⟩
      have hchanged : changedReturnType? {} type (.wrap asked) = some ("Task<" ++ type ++ ">") := by
        simp only [changedReturnType?, hold, beq_eq_false_iff_ne.2 hvoid]
        rfl
      rw [hchanged]
      exact mapM_returnTypeOf hn

/-- A change of a header that fits is carried out. -/
theorem exists_changeHeader {D : Top → Prop} {words : List String} {change : SignatureChange}
    {pre post : List Element} {m v n : Node} (hD : Admits D)
    (hchildren : n.children = pre ++ .node m :: .node v :: post)
    (hfree : change.FreeIn words) (h : Element.Split D words change.Fits pre m v post) :
    ∃ m' v', changeHeader {} change n =
        .ok (n.withChildren (pre ++ .node m' :: .node v' :: post)) ∧
      Element.Split D (change.modifiersFrom words) change.Settles pre m' v' post := by
  obtain ⟨type?, htype, hnew, hsettles⟩ := exists_returnTypeOf h.type_text
  have hold : n.children[pre.length]?.bind Element.node? = some m := by
    rw [hchildren, List.getElem?_append_right (Nat.le_refl _)]
    simp [Element.node?]
  have hindex : n.indexOf? .modifiers = some pre.length := by
    rw [Node.indexOf?, hchildren]
    exact Element.findIdx?_split h.before h.mods_kind _
  obtain ⟨m', v', hreplaced, hm', hwords, htops, hv'⟩ := @replaceModifiers_split pre post m v
    m.childTokens (changedModifiers {} change m.childTokens)
  rw [← h.mods_words] at hfree
  rw [texts_changedModifiers hfree] at hwords
  -- The new modifiers leave the text of the return type, from which the asked type is made.
  have hmake : (changedReturnType? {} v'.text change.returnType).mapM returnTypeOf = .ok type? := by
    rw [show v'.text = v.text from congrArg HeaderPart.text hv']
    exact htype
  refine ⟨m', (type?.map fun type => type.withTriviaOf v').getD v', ?_, ?_⟩
  · simp only [changeHeader, hindex, hold, Option.map_some, Option.getD_some]
    rw [hchildren, hreplaced, setReturnType_split hmake]
    rfl
  · have hmods : ∀ top ∈ m'.tops, D top := by
      rw [htops]
      intro top htop
      obtain rfl := List.mem_singleton.1 htop
      exact hD _ rfl rfl
    cases type? with
    | none =>
      exact h.change hm' (hwords.trans (congrArg _ h.mods_words)) hmods hv' h.type_kind hsettles
        h.type_each
    | some type =>
      obtain ⟨htype, hfresh⟩ := hnew type rfl
      exact h.change hm' (hwords.trans (congrArg _ h.mods_words)) hmods
        (headerPart_withTriviaOf type v') htype.2 hsettles (hD.type htype hfresh)

end Edit

end Recast
