-- SUMMARY: Analysis leaves every method that it makes a record of the header for ready for the change that the record holds.
import Recast.Proofs.Analysis.Signing
import Recast.Proofs.Plan.Covering
import Recast.Proofs.Plan.Landing

/-! # Ready methods

A method that was read has its modifiers, words all of them, and a type right after them
(`Node.Declared`), and so has its copy with tags (`Declared.reads`). What the passes ask for one
method fits that header, and merges keep this (`Framework.fits_analysis`). Records are made at nodes
that are no types, but for containers of rows; one of these is the return type of a method or not in
its header at all (`Framework.container_of_header`), and then the change fits the sequence that the
container becomes (`SignatureChange.fits_of_rows`). So the method is ready
(`Framework.exists_ready`). -/

namespace Recast

/-! ## Methods that were read -/

namespace Node.Alike

variable {n m : Node}

theorem words_eq (h : n.Alike m) : n.words = m.words := by
  have htokens : ∀ es : List Element,
      es.filterMap Element.token? = (es.map Element.untagged).filterMap Element.token? := by
    intro es
    rw [List.filterMap_map]
    refine congrArg (es.filterMap ·) (funext fun e => ?_)
    cases e <;> rfl
  rw [words, words, childTokens, childTokens, htokens, h.map_children, ← htokens]

end Node.Alike

/-- The copy of a node, in a copy of its parts. -/
theorem Element.eq_node_of_untagged {e : Element} {m : Node}
    (h : e.untagged = (Element.node m).untagged) : ∃ n, e = .node n ∧ n.Alike m := by
  cases e with
  | token u => cases h
  | node n => exact ⟨n, rfl, Element.node.inj h⟩

/-- The header that some parts make is nothing when that of their copy is nothing. -/
theorem Element.headerIn_eq_nil_of_untagged {xs ys : List Element}
    (h : xs.map untagged = ys.map untagged)
    (hys : Each (fun c => Kind.bars .methodDeclaration c.kind = false) ys) : headerIn xs = [] := by
  refine headerIn_eq_nil fun c hc => ?_
  have hmem : (Element.node c).untagged ∈ ys.map untagged := h ▸ List.mem_map_of_mem hc
  obtain ⟨e, he, heq⟩ := List.mem_map.1 hmem
  obtain ⟨d, rfl, halike⟩ := eq_node_of_untagged heq
  show Kind.bars .methodDeclaration c.kind = false
  rw [← halike.kind_eq]
  exact hys d he

namespace Node

/-- A method with its modifiers and its return type in their place, as they are read. -/
structure Declared (n : Node) (lists : List Element) (mods type : Node) (rest : List Element) :
    Prop where
  isMethod : n.kind = .methodDeclaration
  children_eq : n.children = lists ++ .node mods :: .node type :: rest
  modifiers : mods.IsModifiers
  isType : type.kind.isTypeName = true
  led : type.Led
  spelled : Grammar.Spelled .type type.tokens
  around : Element.Each (fun c => Kind.bars .methodDeclaration c.kind = false) (lists ++ rest)

/-- A copy of a method, with copies of the modifiers and of the return type where these are. -/
structure Copied (n a : Node) (mods type : Node) (i : Nat) (mods' type' : Node) : Prop where
  mods_read : n.children[i]? = some (.node mods)
  type_read : n.children[i + 1]? = some (.node type)
  mods_at : a.children[i]? = some (.node mods')
  type_at : a.children[i + 1]? = some (.node type')
  parts_eq : (a.head true).parts = [mods'.headerPart, type'.headerPart]
  mods_alike : mods'.Alike mods
  type_alike : type'.Alike type
  mods_kind : mods'.kind = .modifiers
  type_kind : type'.kind.isTypeName = true

theorem Copied.mods_bars {n a mods type mods' type' : Node} {i : Nat}
    (h : n.Copied a mods type i mods' type') : Kind.bars .methodDeclaration mods'.kind = true := by
  rw [h.mods_kind]
  rfl

theorem Copied.type_bars {n a mods type mods' type' : Node} {i : Nat}
    (h : n.Copied a mods type i mods' type') : Kind.bars .methodDeclaration type'.kind = true :=
  Kind.bars_of_isValue (Kind.isValue_of_isTypeName h.type_kind)

/-- The words in front of the return type of a method. -/
def modifierWords (n : Node) : List String :=
  ((n.child? .modifiers).map words).getD []

variable {n m mods type : Node} {lists rest : List Element}

theorem Formed.exists_declared (h : n.Formed) (hkind : n.kind = .methodDeclaration) :
    ∃ lists mods type rest, n.Declared lists mods type rest := by
  obtain ⟨lists, mods, type, rest, hchildren, hmods, ⟨htype, hled⟩, hspelled, haround⟩ :=
    h.forms.typed hkind
  exact ⟨lists, mods, type, rest, hkind, hchildren, hmods, htype, hled, hspelled, haround⟩

namespace Declared

variable (h : n.Declared lists mods type rest)

include h

theorem childNodes_eq : n.childNodes = lists.filterMap Element.node? ++
    mods :: type :: rest.filterMap Element.node? := by
  rw [childNodes, h.children_eq, List.filterMap_append]
  rfl

/-- Nothing in front of the modifiers is of a sort that only parts of a header are. -/
theorem find?_childNodes {test : Node → Bool}
    (htest : ∀ c, Kind.bars .methodDeclaration c.kind = false → test c = false) :
    n.childNodes.find? test = (mods :: type :: rest.filterMap Element.node?).find? test := by
  rw [h.childNodes_eq, List.find?_append]
  have hnone : (lists.filterMap Element.node?).find? test = none := by
    refine List.find?_eq_none.2 fun c hc => ?_
    obtain ⟨e, he, hnode⟩ := List.mem_filterMap.1 hc
    obtain ⟨c, rfl⟩ : ∃ c, e = .node c := by
      cases e with
      | token u => cases hnode
      | node c => exact ⟨c, rfl⟩
    obtain rfl := Option.some.inj hnode
    simp [htest c (h.around c (List.mem_append_left _ he))]
  rw [hnone]
  rfl

theorem child?_modifiers : n.child? .modifiers = some mods := by
  rw [child?, h.find?_childNodes fun c hc => ?_, List.find?_cons_of_pos (by simp [h.modifiers.kind_eq])]
  cases hkind : c.kind with
  | modifiers =>
    rw [hkind] at hc
    cases hc
  | _ => rfl

theorem typeChild?_eq : n.typeChild? = some type := by
  have hmods : ¬mods.kind.isTypeName = true := by
    rw [h.modifiers.kind_eq]
    exact nofun
  rw [typeChild?, h.find?_childNodes fun c hc => ?_]
  · simp [hmods, h.isType]
  · refine Bool.eq_false_iff.2 fun htype => ?_
    rw [Kind.bars_of_isValue (Kind.isValue_of_isTypeName htype)] at hc
    cases hc

theorem modifierWords_eq : n.modifierWords = mods.words := by
  rw [modifierWords, h.child?_modifiers]
  rfl

/-- A method has the modifiers that are written in front of its return type. -/
theorem hasModifier_of_mem {word : String} (hword : word ∈ n.modifierWords) :
    n.hasModifier word = true := by
  rw [h.modifierWords_eq] at hword
  obtain ⟨t, ht, rfl⟩ := List.mem_map.1 hword
  obtain ⟨e, he, htoken⟩ := List.mem_filterMap.1 ht
  obtain ⟨u, rfl, hu⟩ := h.modifiers.words e he
  obtain rfl := Option.some.inj htoken
  rw [hasModifier, h.child?_modifiers]
  refine List.any_eq_true.2 ⟨.token u, he, ?_⟩
  simp [Element.isToken, Token.is, hu]

/-- The copy of a method with tags has copies of its modifiers and its return type. -/
theorem exists_copy {a : Node} (halike : a.Alike n) :
    ∃ i mods' type', n.Copied a mods type i mods' type' := by
  have hchildren := halike.map_children
  rw [h.children_eq, List.map_append, List.map_cons, List.map_cons] at hchildren
  obtain ⟨lists', es, hes, hlists, hparts⟩ := List.map_eq_append_iff.1 hchildren
  obtain ⟨e, es, rfl, he, hparts⟩ := List.map_eq_cons_iff.1 hparts
  obtain ⟨e', rest', rfl, he', hrest⟩ := List.map_eq_cons_iff.1 hparts
  obtain ⟨mods', rfl, hmods⟩ := Element.eq_node_of_untagged he
  obtain ⟨type', rfl, htype⟩ := Element.eq_node_of_untagged he'
  have hlength := congrArg List.length hlists
  rw [List.length_map, List.length_map] at hlength
  have hmods_kind : mods'.kind = .modifiers := hmods.kind_eq.trans h.modifiers.kind_eq
  have htype_kind : type'.kind.isTypeName = true := htype.kind_eq ▸ h.isType
  refine ⟨lists.length, mods', type', ?_, ?_, ?_, ?_, ?_, hmods, htype, hmods_kind, htype_kind⟩
  · simp [h.children_eq]
  · simp [h.children_eq]
  · simp [hes, ← hlength]
  · simp [hes, ← hlength]
  · rw [Node.head, if_pos ⟨rfl, halike.kind_eq.trans h.isMethod⟩, hes]
    exact Element.headerIn_split
      (Element.headerIn_eq_nil_of_untagged hlists fun c hc =>
        h.around c (List.mem_append_left _ hc))
      (Element.headerIn_eq_nil_of_untagged hrest fun c hc =>
        h.around c (List.mem_append_right _ hc))
      hmods_kind (Kind.isValue_of_isTypeName htype_kind)

end Declared

end Node

/-! ## What is asked of a header -/

namespace SignatureChange

/-- A change that the header of a method fits. -/
structure FitsMethod (change : SignatureChange) (n : Node) : Prop where
  free : change.FreeIn n.modifierWords
  fits : ∀ type, n.typeChild? = some type → change.Fits type.text

variable {first second change : SignatureChange} {words : List String} {type : String}

theorem FreeIn.merge (h : first.FreeIn words) (h' : second.FreeIn words) :
    (first.merge second).FreeIn words where
  isPublic hpublic := (Bool.or_eq_true_iff.1 hpublic).elim h.isPublic h'.isPublic
  isAsync hasync := (Bool.or_eq_true_iff.1 hasync).elim h.isAsync h'.isAsync

/-- Only the return type that a change makes counts, when it makes one. -/
theorem Fits.of_returnType (h : first.Fits type) (hsame : second.returnType = first.returnType)
    (hkeep : first.returnType ≠ .keep) : second.Fits type := by
  unfold Fits at h ⊢
  rw [hsame]
  cases hreturn : first.returnType with
  | keep => exact absurd hreturn hkeep
  | _ =>
    rw [hreturn] at h
    exact h

theorem Fits.merge (h : first.Fits type) (h' : second.Fits type) :
    (first.merge second).Fits type := by
  by_cases hfirst : first.returnType = .keep
  · have hmerged : (first.merge second).returnType = second.returnType := if_pos hfirst
    by_cases hsecond : second.returnType = .keep
    · unfold Fits at h h' ⊢
      rw [hfirst] at h
      rw [hsecond] at h'
      rw [hmerged, hsecond]
      exact fun hasync => (Bool.or_eq_true_iff.1 hasync).elim h h'
    · exact h'.of_returnType hmerged hsecond
  · exact h.of_returnType (if_neg hfirst) hfirst

theorem kept_fitsMethod : Kept fun s change => change.FitsMethod s.node :=
  fun _ _ _ h h' => ⟨h.free.merge h'.free, fun type htype => (h.fits type htype).merge (h'.fits type htype)⟩

/-- A change that a container of rows fits fits the sequence that the container becomes. -/
theorem fits_of_rows {rest element : String} {n : Node} (h : change.Fits ("TheoryData" ++ rest))
    (hread : Fragment.readType ("IEnumerable" ++ ("<" ++ element ++ ">")) = .ok n) :
    change.Fits n.text := by
  have hname : ∀ {name : String}, "TheoryData" ++ rest = name →
      name.toList.head? = some 'T' := by
    rintro name rfl
    rw [String.toList_append]
    rfl
  unfold Fits at h ⊢
  cases hreturn : change.returnType with
  | keep =>
    rw [hreturn] at h
    refine fun hasync => absurd (h hasync) ?_
    rw [Settings.isWrapped_rows]
    exact nofun
  | voidToWrapper =>
    rw [hreturn] at h
    exact absurd (hname h) (by decide)
  | valueWrapperToWrapper =>
    rw [hreturn] at h
    exact absurd (hname h) (by decide)
  | wrap asked =>
    obtain ⟨more, hmore⟩ := Fragment.exists_text_append_name hread (by decide)
    refine ⟨fun hvoid => ?_, Fragment.exists_wrapped_of_readType hread⟩
    rw [hvoid] at hmore
    have hhead := congrArg (fun text => text.toList.head?) hmore
    simp only [String.toList_append] at hhead
    cases hhead

end SignatureChange

/-- The text of a generic name starts with its name. -/
theorem Node.exists_text_of_led {n : Node} {name : String} (hled : n.Led)
    (hkind : n.kind = .genericName) (hname : n.identifier? = some name) :
    ∃ rest, n.text = name ++ rest := by
  obtain ⟨t, es, hchildren, hidentifier⟩ := hled hkind
  have htokens : n.childTokens = t :: es.filterMap Element.token? := by
    rw [childTokens, hchildren]
    rfl
  rw [identifier?, htokens, List.find?_cons_of_pos (by simp [hidentifier])] at hname
  obtain rfl := Option.some.inj hname
  rw [text, tokens_eq, hchildren]
  exact Token.exists_textOf_cons t _

namespace Framework

/-- The containers that are proposed for a change are containers of rows. -/
theorem container_eq_ok {f : Framework} {cx : Context} {s : Site} {p : ContainerProposal}
    (h : f.strategy.container cx s = .ok (some p)) :
    p.container = "IEnumerable" ∧ s.node.identifier? = some "TheoryData" := by
  cases f with
  | nUnit => cases h
  | msTest => cases h
  | xUnit =>
    have h : XUnit.container cx s = .ok (some p) := h
    unfold XUnit.container at h
    split at h
    · cases h
    · rename_i name hname
      obtain ⟨-, rfl⟩ : s.node.kind = .genericName ∧ name = ⟨s.node⟩ := by
        unfold View.GenericName.of? at hname
        split at hname
        · rename_i hkind
          exact ⟨eq_of_beq hkind, (Option.some.inj hname).symm⟩
        · cases hname
      simp only at h
      split at h
      · cases h
      · rename_i hrows
        simp only [Bool.or_eq_true, not_or, bne_iff_ne, ne_eq, not_not] at hrows
        refine ⟨?_, hrows.1⟩
        obtain ⟨symbol, -, h⟩ := ok_of_bind h
        split at h
        · cases h
        · split at h
          · cases h
          · obtain rfl := Option.some.inj (Except.ok.inj h)
            rfl
          · obtain rfl := Option.some.inj (Except.ok.inj h)
            rfl

/-- Every method of a tree that was read is declared. -/
theorem exists_declared {source : String} {t : Tree} (hparse : Tree.parse source = .ok t) {s : Site}
    (hs : s ∈ t.sites) (hkind : s.kind = .methodDeclaration) :
    ∃ lists mods type rest, s.node.Declared lists mods type rest := by
  obtain ⟨-, hat⟩ := Tree.mem_sites_iff.1 hs
  exact ((Tree.formed_of_parse hparse).at? hat).exists_declared hkind

/-- The return type of a method can be read again where it is wrapped. -/
theorem exists_wrapped_returnType {source : String} {t : Tree} (ht : t.ReadFrom source) {s : Site}
    (hs : s ∈ t.sites) {lists rest : List Element} {mods type : Node}
    (h : s.node.Declared lists mods type rest) :
    ∃ n, Fragment.readType ("Task<" ++ type.text ++ ">") = .ok n ∧
      Settings.isWrapped {} n.text = true := by
  obtain ⟨-, hat⟩ := Tree.mem_sites_iff.1 hs
  have htype : t.root.at? (s.path ++ [lists.length + 1]) = some type := by
    rw [Node.at?_append, hat]
    refine Node.at?_cons_eq_some.2 ⟨type, ?_, rfl⟩
    rw [h.children_eq, List.getElem?_append_right (Nat.le_succ _)]
    simp
  have hscan := ht.scan
  rw [Node.tokens_around htype, List.append_assoc] at hscan
  refine Fragment.exists_wrapped hscan (fun hnil => ?_) h.spelled
  -- the end of the file is in no child of the root
  obtain ⟨i, p, hpath⟩ := List.exists_cons_of_ne_nil
    (show s.path ++ [lists.length + 1] ≠ [] by simp)
  rw [hpath] at htype hnil
  obtain ⟨c, hc, hat⟩ := Node.at?_cons_eq_some.1 htype
  obtain ⟨parts, last, hchildren⟩ := ht.children_eq
  rw [Node.tokensAfter_cons hc, List.append_eq_nil_iff, hchildren] at hnil
  rw [hchildren] at hc
  have hlt : i < parts.length := by
    by_contra hle
    rw [List.getElem?_append_right (Nat.not_lt.1 hle)] at hc
    have hlast := List.mem_of_getElem? hc
    simp at hlast
  rw [List.drop_append_of_le_length hlt, Element.tokensIn_append] at hnil
  simp [Element.tokensIn] at hnil

/-- What becomes of the return type of a method that is made asynchronous fits it. -/
theorem fits_of_asyncReturn {n type : Node} {returnType : ReturnEdit}
    (htype : n.typeChild? = some type)
    (hwrapped : ∃ n, Fragment.readType ("Task<" ++ type.text ++ ">") = .ok n ∧
      Settings.isWrapped {} n.text = true)
    (h : asyncReturn {} ⟨n⟩ = .ok returnType) :
    SignatureChange.Fits { addAsync := true, returnType } type.text := by
  simp only [asyncReturn, View.Method.returnType?, htype] at h
  split at h
  · rename_i hvoid
    obtain rfl := Except.ok.inj h
    exact eq_of_beq hvoid
  · cases h
  · rename_i hvoid hseveral
    split at h
    · rename_i hold
      obtain rfl := Except.ok.inj h
      exact fun _ => hold
    · obtain rfl := Except.ok.inj h
      exact ⟨ne_of_beq_false hvoid, hwrapped⟩

/-- The header of a method fits the change that its record holds. -/
theorem fits_analysis (f : Framework) {source : String} {t : Tree}
    (hparse : Tree.parse source = .ok t) {r : Record}
    (hr : r ∈ (f.analysis {} t).plan.records) {change : SignatureChange}
    (hchange : r.change = .signature change) :
    ∃ s ∈ t.sites, s.kind = .methodDeclaration ∧
      (f.analysis {} t).tree.TaggedOnlyAt r.tag s.path ∧ change.FitsMethod s.node := by
  have ht := Tree.readFrom_of_parse hparse
  let Q : Site → SignatureChange → Prop := fun s change =>
    s.kind = .methodDeclaration → change.FitsMethod s.node
  have hkept : SignatureChange.Kept Q := fun s first second h h' hkind =>
    SignatureChange.kept_fitsMethod s first second (h hkind) (h' hkind)
  obtain ⟨s, hs, hkind, honly, hfits⟩ := f.signs_analysis ht hkept
    (fun s _ hvalue _ => ⟨⟨nofun, nofun⟩, fun type htype => by
      have hvalue : s.node.typeChild?.map Node.text = some "ValueTask" := hvalue
      rw [htype] at hvalue
      exact Option.some.inj hvalue⟩)
    (fun s hs view hview hplain _ returnType hreturn hkind => by
      obtain ⟨-, rfl⟩ := View.Method.of?_eq_some hview
      obtain ⟨lists, mods, type, rest, hdeclared⟩ := exists_declared hparse hs hkind
      refine ⟨⟨nofun, fun _ hmem => ?_⟩, fun type' htype => ?_⟩
      · have hasync := hdeclared.hasModifier_of_mem hmem
        exact Bool.noConfusion (hplain.symm.trans hasync)
      · obtain rfl := Option.some.inj (hdeclared.typeChild?_eq.symm.trans htype)
        exact fits_of_asyncReturn htype (exists_wrapped_returnType ht hs hdeclared) hreturn)
    (fun s hs hpublic hkind => by
      obtain ⟨lists, mods, type, rest, hdeclared⟩ := exists_declared hparse hs hkind
      refine ⟨⟨fun _ hmem => ?_, nofun⟩, fun type _ => nofun⟩
      exact Bool.noConfusion (hpublic.symm.trans (hdeclared.hasModifier_of_mem hmem)))
    hr hchange
  exact ⟨s, hs, hkind, honly, hfits hkind⟩

end Framework

/-! ## Where edits are made -/

namespace RecordKind

variable {kind : RecordKind} {seat : Kind}

theorem isDull_of_mem_seats_of_ne (hkind : kind ≠ .container) (h : seat ∈ kind.seats) :
    seat.isDull = false := by
  revert seat
  cases kind <;> first | decide | exact absurd rfl hkind

theorem isValue_of_mem_seats (hkind : kind.putsValue = true) (h : seat ∈ kind.seats) :
    seat.isValue = true := by
  revert seat
  cases kind <;> first | decide | cases hkind

end RecordKind

namespace Draft

variable {s declaration creation : Site}

/-- What a container declares is declared in a construct, and not in a type. -/
theorem exists_of_declarationOf? (h : (declarationOf? s).isSome = true) :
    ∃ parent, s.parent? = some parent ∧ parent.kind.isDull = false ∧
      (parent.kind = .methodDeclaration → Strategy.creationAt? s = none) := by
  obtain ⟨declaration, hdeclaration⟩ := Option.isSome_iff_exists.1 h
  obtain ⟨parent, hparent, hdeclared⟩ := Option.bind_eq_some_iff.1 hdeclaration
  refine ⟨parent, hparent, ?_, fun hkind => ?_⟩
  · split at hdeclared
    · rename_i hkind
      rw [hkind]
      rfl
    · rename_i hkind
      rw [hkind]
      rfl
    · rename_i hkind
      rw [hkind]
      rfl
    · cases hdeclared
  · rw [hkind] at hdeclared
    obtain rfl := Option.some.inj hdeclared
    have hvalue : initialValue? parent = none := by
      simp only [initialValue?, hkind]
      rfl
    rw [Strategy.creationAt?, hdeclaration, Option.bind_some, creationOf?, hvalue]
    rfl

theorem kind_of_creationAt? (h : Strategy.creationAt? s = some creation) :
    creation.kind.isDull = false ∧ creation.kind.isValue = true := by
  obtain ⟨declaration, -, hcreation⟩ := Option.bind_eq_some_iff.1 h
  obtain ⟨-, hkind⟩ := Option.filter_eq_some_iff.1 hcreation
  obtain ⟨hkind, -⟩ := Bool.and_eq_true_iff.1 hkind
  rcases Bool.or_eq_true_iff.1 hkind with hkind | hkind
  · rw [eq_of_beq hkind]
    exact ⟨rfl, rfl⟩
  · rw [eq_of_beq hkind]
    exact ⟨rfl, rfl⟩

end Draft

/-- The edit of a record is made at a node that is no type, or at the container that it was asked
    for, where that is declared. -/
theorem Strategy.Asked.exists_target {strategy : Strategy} {cx : Context} {t : Tree} {s : Site}
    {r : Record} {x : Tag} (h : strategy.Asked cx t s r.change) (hfinds : strategy.FindsSeats t)
    (hs : s ∈ t.sites) (hx : x ∈ r.targets) :
    ∃ u ∈ t.sites, (x, u.path) ∈ r.places s ∧ (r.kind.putsValue = true → u.kind.isValue = true) ∧
      (u.kind.isDull = false ∨
        u = s ∧ ∃ change, r.change = .container change ∧ change.typeTag = some x) := by
  have hseat := h.kind_mem_seats hfinds
  -- Only a container has tags besides its own.
  by_cases hkind : r.change.kind = .container
  · obtain ⟨change, hchange⟩ : ∃ change, r.change = .container change := by
      cases hchange : r.change with
      | container change => exact ⟨change, rfl⟩
      | _ =>
        rw [hchange] at hkind
        cases hkind
    have hplaces : r.places s = (r.tag, s.path) :: (Change.container change).places s := by
      rw [Record.places, hchange]
    have hvalue : s.kind.isValue = true := by
      rw [hkind] at hseat
      exact RecordKind.isValue_of_mem_seats rfl hseat
    rw [Record.targets, hchange] at hx
    rcases List.mem_append.1 hx with htype | hcreation
    · have htype := Option.mem_toList.1 htype
      refine ⟨s, hs, ?_, fun _ => hvalue, .inr ⟨rfl, change, hchange, htype⟩⟩
      rw [hplaces]
      simp [Change.places, Option.mem_def.1 htype]
    · have hcreation := Option.mem_def.1 (Option.mem_toList.1 hcreation)
      rw [hchange] at h
      cases h with
      | @container s p typeTag creationTag candidate answer declared created =>
        obtain rfl : creationTag = some x := hcreation
        obtain ⟨creation, hfound⟩ := Option.isSome_iff_exists.1 created.symm
        obtain ⟨hdull, hcreated⟩ := Draft.kind_of_creationAt? hfound
        refine ⟨creation, Draft.creationAt?_mem hs hfound, ?_, fun _ => hcreated, .inl hdull⟩
        rw [hplaces]
        simp [Change.places, hfound]
  · obtain rfl : x = r.tag := by
      unfold Record.targets at hx
      split at hx
      · rename_i change hchange
        rw [hchange] at hkind
        exact absurd rfl hkind
      · exact List.mem_singleton.1 hx
    exact ⟨s, hs, List.mem_cons_self .., fun hputs => RecordKind.isValue_of_mem_seats hputs hseat,
      .inl (RecordKind.isDull_of_mem_seats_of_ne hkind hseat)⟩

namespace Framework

variable {f : Framework} {source : String} {settings : Settings} {t : Tree} {r : Record} {x : Tag}

/-- The tags of the records of an analysis differ. -/
theorem nodup_tags_analysis (f : Framework) (settings : Settings) (ht : t.ReadFrom source) :
    ((f.analysis settings t).plan.records.map Record.tag).Nodup := by
  obtain ⟨d, hrecords, -, hd⟩ := f.faithful_analysis settings ht
  rw [hrecords]
  refine hd.nodup.sublist ?_
  induction d.plan.records with
  | nil => exact .slnil
  | cons r records ih =>
    rw [List.map_cons, List.flatMap_cons, Record.tags, List.cons_append]
    exact (ih.trans (List.sublist_append_right _ _)).cons_cons _

/-- Where the edits of a record are made in the tree with tags. -/
theorem exists_target (ht : t.ReadFrom source) (hr : r ∈ (f.analysis settings t).plan.records)
    (hx : x ∈ r.targets) :
    ∃ u ∈ t.sites, (f.analysis settings t).tree.TaggedOnlyAt x u.path ∧
      (r.kind.putsValue = true → u.kind.isValue = true) ∧
      (u.kind.isDull = false ∨ f.strategy.Asked
          ⟨(SourceModel.build t f.catalog).toSemanticModel, settings⟩ t u r.change ∧
        ∃ change, r.change = .container change ∧ change.typeTag = some x) := by
  obtain ⟨d, hrecords, htree, hd⟩ := f.faithful_analysis settings ht
  rw [hrecords] at hr
  obtain ⟨s, hs, -, hasked, hplaces⟩ := hd.placed r hr
  obtain ⟨u, hu, hplace, hvalue, hdull⟩ := hasked.exists_target (f.findsSeats t) hs hx
  rw [htree]
  refine ⟨u, hu, (hplaces x u.path hplace).2, hvalue, hdull.imp_right ?_⟩
  rintro ⟨rfl, hcontainer⟩
  exact ⟨hasked, hcontainer⟩

/-- An edit that is made in a part of the header of a method is that of a container, and the part
    is its type. -/
theorem container_of_header (hparse : Tree.parse source = .ok t) {n c : Node} {p : Path} {i : Nat}
    {top : Top} (hat : (f.analysis settings t).tree.root.at? p = some n)
    (hkind : n.kind = .methodDeclaration) (hc : n.children[i]? = some (.node c))
    (hbars : Kind.bars .methodDeclaration c.kind = true) (htop : top ∈ c.tops)
    (hr : r ∈ (f.analysis settings t).plan.records) (hx : x ∈ r.targets) (htag : x ∈ top.tags) :
    ∃ u ∈ t.sites, u.path = p ++ [i] ∧ (f.analysis settings t).tree.TaggedOnlyAt x u.path ∧
      u.kind = .genericName ∧ Strategy.creationAt? u = none ∧
      f.strategy.Asked ⟨(SourceModel.build t f.catalog).toSemanticModel, settings⟩ t u r.change ∧
      ∃ change, r.change = .container change ∧ change.typeTag = some x := by
  have ht := Tree.readFrom_of_parse hparse
  have halike := f.alike_analysis settings ht
  obtain ⟨below, m, hm, rfl⟩ := Node.mem_tops.1 htop
  have hpath : ∀ {q v}, c.at? q = some v →
      (f.analysis settings t).tree.root.at? (p ++ i :: q) = some v := by
    intro q v hv
    rw [Node.at?_append, hat]
    exact Node.at?_cons_eq_some.2 ⟨c, hc, hv⟩
  have hdull : ∀ {q v}, c.at? q = some v → v.kind.isDull = true := by
    intro q v hv
    have hhouses := ((f.housed_analysis settings hparse).at? hat).houses
    rw [hkind] at hhouses
    exact hhouses.dull c (List.mem_of_getElem? hc) hbars v.top (Node.mem_tops.2 ⟨q, v, hv, rfl⟩)
  obtain ⟨u, hu, honly, -, hcases⟩ := exists_target ht hr hx
  have hplace : p ++ i :: below = u.path :=
    (honly _).1 (Node.mem_tagsAt.2 ⟨m, hpath hm, htag⟩)
  have hkindOf : ∀ {s : Site} {v : Node}, s ∈ t.sites →
      (f.analysis settings t).tree.root.at? s.path = some v → v.kind = s.kind := by
    intro s v hs hv
    obtain ⟨d, hd, hsame⟩ := halike.at? hv
    obtain rfl : s.node = d := Option.some.inj ((Tree.mem_sites_iff.1 hs).2.symm.trans hd)
    exact hsame.kind_eq
  have hsame : m.kind = u.kind := hkindOf hu (hplace ▸ hpath hm)
  rcases hcases with hnot | ⟨hasked, change, hchange, htype⟩
  · rw [← hsame, hdull hm] at hnot
    cases hnot
  · have hseat := hasked.kind_mem_seats (f.findsSeats t)
    rw [hchange] at hseat
    have hdeclared : (Draft.declarationOf? u).isSome = true := by
      rw [hchange] at hasked
      cases hasked with
      | @container s p typeTag creationTag candidate answer declared created =>
        obtain rfl : typeTag = some x := htype
        exact declared.symm
    obtain ⟨parent, hparent, hparent_dull, hcreation⟩ := Draft.exists_of_declarationOf? hdeclared
    have hparent_mem := Site.parent?_mem hu hparent
    obtain ⟨j, hj⟩ := Site.parent?_path hu hparent
    -- what stands in a part of a header is dull, so the type is the part itself
    rcases List.eq_nil_or_concat' below with rfl | ⟨q, k, rfl⟩
    · obtain ⟨hpp, -⟩ : p = parent.path ∧ i = j := by
        simpa using hplace.trans hj
      refine ⟨u, hu, hplace.symm, honly, List.mem_singleton.1 hseat, hcreation ?_, hasked, change,
        hchange, htype⟩
      rw [← hkindOf hparent_mem (hpp ▸ hat), hkind]
    · have hparent_path : p ++ i :: q = parent.path := by
        have heq := hplace.trans hj
        rw [← List.cons_append, ← List.append_assoc] at heq
        exact (List.append_inj' heq rfl).1
      rw [Node.at?_append] at hm
      obtain ⟨v, hv, -⟩ := Option.bind_eq_some_iff.1 hm
      rw [← hkindOf hparent_mem (hparent_path ▸ hpath hv), hdull hv] at hparent_dull
      cases hparent_dull

/-- A marker that is put on a method comes with the wrapper, if with any return type. -/
theorem returnType_of_marker {cx : Context} {s : Site} {marker type : String}
    (h : f.strategy.Asked cx t s (.methodMarker marker (some type))) : type = "Task" := by
  have hwrapper : ∀ returnType : Option String, returnType = none ∨ returnType = some "Task" →
      some type = returnType → type = "Task" := by
    rintro returnType (rfl | rfl) heq
    · cases heq
    · exact Option.some.inj heq
  -- A marker is asked for where one is missing or where a strategy puts one on methods.
  generalize hchange : Change.methodMarker marker (some type) = change at h
  cases h with
  | @missingMarker s p candidate answer =>
    obtain ⟨-, hreturn⟩ := Change.methodMarker.inj hchange
    refine hwrapper _ (.inl ?_) hreturn
    cases f with
    | nUnit =>
      have answer : NUnit.missingMarker cx s = .ok (some p) := answer
      unfold NUnit.missingMarker at answer
      simp only at answer
      split at answer
      · obtain rfl := Option.some.inj (Except.ok.inj answer)
        rfl
      · cases answer
    | msTest => cases answer
    | xUnit => cases answer
  | @methodMarker owner s proposals method p candidate answer proposed target =>
    obtain ⟨-, hreturn⟩ := Change.methodMarker.inj hchange
    refine hwrapper _ ?_ hreturn
    cases f with
    | nUnit =>
      obtain rfl := Except.ok.inj answer
      cases proposed
    | msTest =>
      obtain rfl := Except.ok.inj answer
      cases proposed
    | xUnit => exact XUnit.methodMarker_mem_classes answer proposed
  | _ => cases hchange

/-! ## Ready methods -/

/-- A method of a tree that was read, and its copy in the tree with tags, where the tag of a record
    is. -/
structure Tagged (f : Framework) (settings : Settings) (t : Tree) (tag : Tag) (s : Site)
    (n mods type : Node) : Prop where
  site : s ∈ t.sites
  declared : ∃ lists rest, s.node.Declared lists mods type rest
  only : (f.analysis settings t).tree.TaggedOnlyAt tag s.path
  at_eq : (f.analysis settings t).tree.root.at? s.path = some n
  tagged : tag ∈ n.tags
  alike : n.Alike s.node

section Ready

variable {s : Site} {tag : Tag} {n mods type : Node} {change : SignatureChange}

theorem exists_tagged (hparse : Tree.parse source = .ok t) (hs : s ∈ t.sites)
    (hkind : s.kind = .methodDeclaration)
    (honly : (f.analysis settings t).tree.TaggedOnlyAt tag s.path) :
    ∃ n mods type, f.Tagged settings t tag s n mods type := by
  obtain ⟨lists, mods, type, rest, hdeclared⟩ := exists_declared hparse hs hkind
  obtain ⟨n, hat, htag⟩ := Node.mem_tagsAt.1 ((honly s.path).2 rfl)
  obtain ⟨m, hm, halike⟩ := (f.alike_analysis settings (Tree.readFrom_of_parse hparse)).at? hat
  obtain rfl : s.node = m := Option.some.inj ((Tree.mem_sites_iff.1 hs).2.symm.trans hm)
  exact ⟨n, mods, type, hs, ⟨lists, rest, hdeclared⟩, honly, hat, htag, halike⟩

namespace Tagged

variable (h : f.Tagged settings t tag s n mods type)

include h

theorem isMethod : n.kind = .methodDeclaration := by
  obtain ⟨lists, rest, hdeclared⟩ := h.declared
  exact h.alike.kind_eq.trans hdeclared.isMethod

theorem eq_head {head : Head} (hhead : head ∈ (f.analysis settings t).tree.root.heads tag.full) :
    head = n.head true :=
  h.only.once.eq_head h.at_eq h.tagged hhead

/-- What is read where a part of the copy is. -/
theorem node_eq {u : Site} {c : Node} {i : Nat} (hu : u ∈ t.sites) (hpath : u.path = s.path ++ [i])
    (hc : s.node.children[i]? = some (.node c)) : u.node = c := by
  have hat : t.root.at? u.path = some c := by
    rw [hpath, Node.at?_append, (Tree.mem_sites_iff.1 h.site).2]
    exact Node.at?_cons_eq_some.2 ⟨c, hc, rfl⟩
  exact Option.some.inj ((Tree.mem_sites_iff.1 hu).2.symm.trans hat)

/-- The copy has the header that was read. -/
theorem reads (hparse : Tree.parse source = .ok t) {P : String → Prop} (hP : P type.text) :
    (n.head true).Reads (fun top => top.kind.isDull = true) mods.words P := by
  obtain ⟨lists, rest, hdeclared⟩ := h.declared
  obtain ⟨i, mods', type', hcopy⟩ := hdeclared.exists_copy h.alike
  have hhouses := ((f.housed_analysis settings hparse).at? h.at_eq).houses
  rw [h.isMethod] at hhouses
  refine ⟨_, _, ⟨hcopy.parts_eq, ?_, ⟨type'.kind, Node.kind?_headerPart _, hcopy.type_kind⟩,
    hhouses.dull mods' (List.mem_of_getElem? hcopy.mods_at) hcopy.mods_bars,
    hhouses.dull type' (List.mem_of_getElem? hcopy.type_at) hcopy.type_bars⟩,
    hcopy.mods_alike.words_eq, ?_⟩
  · rw [Node.kind?_headerPart, hcopy.mods_kind]
  · rw [show type'.headerPart.text = type'.text from rfl, hcopy.type_alike.text_eq]
    exact hP

/-- No edit is made in the modifiers of a method. -/
theorem spares_modifiers (hparse : Tree.parse source = .ok t) {i : Nat} {mods' type' : Node}
    (hcopy : s.node.Copied n mods type i mods' type') :
    ∀ top ∈ mods'.tops, ∀ r ∈ (f.analysis settings t).plan.records, ¬top.Bears r.targets := by
  rintro top htop r hr ⟨x, hx, hbears⟩
  obtain ⟨u, hu, hpath, -, hgeneric, -⟩ := container_of_header hparse h.at_eq h.isMethod
    hcopy.mods_at hcopy.mods_bars htop hr hx hbears
  obtain rfl := h.node_eq hu hpath hcopy.mods_read
  have hkind := hcopy.mods_alike.kind_eq.symm.trans hcopy.mods_kind
  rw [show u.node.kind = .genericName from hgeneric] at hkind
  cases hkind

/-- An edit in the return type of a method makes a sequence of the container of rows that it is. -/
theorem retypes (hparse : Tree.parse source = .ok t) {i : Nat} {mods' type' : Node}
    (hcopy : s.node.Copied n mods type i mods' type') (hfits : change.Fits type.text)
    (hr : r ∈ (f.analysis settings t).plan.records) {top : Top} (htop : top ∈ type'.tops)
    (hbears : top.Bears r.targets) :
    r.Retypes (f.analysis settings t).plan.records (f.analysis settings t).tree tag change
      mods.words := by
  obtain ⟨x, hx, hbears⟩ := hbears
  obtain ⟨u, hu, hpath, honly, hgeneric, hcreation, hasked, container, hchange, htypeTag⟩ :=
    container_of_header hparse h.at_eq h.isMethod hcopy.type_at hcopy.type_bars htop hr hx hbears
  obtain rfl := h.node_eq hu hpath hcopy.type_read
  have htype : x ∈ type'.tags := by
    obtain ⟨v, hv, hx⟩ := Node.mem_tagsAt.1 ((honly u.path).2 rfl)
    rw [hpath, Node.at?_append, h.at_eq] at hv
    obtain ⟨d, hd, hv⟩ := Node.at?_cons_eq_some.1 hv
    obtain rfl : type' = d := by simpa [hcopy.type_at] using hd
    obtain rfl := Option.some.inj hv
    exact hx
  -- The header shows the modifiers and the container that the record is made at.
  have htyped : (n.head true).Typed (Top.IsSpared (f.analysis settings t).plan.records) mods.words
      x := by
    have hhouses := ((f.housed_analysis settings hparse).at? h.at_eq).houses
    rw [h.isMethod] at hhouses
    have hdull := hhouses.dull mods' (List.mem_of_getElem? hcopy.mods_at) hcopy.mods_bars
    refine ⟨_, _, hcopy.parts_eq, ?_, hcopy.mods_alike.words_eq, fun top htop =>
      ⟨hdull top htop, h.spares_modifiers hparse hcopy top htop⟩, type'.top, ?_, htype⟩
    · rw [Node.kind?_headerPart, hcopy.mods_kind]
    · rw [show type'.headerPart.tops = type'.top :: Element.topsIn type'.children from
        type'.tops_eq]
      exact rfl
  rw [hchange] at hasked
  cases hasked with
  | @container _ p typeTag creationTag candidate answer declared created =>
    refine ⟨_, x, hchange, ?_, htypeTag, honly.once, fun head hhead => ?_, fun read hread => ?_⟩
    · rw [hcreation] at created
      exact Option.isNone_iff_eq_none.1 (by simpa using created)
    · rw [h.eq_head hhead]
      exact htyped
    · -- What fits a container of rows fits the sequence.
      obtain ⟨lists, rest, hdeclared⟩ := h.declared
      obtain ⟨hname, hrows⟩ := container_eq_ok answer
      obtain ⟨rest, htext⟩ := Node.exists_text_of_led hdeclared.led hgeneric hrows
      rw [htext] at hfits
      have hread : Fragment.readType (p.container ++ "<" ++ p.element ++ ">") = .ok read := hread
      rw [hname, String.append_assoc, String.append_assoc, ← @String.append_assoc "<"] at hread
      exact SignatureChange.fits_of_rows hfits hread

/-- A record is not made in the header of a method, or it makes a sequence of the container of rows
    that the method returns. -/
theorem spared (hparse : Tree.parse source = .ok t) (hfits : change.Fits type.text)
    (hr : r ∈ (f.analysis settings t).plan.records) :
    (∀ head ∈ (f.analysis settings t).tree.root.heads tag.full,
        head.Clear (Top.Bears r.targets)) ∨
      r.Retypes (f.analysis settings t).plan.records (f.analysis settings t).tree tag change
        mods.words := by
  obtain ⟨lists, rest, hdeclared⟩ := h.declared
  obtain ⟨i, mods', type', hcopy⟩ := hdeclared.exists_copy h.alike
  by_cases hmade : ∃ top ∈ type'.tops, top.Bears r.targets
  · obtain ⟨top, htop, hbears⟩ := hmade
    exact .inr (h.retypes hparse hcopy hfits hr htop hbears)
  · refine .inl fun head hhead part hpart top htop hbears => ?_
    rw [h.eq_head hhead, hcopy.parts_eq] at hpart
    rcases List.mem_pair.1 hpart with rfl | rfl
    · exact h.spares_modifiers hparse hcopy top htop r hr hbears
    · exact hmade ⟨top, htop, hbears⟩

end Tagged

/-- A method with a record of its header is ready for the change that the record holds. -/
theorem exists_ready (f : Framework) (hparse : Tree.parse source = .ok t)
    (hr : r ∈ (f.analysis {} t).plan.records) (hchange : r.change = .signature change) :
    ∃ s ∈ t.sites, s.kind = .methodDeclaration ∧
      (f.analysis {} t).tree.TaggedOnlyAt r.tag s.path ∧
      change.Ready (f.analysis {} t).plan.records (f.analysis {} t).tree r.tag
        s.node.modifierWords := by
  have ht := Tree.readFrom_of_parse hparse
  obtain ⟨s, hs, hkind, honly, hfits⟩ := f.fits_analysis hparse hr hchange
  obtain ⟨n, mods, type, h⟩ := exists_tagged hparse hs hkind honly
  obtain ⟨lists, rest, hdeclared⟩ := h.declared
  have hfits' := hfits.fits type hdeclared.typeChild?_eq
  have hfree := hfits.free
  rw [hdeclared.modifierWords_eq] at hfree
  refine ⟨s, hs, hkind, honly, ?_⟩
  rw [hdeclared.modifierWords_eq]
  refine ⟨(f.housed_analysis {} hparse).headed, honly.once, ?_, hfree,
    fun r' hr' => h.spared hparse hfits' hr', ?_, ?_, ?_⟩
  · intro head hhead
    rw [h.eq_head hhead]
    exact h.reads hparse hfits'
  · -- Values are put where values are.
    intro r' hr' hputs x hx head hhead
    obtain ⟨u, hu, honly, hvalue, -⟩ := exists_target ht hr' hx
    obtain ⟨q, m, hat, hm, rfl⟩ := Node.mem_heads.1 hhead
    obtain rfl := (honly q).1 (Node.mem_tagsAt.2 ⟨m, hat, hm⟩)
    obtain ⟨d, hd, halike⟩ := (f.alike_analysis {} ht).at? hat
    obtain rfl : u.node = d := Option.some.inj ((Tree.mem_sites_iff.1 hu).2.symm.trans hd)
    show m.kind.isValue = true
    rw [halike.kind_eq]
    exact hvalue hputs
  · -- No two changes are asked for at one method.
    rintro r' hr' hne ⟨other, hother⟩ head hhead htag
    obtain ⟨q, m, hat, hm, rfl⟩ := Node.mem_heads.1 hhead
    obtain ⟨u, hu, -, honly', -⟩ := f.fits_analysis hparse hr' hother
    obtain rfl := (honly q).1 (Node.mem_tagsAt.2 ⟨m, hat, htag⟩)
    have hpath := (honly' s.path).1 (Node.mem_tagsAt.2 ⟨m, hat, hm⟩)
    exact hne (f.eq_of_signatures ht hr' hr hother hchange (hpath ▸ honly') honly)
  · intro r' hr' marker type hmarker
    obtain ⟨d, hrecords, -, hd⟩ := f.faithful_analysis {} ht
    rw [hrecords] at hr'
    obtain ⟨u, -, -, hasked, -⟩ := hd.placed r' hr'
    rw [hmarker] at hasked
    exact returnType_of_marker hasked

end Ready

end Framework

end Recast
