-- SUMMARY: A type that a file declares is found by name from every use in its namespace; a record is found by the word that introduces it.
import Recast.Proofs.Grammar.Placement
import Recast.Types.SourceModel

/-! # Names of declared types

A declaration of a type has its name right after the words that introduce it (`Element.NamedIn`).
The model of a file knows it by the first identifier among its tokens, and `record` is one: so a
record is known by that word and all other types by their names (`SourceModel.knownAs`). A use looks
that up in the namespace that it stands in before all others. -/

namespace Recast

/-! ## Words that introduce types -/

namespace Token

variable {source : String} {ts : List Token} {t : Token}

/-- What starts with a letter is a word. -/
theorem Lexes.isWord {rest : List Char} (h : t.Lexes rest) {c : Char} {cs : List Char}
    (htext : t.text.toList = c :: cs) (hc : (Text.isLetter c || c == '_') = true) :
    t.isWord = true := by
  obtain ⟨hquote, -, hdigit⟩ := not_mem_of_isLetter hc
  have hat : '@' ≠ c := by
    rintro rfl
    exact hquote (by decide)
  have hword : ∃ found, word (c :: (cs ++ rest)) = some found ∧
      (found.1 = .keyword ∨ found.1 = .identifier) := by
    have hopt : Scan.opt (Scan.literal "@") (c :: (cs ++ rest)) = some ([], c :: (cs ++ rest)) := by
      have hnone : Scan.literal "@" (c :: (cs ++ rest)) = none := Scan.literal_eq_none rfl hat
      simp only [Scan.opt, hnone]
    simp only [word, Scan.identifier, Scan.seq, hopt, Scan.one, hc, if_true, Scan.run,
      Option.map_some, Option.some.injEq, exists_eq_left']
    exact ite_eq_or_eq ..
  obtain ⟨found, hfound, hkind⟩ := hword
  -- No literal starts with a letter, and a word is tried before a mark.
  unfold Lexes at h
  rw [htext, List.cons_append, lexeme?_of_head (.inl hquote) hdigit, hfound] at h
  obtain rfl := Option.some.inj h
  rcases hkind with hkind | hkind <;> simp only [Token.isWord, show t.kind = _ from hkind]

/-- The kind of a token that is a word says whether the word is reserved. -/
theorem kind_of_is (h : scan source = .ok ts) (ht : t ∈ ts) {word : String} (his : t.is word = true)
    (hword : word.toList.head?.any (fun c => Text.isLetter c || c == '_') = true) :
    t.kind = if keywords.contains word then .keyword else .identifier := by
  have hend : t.kind ≠ .endOfFile := by
    intro hkind
    simp [Token.is, Token.isWord, hkind] at his
  obtain ⟨rest, hlexes⟩ := exists_lexes h ht hend
  obtain rfl := text_of_is his
  obtain ⟨c, hhead, hc⟩ := (Option.any_eq_true _ _).1 hword
  obtain ⟨cs, hcs⟩ := List.head?_eq_some_iff.1 hhead
  obtain ⟨-, -, -, -, -, -, -, -, hkind⟩ := hlexes.exists_name (hlexes.isWord hcs hc)
  exact hkind

end Token

namespace Kind

variable {kind : Kind}

/-- The words of a declaration of a type that are no reserved words. -/
def softWords (kind : Kind) : List String :=
  if kind == .recordDeclaration then ["record"] else []

theorem introducer?_isReserved {word : String} (h : kind.introducer? = some word) :
    word.toList.head?.any (fun c => Text.isLetter c || c == '_') = true ∧
      kind.softWords = if Token.keywords.contains word then [] else [word] := by
  cases kind <;> cases h <;> decide

/-- The words that introduce a type, but for that of a record, are reserved. -/
theorem Introduces.identifiers {source : String} {ts words : List Token} (h : kind.Introduces words)
    (hscan : Token.scan source = .ok ts) (hwords : ∀ t ∈ words, t ∈ ts) :
    (words.filter fun t => t.kind == .identifier).map Token.text = kind.softWords := by
  obtain ⟨t, more, rfl, ⟨word, hword, his⟩, hmore⟩ := h
  obtain ⟨ht, hmore_mem⟩ := List.forall_mem_cons.1 hwords
  -- What may follow `record` is reserved.
  have hsecond : more.filter (fun t => t.kind == .identifier) = [] := by
    rcases hmore with rfl | ⟨-, u, rfl, hu⟩
    · rfl
    · have hu_mem := hmore_mem u (List.mem_singleton_self u)
      have hkind : u.kind = .keyword := by
        rcases hu with hu | hu
        · exact Token.kind_of_is hscan hu_mem hu (by decide)
        · exact Token.kind_of_is hscan hu_mem hu (by decide)
      simp [hkind]
  obtain ⟨hhead, hsoft⟩ := introducer?_isReserved hword
  have hkind := Token.kind_of_is hscan ht his hhead
  rw [List.filter_cons, hsecond, hsoft]
  by_cases hreserved : Token.keywords.contains word = true
  · rw [if_pos hreserved] at hkind ⊢
    simp [hkind]
  · rw [if_neg hreserved] at hkind ⊢
    simp [hkind, Token.text_of_is his]

end Kind

/-! ## Declared names -/

/-- The texts of the identifiers among the tokens of a node. -/
def Node.identifiers (n : Node) : List String :=
  (n.childTokens.filter fun t => t.kind == .identifier).map Token.text

theorem Node.size_eq (n : Node) : n.size = Element.sizeIn n.children + 1 := by
  cases n
  rfl

theorem Node.identifier?_eq_head? (n : Node) : n.identifier? = n.identifiers.head? := by
  rw [identifier?, identifiers, List.head?_map, List.head?_filter]

namespace SourceModel

/-- The name by which the model of a file knows a declaration: that of the type, but for a record
    the word that introduces it. -/
def knownAs (kind : Kind) (name : String) : String :=
  if kind == .recordDeclaration then "record" else name

end SourceModel

namespace Site

/-- The site declares a type with the name. -/
def Declares (d : Site) (name : String) : Prop :=
  d.kind.introducer?.isSome = true ∧ Element.NamedIn d.kind name d.node.children

/-- How many type parameters a declaration has. -/
def parameterCount (d : Site) : Nat :=
  ((d.node.child? .typeParameterList).map fun list =>
    (list.childrenOf .typeParameter).length).getD 0

/-- The site is a name without a qualifier, with as many type arguments. -/
def Names (s : Site) (name : String) (arity : Nat) : Prop :=
  s.identifier? = some name ∧ (s.kind = .identifierName ∧ arity = 0 ∨
    ∃ generic, View.GenericName.of? s.node = some generic ∧ arity = generic.arity)

variable {source : String} {t : Tree} {d s : Site} {name other : String} {arity : Nat}

/-- A declaration of a type in a tree that was read has a name. -/
theorem exists_declares {reading : Nat} (hparse : Tree.parse source reading = .ok t)
    (hd : d ∈ t.sites) (hkind : d.kind.introducer?.isSome = true) : ∃ name, d.Declares name := by
  obtain ⟨name, hname⟩ :=
    ((Tree.formed_of_parse hparse).at? (Tree.mem_sites_iff.1 hd).2).forms.named hkind
  exact ⟨name, hkind, hname⟩

theorem Declares.identifiers (h : d.Declares name) (ht : t.ReadFrom source) (hd : d ∈ t.sites) :
    ∃ more, d.node.identifiers = d.kind.softWords ++ name :: more := by
  obtain ⟨-, head, words, u, rest, hchildren, hhead, hwords, hkind, rfl⟩ := h
  -- In front of the words stand nodes only, so the words are the first tokens.
  have htokens : d.node.childTokens = words ++ u :: rest.filterMap Element.token? := by
    have hnone : head.filterMap Element.token? = [] := by
      rw [List.filterMap_eq_nil_iff]
      intro e he
      obtain ⟨n, rfl⟩ := hhead e he
      rfl
    rw [Node.childTokens, hchildren, List.filterMap_append, List.filterMap_append, hnone]
    simp [Element.token?, Function.comp_def]
  have hmem : ∀ v ∈ words, v ∈ t.root.tokens := by
    intro v hv
    have hchild : .token v ∈ d.node.children := by
      rw [hchildren]
      exact List.mem_append_left _ (List.mem_append_right _ (List.mem_map_of_mem hv))
    refine (Node.tokens_sublist (Tree.mem_sites_iff.1 hd).2).subset ?_
    rw [Node.tokens_eq]
    exact Element.mem_tokensIn hchild (List.mem_singleton_self v)
  rw [Node.identifiers, htokens, List.filter_append, List.map_append, hwords.identifiers ht.scan hmem,
    List.filter_cons_of_pos (by simp [hkind])]
  exact ⟨_, rfl⟩

/-- A declaration is known by its name or by its word. -/
theorem Declares.identifier?_eq (h : d.Declares name) (ht : t.ReadFrom source) (hd : d ∈ t.sites) :
    d.identifier? = some (SourceModel.knownAs d.kind name) := by
  obtain ⟨more, hidentifiers⟩ := h.identifiers ht hd
  rw [identifier?, Node.identifier?_eq_head?, hidentifiers, Kind.softWords, SourceModel.knownAs]
  split <;> rfl

/-- A declaration has one name. -/
theorem Declares.unique (h : d.Declares name) (hother : d.Declares other) (ht : t.ReadFrom source)
    (hd : d ∈ t.sites) : other = name := by
  obtain ⟨more, hidentifiers⟩ := h.identifiers ht hd
  obtain ⟨more', hidentifiers'⟩ := hother.identifiers ht hd
  have heq := List.append_cancel_left (hidentifiers'.symm.trans hidentifiers)
  exact (List.cons.inj heq).1

/-- A name without a qualifier has itself as its last part. -/
theorem Names.parts_eq (h : s.Names name arity) :
    NameParts.of? s.node = some ⟨none, name, arity⟩ := by
  obtain ⟨hname, ⟨hkind, rfl⟩ | ⟨generic, hgeneric, rfl⟩⟩ := h
  · have hkind : s.node.kind = .identifierName := hkind
    have hname : s.node.identifier? = some name := hname
    rw [NameParts.of?, Node.size_eq, NameParts.within?, hkind]
    simp only [hname, Option.map_some]
  · obtain ⟨hkind, hsome⟩ := Option.ite_none_right_eq_some.1 hgeneric
    obtain rfl := Option.some.inj hsome
    rw [NameParts.of?, Node.size_eq, NameParts.within?, eq_of_beq hkind]
    have hgeneric : View.GenericName.name? ⟨s.node⟩ = some name := hname
    simp only [View.GenericName.of?, hkind, if_true, Option.bind_some, hgeneric, Option.map_some]

end Site

namespace SourceModel

variable {source : String} {reading : Nat} {t : Tree} {d s : Site} {name : String} {arity : Nat}
  {catalog : Catalog}

/-! ## Finding a declared type -/

theorem declaredAt?_eq_some_iff {x : DeclaredType} : declaredAt? d = some x ↔
    d.kind.introducer?.isSome = true ∧ ∃ known, d.identifier? = some known ∧
      x = ⟨⟨d.enclosingNamespace, known, d.parameterCount, declaredKind d.kind, .source⟩, d.path⟩ := by
  have hkind : (d.kind.isTypeDeclaration || d.kind == .enumDeclaration) =
      d.kind.introducer?.isSome := by
    cases d.kind <;> rfl
  unfold declaredAt?
  rw [hkind]
  split
  · rename_i hintroduced
    simp only [hintroduced, true_and, Option.map_eq_some_iff, Site.parameterCount,
      eq_comm (b := x)]
  · rename_i hintroduced
    simp [hintroduced]

theorem mem_declared (catalog : Catalog) {x : DeclaredType} :
    x ∈ (build t catalog).declared ↔ ∃ e ∈ t.sites, declaredAt? e = some x :=
  List.mem_filterMap

/-- A declared type is found by its namespace, the name that it is known by and its arity, when the
    file declares no other one with these. -/
theorem lookup?_declared (catalog : Catalog) (hparse : Tree.parse source reading = .ok t) (hd : d ∈ t.sites)
    (hname : d.Declares name)
    (honly : ∀ e ∈ t.sites, ∀ other, e.Declares other →
      e.enclosingNamespace = d.enclosingNamespace → knownAs e.kind other = knownAs d.kind name →
      e.parameterCount = d.parameterCount → e = d) :
    (build t catalog).lookup? d.enclosingNamespace (knownAs d.kind name) d.parameterCount =
      some ⟨d.enclosingNamespace, knownAs d.kind name, d.parameterCount, declaredKind d.kind,
        .source⟩ := by
  have ht := Tree.readFrom_of_parse hparse
  have hdeclared := declaredAt?_eq_some_iff.2 ⟨hname.1, _, hname.identifier?_eq ht hd, rfl⟩
  let wanted : DeclaredType → Bool := fun x => x.symbol.space == d.enclosingNamespace &&
    x.symbol.name == knownAs d.kind name && x.symbol.arity == d.parameterCount
  have hself : wanted ⟨⟨d.enclosingNamespace, knownAs d.kind name, d.parameterCount,
      declaredKind d.kind, .source⟩, d.path⟩ = true := by
    simp only [wanted, beq_self_eq_true, Bool.and_self]
  -- Something is found, since the declaration is there, and what is found can be no other one.
  obtain ⟨x, hx⟩ := Option.isSome_iff_exists.1 <| List.find?_isSome.2
    ⟨_, (mem_declared catalog).2 ⟨d, hd, hdeclared⟩, hself⟩
  have hmatches : wanted x = true := List.find?_some hx
  obtain ⟨e, he, hfound⟩ := (mem_declared catalog).1 (List.mem_of_find?_eq_some hx)
  obtain ⟨hkind, known, hknown, rfl⟩ := declaredAt?_eq_some_iff.1 hfound
  obtain ⟨other, hother⟩ := Site.exists_declares hparse he hkind
  simp only [wanted, Bool.and_eq_true, beq_iff_eq] at hmatches
  obtain ⟨⟨hspace, hsame⟩, harity⟩ := hmatches
  obtain rfl := Option.some.inj (hknown.symm.trans (hother.identifier?_eq ht he))
  obtain rfl := honly e he other hother hspace hsame harity
  obtain rfl := hname.unique hother ht he
  unfold lookup?
  rw [hx]
  rfl

/-! ## Resolving a use -/

theorem namespaceChain_eq (space : String) : ∃ outer, namespaceChain space = space :: outer := by
  rw [namespaceChain]
  rcases hlength : space.length with _ | bound
  · obtain rfl := String.length_eq_zero_iff.1 hlength
    exact ⟨[], rfl⟩
  · have hempty : space.isEmpty = false := by
      rw [Bool.eq_false_iff, ne_eq, String.isEmpty_iff]
      rintro rfl
      cases hlength
    exact ⟨_, by rw [namespacesWithin, hempty]; rfl⟩

/-- Without an alias a plain name is looked up in the namespace of the use first. -/
theorem resolve?_of_lookup? {m : SourceModel} {symbol : TypeSymbol} (h : s.Names name arity)
    (halias : s.imports.alias? name = none)
    (hlookup : m.lookup? s.enclosingNamespace name arity = some symbol) :
    m.resolve? s = .ok (some symbol) := by
  obtain ⟨outer, hchain⟩ := namespaceChain_eq s.enclosingNamespace
  have hcandidate : m.resolveCandidate? (namespaceChain s.enclosingNamespace) s.imports
      ⟨none, name, arity⟩ name = some symbol := by
    simp only [resolveCandidate?, halias, Option.bind_none, ite_self, hchain, List.findSome?_cons,
      hlookup]
    rfl
  have hparts : m.resolveParts? s ⟨none, name, arity⟩ false = some symbol := by
    simp only [resolveParts?, Bool.false_and, Bool.false_eq_true, if_false, List.findSome?_cons,
      hcandidate]
  have hkind : s.kind = .identifierName ∨ s.kind = .genericName := by
    obtain ⟨-, ⟨hkind, -⟩ | ⟨generic, hgeneric, -⟩⟩ := h
    · exact .inl hkind
    · exact .inr (eq_of_beq (Option.ite_none_right_eq_some.1 hgeneric).1)
  have hname : m.resolveName? s = some symbol := by
    have hnode : s.node.kind = .identifierName ∨ s.node.kind = .genericName := hkind
    rw [resolveName?, Node.size_eq, resolveNameWithin?]
    rcases hnode with hnode | hnode <;>
      simp only [hnode, h.parts_eq, Option.bind_some, hparts]
  unfold resolve?
  rcases hkind with hkind | hkind <;> simp only [hkind, hname] <;> rfl

/-- A type that a file declares is found from every use in its namespace: a plain name that is not
    an alias stands for the declaration that is known by it, with as many parameters as the use has
    arguments, when the file has only one such declaration there. A class, structure, interface or
    enumeration is known by the name behind the words that introduce it, a record by the word
    `record` itself. -/
theorem resolveType_declared (hparse : Tree.parse source reading = .ok t) (catalog : Catalog)
    (hd : d ∈ t.sites) (hkind : d.kind.introducer?.isSome = true) :
    ∃ name, d.Declares name ∧ (∀ other, d.Declares other → other = name) ∧
      ((∀ e ∈ t.sites, ∀ other, e.Declares other →
          e.enclosingNamespace = d.enclosingNamespace →
          knownAs e.kind other = knownAs d.kind name → e.parameterCount = d.parameterCount → e = d) →
        ∀ s ∈ t.sites, s.Names (knownAs d.kind name) d.parameterCount →
          s.enclosingNamespace = d.enclosingNamespace →
          s.imports.alias? (knownAs d.kind name) = none →
          (build t catalog).toSemanticModel.resolveType s =
            .ok (some ⟨d.enclosingNamespace, knownAs d.kind name, d.parameterCount,
              declaredKind d.kind, .source⟩)) := by
  have ht := Tree.readFrom_of_parse hparse
  obtain ⟨name, hname⟩ := Site.exists_declares hparse hd hkind
  refine ⟨name, hname, fun other hother => hname.unique hother ht hd, ?_⟩
  intro honly s hs hnames hspace halias
  have htree : (s.tree.revision == (build t catalog).tree.revision) = true := by
    rw [(Tree.mem_sites_iff.1 hs).1]
    exact beq_self_eq_true _
  have hlookup := lookup?_declared catalog hparse hd hname honly
  rw [← hspace] at hlookup ⊢
  exact (if_pos htree).trans (resolve?_of_lookup? hnames halias hlookup)

/-- A class with a parameter, used with an argument in its own body. -/
def genericSource : String :=
  "namespace A.B; class Box<T> { Box<int> f; }"

theorem resolveType_declared_generic :
    ∃ t, Tree.parse genericSource = .ok t ∧ ∃ s ∈ t.sites, s.kind = .genericName ∧
      (build t {}).toSemanticModel.resolveType s =
        .ok (some ⟨"A.B", "Box", 1, .classType, .source⟩) := by
  have hfacts : (Tree.parse genericSource).toOption.map (fun t => do
      let d ← t.sites.find? fun d => d.kind == .classDeclaration
      let s ← t.sites.find? fun s => s.kind == .genericName
      let generic ← View.GenericName.of? s.node
      return (decide (d.kind = .classDeclaration ∧ d.identifier? = some "Box" ∧
          d.parameterCount = 1 ∧ d.enclosingNamespace = "A.B" ∧ ∀ e ∈ t.sites,
            e.kind.introducer?.isSome = true → e.path = d.path),
        decide (s.kind = .genericName ∧ s.identifier? = some "Box" ∧ generic.arity = 1 ∧
          s.enclosingNamespace = "A.B" ∧ s.imports.alias? "Box" = none))) =
        some (some (true, true)) := by
    decide +kernel
  obtain ⟨t, hparse, hfacts⟩ := exists_ok_of_map hfacts
  simp only [Option.bind_eq_bind, Option.bind_eq_some_iff, Option.pure_def, Option.some.injEq,
    Prod.mk.injEq, decide_eq_true_eq] at hfacts
  obtain ⟨d, hd, s, hs, generic, hgeneric, ⟨hd_kind, hd_name, hcount, hd_space, honly⟩, hs_kind,
    hs_name, harity, hs_space, halias⟩ := hfacts
  have hd := List.mem_of_find?_eq_some hd
  have hs := List.mem_of_find?_eq_some hs
  obtain ⟨name, hname, -, hresolve⟩ :=
    resolveType_declared hparse {} hd (by rw [hd_kind]; rfl)
  have hknown : knownAs d.kind name = "Box" :=
    Option.some.inj ((hname.identifier?_eq (Tree.readFrom_of_parse hparse) hd).symm.trans hd_name)
  have hfound := hresolve (fun e he _ hother _ _ _ => Tree.eq_of_path_eq he hd (honly e he hother.1))
    s hs ⟨by rw [hknown, hs_name], .inr ⟨generic, hgeneric, by rw [hcount, harity]⟩⟩
    (hs_space.trans hd_space.symm) (by rw [hknown, halias])
  rw [hknown, hcount, hd_space, hd_kind] at hfound
  exact ⟨t, hparse, s, hs, hs_kind, hfound⟩

/-- A record, used in a class. -/
def recordSource : String :=
  "record R;\nclass T { R f; }"

/-- No use of the name of a record is resolved, since the file knows the record by another word. -/
theorem not_resolveType_record :
    ∃ t, Tree.parse recordSource = .ok t ∧ ∃ d ∈ t.sites, d.kind = .recordDeclaration ∧
      d.Declares "R" ∧ d.parameterCount = 0 ∧ (∀ e ∈ t.sites, e.Declares "R" → e = d) ∧
      ∃ s ∈ t.sites, s.kind = .identifierName ∧ s.Names "R" 0 ∧
        s.enclosingNamespace = d.enclosingNamespace ∧ s.imports.alias? "R" = none ∧
        (build t {}).toSemanticModel.resolveType s = .ok none := by
  have hfacts : (Tree.parse recordSource).toOption.map (fun t => do
      let d ← t.sites.find? fun d => d.kind == .recordDeclaration
      let s ← t.sites.find? fun s => s.kind == .identifierName
      return (decide (d.kind = .recordDeclaration ∧ d.node.identifiers = ["record", "R"] ∧
          d.parameterCount = 0 ∧ ∀ e ∈ t.sites,
            e.kind.introducer?.isSome = true → "R" ∈ e.node.identifiers → e.path = d.path),
        decide (s.kind = .identifierName ∧ s.identifier? = some "R" ∧
          s.enclosingNamespace = d.enclosingNamespace ∧ s.imports.alias? "R" = none),
        ((build t {}).toSemanticModel.resolveType s).toOption)) =
        some (some (true, true, some none)) := by
    decide +kernel
  obtain ⟨t, hparse, hfacts⟩ := exists_ok_of_map hfacts
  simp only [Option.bind_eq_bind, Option.bind_eq_some_iff, Option.pure_def, Option.some.injEq,
    Prod.mk.injEq, decide_eq_true_eq] at hfacts
  obtain ⟨d, hd, s, hs, ⟨hd_kind, hwords, hcount, honly⟩, ⟨hs_kind, hs_name, hspace, halias⟩,
    hresolve⟩ := hfacts
  have ht := Tree.readFrom_of_parse hparse
  have hd := List.mem_of_find?_eq_some hd
  obtain ⟨name, hname⟩ := Site.exists_declares hparse hd (by rw [hd_kind]; rfl)
  -- The name is the second identifier, behind the word of the declaration.
  obtain ⟨more, hidentifiers⟩ := hname.identifiers ht hd
  rw [hwords, hd_kind] at hidentifiers
  obtain rfl : "R" = name := (List.cons.inj (List.cons.inj hidentifiers).2).1
  refine ⟨t, hparse, d, hd, hd_kind, hname, hcount, fun e he hother => ?_, s,
    List.mem_of_find?_eq_some hs, hs_kind, ⟨hs_name, .inl ⟨hs_kind, rfl⟩⟩, hspace, halias, ?_⟩
  · obtain ⟨more', hidentifiers'⟩ := hother.identifiers ht he
    refine Tree.eq_of_path_eq he hd (honly e he hother.1 ?_)
    rw [hidentifiers']
    exact List.mem_append_right _ (List.mem_cons_self ..)
  · exact toOption_eq_some_iff.1 hresolve

end SourceModel

end Recast
