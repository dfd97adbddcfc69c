-- SUMMARY: Members with a body are put together from what stands in front of the body and from the items in it.
import Recast.Proofs.Grammar.EchoingMembers

/-! # Declarations and their bodies

What stands in front of a body is a passage that ends in the brace that opens it, and each item of
the body is one. So a declaration is read from the front and the items, each read by itself. -/

namespace Recast

open Recast.Parser Recast.Cursor

/-! ## Fronts -/

/-- The body of the declaration is a block of statements. -/
def Kind.hasBlock : Kind → Bool
  | .methodDeclaration | .constructorDeclaration => true
  | _ => false

namespace Grammar

variable (g : Grammar)

/-- A member between its type and its body, where it is a method: what it is, and the parts of it
    that were read. -/
def nameFront (head : List Element) (type : Node) (qualifier : List Element) :
    Parser (Kind × List Element) := fun c =>
  if c.seesAny ["this", "operator"] then fail "member name" c
  else (name >>= fun own => fun d =>
    if d.seesAny ["(", "<"] then
      (methodFront g (head ++ [.node type] ++ qualifier ++ own) >>= fun parts =>
        pure (.methodDeclaration, parts)) d
    else fail "method" d) c

/-- What follows the attributes and modifiers of a member that is no type, up to its body. -/
def otherFront (head : List Element) : Parser (Kind × List Element) := fun c =>
  if c.sees "enum" then fail "method" c
  else if c.seesAny ["delegate", "event", "implicit", "explicit", "operator"] then fail "member" c
  else if c.sees "~" || c.atNameThen "(" then
    (constructorFront g head >>= fun parts => pure (.constructorDeclaration, parts)) c
  else (typeOf g >>= fun type => explicitInterface >>= fun qualifier =>
    nameFront g head type qualifier) c

/-- What follows the attributes and modifiers of a member, up to its body. -/
def frontAfter (head : List Element) : Option Kind → Parser (Kind × List Element)
  | some kind => typeFront g kind head >>= fun parts => pure (kind, parts)
  | none => otherFront g head

/-- A member up to its body: what it is, and the parts in front of the body. -/
def memberFront : Parser (Kind × List Element) :=
  attributeLists g ++ one (modifiers memberModifiers contextualModifiers) >>= fun head =>
    fun c => frontAfter g head (typeDeclarationKind? c) c

/-- The body of a declaration: that of a method or a constructor, of a namespace or of a type. -/
def bodyOf (kind : Kind) : Piece :=
  if kind.hasBlock then memberBody g
  else if kind == .namespaceDeclaration then namespaceBody g
  else typeBody g

variable {g}

theorem bodyOf_typeDeclaration {c : Cursor} {kind : Kind}
    (h : typeDeclarationKind? c = some kind) : bodyOf g kind = typeBody g := by
  simp only [typeDeclarationKind?] at h
  split at h
  · cases h
    rfl
  split at h
  · cases h
    rfl
  split at h
  · cases h
    rfl
  split at h
  · cases h
    rfl
  · cases h

/-- A member is its front and its body. -/
theorem knownMember_of_front {c d e : Cursor} {kind : Kind} {parts body : List Element}
    (hfront : memberFront g c = .ok ((kind, parts), d)) (hbody : bodyOf g kind d = .ok (body, e)) :
    knownMember g c = .ok (.ofChildren kind (parts ++ body), e) := by
  obtain ⟨head, c₁, hhead, hfront⟩ := bind_eq_ok hfront
  rw [knownMember_eq]
  refine bind_eq hhead ?_
  cases hkind : typeDeclarationKind? c₁ with
  | some kind' =>
    rw [hkind] at hfront
    obtain ⟨parts', d', hparts, hpure⟩ := bind_eq_ok hfront
    cases hpure
    rw [bodyOf_typeDeclaration hkind] at hbody
    exact build_eq (append_eq hparts hbody)
  | none =>
    rw [hkind] at hfront
    simp only [frontAfter, otherFront] at hfront
    simp only [memberAfter, memberRest]
    split at hfront
    · cases hfront
    rename_i henum
    rw [if_neg henum]
    split at hfront
    · cases hfront
    rename_i hother
    rw [if_neg hother]
    split at hfront
    · rename_i hconstructor
      rw [if_pos hconstructor]
      obtain ⟨parts', d', hparts, hpure⟩ := bind_eq_ok hfront
      cases hpure
      exact build_eq (append_eq hparts hbody)
    · rename_i hconstructor
      rw [if_neg hconstructor, typedMember_eq]
      obtain ⟨type, c₂, htype, hfront⟩ := bind_eq_ok hfront
      obtain ⟨qualifier, c₃, hqualifier, hfront⟩ := bind_eq_ok hfront
      refine bind_eq htype (bind_eq hqualifier ?_)
      simp only [nameFront] at hfront
      simp only [typedName]
      split at hfront
      · cases hfront
      rename_i hthis
      rw [if_neg hthis]
      obtain ⟨own, c₄, hown, hfront⟩ := bind_eq_ok hfront
      refine bind_eq hown ?_
      split at hfront
      · rename_i hmethod
        obtain ⟨parts', d', hparts, hpure⟩ := bind_eq_ok hfront
        cases hpure
        rw [typedRest, if_pos hmethod]
        exact build_eq (append_eq hparts hbody)
      · cases hfront

/-- A member is its front and its body. -/
theorem memberOf_of_front {c d e : Cursor} {kind : Kind} {parts body : List Element}
    (hfront : memberFront g c = .ok ((kind, parts), d)) (hbody : bodyOf g kind d = .ok (body, e)) :
    memberOf g c = .ok (.ofChildren kind (parts ++ body), e) := by
  simp only [memberOf, recover, knownMember_of_front hfront hbody]

section Productions

variable {l r : Cursor} {m : Nat} {g h : Grammar} (hg : EchoesBelow l r m g h)

/-- The parts of a front are understood. -/
def FrontKnown (front : Kind × List Element) : Prop :=
  Element.KnownIn front.2

theorem HeadedBy.known_front {head parts : List Element} {p : Piece} {c d : Cursor}
    (h : HeadedBy head p) (hread : p c = .ok (parts, d)) (hknown : Element.KnownIn parts) :
    Element.KnownIn head := by
  obtain ⟨rest, rfl⟩ := h hread
  exact (Element.knownIn_append.1 hknown).1

/-- What was read before a name is in the front. -/
theorem known_of_nameFront {head qualifier : List Element} {type : Node} {c d : Cursor}
    {front : Kind × List Element} (hread : nameFront g head type qualifier c = .ok (front, d))
    (hknown : FrontKnown front) : Element.KnownIn head ∧ Element.KnownIn qualifier := by
  simp only [nameFront] at hread
  split at hread
  · cases hread
  obtain ⟨own, e, -, hread⟩ := bind_eq_ok hread
  split at hread
  · obtain ⟨parts, e', hparts, hpure⟩ := bind_eq_ok hread
    cases hpure
    have hall := (((headedBy_given _).append _).append _).append _ |>.known_front hparts hknown
    simp only [Element.knownIn_append] at hall
    exact ⟨hall.1.1.1, hall.1.2⟩
  · cases hread

/-- The attributes and modifiers of a member are in its front. -/
theorem known_of_frontAfter {head : List Element} {kind : Option Kind} {c d : Cursor}
    {front : Kind × List Element} (hread : frontAfter g head kind c = .ok (front, d))
    (hknown : FrontKnown front) : Element.KnownIn head := by
  cases kind with
  | some kind =>
    obtain ⟨parts, e, hparts, hpure⟩ := bind_eq_ok hread
    cases hpure
    refine HeadedBy.known_front ?_ hparts hknown
    repeat apply HeadedBy.append
    exact headedBy_given head
  | none =>
    simp only [frontAfter, otherFront] at hread
    split at hread
    · cases hread
    split at hread
    · cases hread
    split at hread
    · obtain ⟨parts, e, hparts, hpure⟩ := bind_eq_ok hread
      cases hpure
      refine HeadedBy.known_front ?_ hparts hknown
      repeat apply HeadedBy.append
      exact headedBy_given head
    · obtain ⟨type, e, -, hread⟩ := bind_eq_ok hread
      obtain ⟨qualifier, e', -, hread⟩ := bind_eq_ok hread
      exact (known_of_nameFront hread hknown).1

include hg

theorem echoes_nameFront (head : List Element) (type : Node) (qualifier : List Element) :
    Echoes l r FrontKnown false (m + 1) true (nameFront g head type qualifier)
      (nameFront h head type qualifier) := by
  have hname : Echoes l r (fun _ => True) false (m + 1) true name name := mirrors_name.echoes
  have hmethod (own : List Element) : Echoes l r FrontKnown false (m + 1) true
      (methodFront g (head ++ [.node type] ++ qualifier ++ own) >>= fun parts =>
        pure (Kind.methodDeclaration, parts)) _ :=
    (echoes_methodFront hg _).then_pure (fun parts => (Kind.methodDeclaration, parts))
      fun _ hknown => hknown
  exact .ite (alike_seesAny _) (echoes_fail _) (hname.bind fun own =>
    .ite (alike_seesAny ["(", "<"]) (hmethod own) (echoes_fail "method"))

theorem echoes_otherFront (head : List Element) :
    Echoes l r FrontKnown false (m + 1) true (otherFront g head) (otherFront h head) := by
  have htype : Echoes l r (fun _ => True) false (m + 1) true (typeOf g) (typeOf h) :=
    (mirrors_typeOf hg).echoes
  have hqualifier : Echoes l r Element.KnownIn false (m + 1) false explicitInterface _ :=
    echoes_explicitInterface
  have hconstructor : Echoes l r FrontKnown false (m + 1) true
      (constructorFront g head >>= fun parts => pure (Kind.constructorDeclaration, parts)) _ :=
    (echoes_constructorFront hg head).then_pure (fun parts => (Kind.constructorDeclaration, parts))
      fun _ hknown => hknown
  have hnamed (type : Node) : Echoes l r FrontKnown false (m + 1) true
      (explicitInterface >>= fun qualifier => nameFront g head type qualifier)
      (explicitInterface >>= fun qualifier => nameFront h head type qualifier) :=
    hqualifier.bind_holding (fun qualifier => echoes_nameFront hg head type qualifier)
      fun _ _ _ _ _ _ hread hknown => (known_of_nameFront hread hknown).2
  refine .ite (alike_sees "enum") (echoes_fail _) (.ite (alike_seesAny _) (echoes_fail _) ?_)
  exact .ite ((alike_sees "~").or (alike_atNameThen "(")) hconstructor (htype.bind hnamed)

theorem echoes_memberFront :
    Echoes l r FrontKnown false (m + 1) true (memberFront g) (memberFront h) := by
  have hhead := (echoes_attributeLists hg).append
    (echoes_modifiers (m := m + 1) memberModifiers contextualModifiers).one
  refine hhead.bind_holding (fun head => ?_)
    fun _ _ _ _ _ _ hread hknown => known_of_frontAfter hread hknown
  refine .view (k := fun g => frontAfter g head) (fun ts hts => typeDeclarationKind?_facing hts)
    fun kind => ?_
  cases kind with
  | some kind =>
    exact (echoes_typeFront hg kind head).then_pure (fun parts => (kind, parts))
      fun _ hknown => hknown
  | none => exact echoes_otherFront hg head

/-- A namespace in front of its body. -/
theorem echoes_namespaceFront : Echoes l r Element.KnownIn false (m + 1) true
    (mark "namespace" ++ one (typeName g)) (mark "namespace" ++ one (typeName h)) :=
  (echoes_mark "namespace").append (mirrors_typeName hg).echoes.one

end Productions

end Grammar

end Recast
