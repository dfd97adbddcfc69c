-- SUMMARY: Texts with the same tokens, and the same gaps where gaps matter, read the same, as whole files and as fragments of any sort.
import Recast.Proofs.Grammar.Lossless
import Recast.Proofs.Grammar.Steadiness

/-! # Layout

What a reader makes of a text is decided by its tokens and by a few gaps between marks. So the view
of what is read that leaves formatting out (`Node.shape`) is the same for two texts that are written
alike, and a text is refused when the other one is. -/

namespace Recast

open Recast.Grammar Recast.Parser

/-! ## Texts written alike -/

namespace Token

/-- The same lexemes with the same gaps where gaps matter, as a test. -/
def writesAlike : List Token → List Token → Bool
  | [], [] => true
  | t :: ts, u :: us =>
    let gapsAlike :=
      match ts, us with
      | t' :: _, u' :: _ => !t.gapMatters t' || t.adjacent t' == u.adjacent u'
      | _, _ => true
    t.kind == u.kind && t.text == u.text && gapsAlike && writesAlike ts us
  | _, _ => false

theorem SameWriting.of_writesAlike {ts us : List Token} (h : writesAlike ts us = true) :
    SameWriting ts us := by
  induction ts generalizing us with
  | nil =>
    cases us with
    | nil => exact .nil
    | cons u us => cases h
  | cons t ts ih =>
    cases us with
    | nil => cases h
    | cons u us =>
      simp only [writesAlike, Bool.and_eq_true, beq_iff_eq] at h
      obtain ⟨⟨⟨hkind, htext⟩, hgap⟩, hrest⟩ := h
      have hwriting := ih hrest
      -- The gap counts only where another token follows.
      cases ts with
      | nil =>
        cases us with
        | nil => exact .single ⟨hkind, htext⟩
        | cons u' us => cases hrest
      | cons t' ts =>
        cases us with
        | nil => cases hrest
        | cons u' us =>
          refine .cons ⟨hkind, htext⟩ (fun hmatters => ?_) hwriting
          simpa [hmatters] using hgap

end Token

/-- Two texts with the same lexemes, and the same gaps where gaps matter. -/
def WrittenLike (source source' : String) : Prop :=
  ∃ ts us, Token.scan source = .ok ts ∧ Token.scan source' = .ok us ∧ Token.SameWriting ts us

theorem Token.SameWriting.split_last {ts us : List Token} {a b : Token}
    (h : SameWriting (ts ++ [a]) (us ++ [b])) : SameWriting ts us ∧ a.SameWord b := by
  induction ts generalizing us with
  | nil =>
    cases us with
    | nil => exact ⟨.nil, h.head⟩
    | cons u us => simpa using h.length_eq
  | cons t ts ih =>
    cases us with
    | nil => simpa using h.length_eq
    | cons u us =>
      obtain ⟨hrest, hlast⟩ := ih h.tail
      refine ⟨?_, hlast⟩
      cases ts with
      | nil =>
        cases us with
        | nil => exact .single h.head
        | cons u' us => simpa using hrest.length_eq
      | cons t' ts =>
        cases us with
        | nil => simpa using hrest.length_eq
        | cons u' us =>
          cases h with
          | cons word gap rest => exact .cons word gap hrest

theorem Cursor.like_ofTokens {source source' : String} {ts us : List Token}
    (hts : Token.Scanned source ts) (hus : Token.Scanned source' us)
    (h : Token.SameWriting ts us) : (ofTokens ts).Like (ofTokens us) := by
  obtain ⟨trivia, stop, hts_eq, hts_finish⟩ := hts.cursor_eq
  obtain ⟨trivia', stop', hus_eq, hus_finish⟩ := hus.cursor_eq
  rw [hts_eq, hus_eq] at h
  obtain ⟨hahead, hlast⟩ := h.split_last
  exact ⟨hahead, by rw [hts_finish, hus_finish]; exact hlast, hts.closed⟩

/-- A reader that formatting does not lead astray reads the same off texts written alike. -/
theorem Grammar.sameResult_readWith {α β : Type} {view : α → β} {p : Grammar → Parser α}
    {source source' : String} (hp : ∀ {g : Grammar}, g.Uniform → Agree view (p g) (p g))
    (h : WrittenLike source source') :
    SameResult view (readWith p source) (readWith p source') := by
  obtain ⟨ts, us, hts, hus, hwriting⟩ := h
  have hlike := Cursor.like_ofTokens (Token.scanned_of_scan hts) (Token.scanned_of_scan hus) hwriting
  simp only [readWith, hts, hus, bind, Except.bind, hwriting.length_eq]
  exact hp (uniform_nesting _) _ _ hlike

/-! ## What is read -/

/-- A reader of whole texts reads the same off texts written alike, or refuses both. -/
theorem Grammar.map_readAll {α β : Type} {view : α → β} {p : Grammar → Parser α}
    {source source' : String} (hp : ∀ {g : Grammar}, g.Uniform → Agree view (p g) (p g))
    (h : WrittenLike source source') :
    (readAll p source).toOption.map view = (readAll p source').toOption.map view := by
  have hresult : SameResult view (readWith p source) (readWith p source') :=
    sameResult_readWith hp h
  simp only [readAll, bind, Except.bind]
  generalize readWith p source = x at hresult
  generalize readWith p source' = y at hresult
  cases hresult with
  | refused e e' => rfl
  | @read a b c d value cursor =>
    dsimp only
    rw [Cursor.uniform_atEnd c d cursor]
    split
    · exact congrArg some value
    · rfl

theorem Tree.map_parse {source source' : String} (h : WrittenLike source source')
    (reading reading' : Nat) :
    (Tree.parse source reading).toOption.map (·.root.shape) =
      (Tree.parse source' reading').toOption.map (·.root.shape) := by
  have hresult : SameResult Node.shape (readWith compilationUnit source)
      (readWith compilationUnit source') := sameResult_readWith steady_compilationUnit h
  simp only [Tree.parse, Node.parse, bind, Except.bind]
  generalize readWith compilationUnit source = x at hresult
  generalize readWith compilationUnit source' = y at hresult
  cases hresult with
  | refused e e' => rfl
  | read value cursor => exact congrArg some value

/-- True for the shape of a node. -/
def Shape.isNode : Shape → Bool
  | .token _ => false
  | .node .. => true

namespace Fragment

/-- A fragment that is one node. -/
theorem map_readSingle {p : Grammar → Parser Node} {source source' : String}
    (hp : ∀ {g : Grammar}, g.Uniform → Steady (p g)) (h : WrittenLike source source') :
    (do return [← readAll p source] : Except ParseError (List Node)).toOption.map
        (·.map Node.shape) =
      (do return [← readAll p source'] : Except ParseError (List Node)).toOption.map
        (·.map Node.shape) := by
  have hsingle : ∀ x : Except ParseError Node,
      (do return [← x] : Except ParseError (List Node)).toOption.map (·.map Node.shape) =
        (x.toOption.map Node.shape).map fun s => [s] := by
    intro x
    cases x <;> rfl
  rw [hsingle, hsingle, Grammar.map_readAll hp h]

/-- The nodes among parts show in the shapes of the parts. -/
theorem shapes_nodes (parts : List Element) :
    (parts.filterMap Element.node?).map Node.shape =
      (Element.shapesIn parts).filter Shape.isNode := by
  induction parts with
  | nil => rfl
  | cons e parts ih =>
    cases e with
    | token t => exact ih
    | node n =>
      have hnode : n.shape.isNode = true := by rw [Node.shape_eq]; rfl
      simpa [Element.node?, hnode] using ih

theorem map_readStatements {source source' : String} (h : WrittenLike source source') :
    (readStatements source).toOption.map (·.map Node.shape) =
      (readStatements source').toOption.map (·.map Node.shape) := by
  have hparts : ∀ x : Except ParseError (List Element),
      (do return (← x).filterMap Element.node? : Except ParseError (List Node)).toOption.map
          (·.map Node.shape) =
        (x.toOption.map Element.shapesIn).map (·.filter Shape.isNode) := by
    intro x
    cases x with
    | error e => rfl
    | ok parts => exact congrArg some (shapes_nodes parts)
  rw [readStatements, readStatements, hparts, hparts]
  exact congrArg _ (Grammar.map_readAll (fun hg => hg.statement.one.repeatWhile (by simp)) h)

theorem map_read (fragment : Fragment) {source source' : String} (h : WrittenLike source source') :
    (fragment.read source).toOption.map (·.map Node.shape) =
      (fragment.read source').toOption.map (·.map Node.shape) := by
  match fragment with
  | .expression => exact map_readSingle (fun hg => hg.expression) h
  | .statements => exact map_readStatements h
  | .type => exact map_readSingle (fun hg => hg.type) h
  | .name => exact map_readSingle steady_typeName h
  | .attribute => exact map_readSingle steady_attributeOf h
  | .attributeList => exact map_readSingle steady_attributeList h
  | .attributeArgumentList => exact map_readSingle steady_attributeArguments h
  | .member => exact map_readSingle (fun hg => hg.member) h

end Fragment

/-- Layout does not change how a text is read. Two texts with the same kinds and texts of tokens,
    and the same gaps between marks where a gap matters, are both refused or read as trees of the
    same shape, as whole files and as any sort of fragment. -/
theorem reading_ignores_layout {source source' : String} {ts us : List Token}
    (hts : Token.scan source = .ok ts) (hus : Token.scan source' = .ok us)
    (h : Token.SameWriting ts us) :
    (∀ reading reading' : Nat, (Tree.parse source reading).toOption.map (·.root.shape) =
      (Tree.parse source' reading').toOption.map (·.root.shape)) ∧
    ∀ fragment : Fragment, (fragment.read source).toOption.map (·.map Node.shape) =
      (fragment.read source').toOption.map (·.map Node.shape) := by
  have hwritten : WrittenLike source source' := ⟨ts, us, hts, hus, h⟩
  exact ⟨Tree.map_parse hwritten, fun fragment => fragment.map_read hwritten⟩

theorem reading_ignores_layout_shift :
    ∃ ts us shape, Token.scan "a >>/* by one */1" = .ok ts ∧ Token.scan "a\n>> 1" = .ok us ∧
      Token.SameWriting ts us ∧
      (Fragment.read .expression "a >>/* by one */1").toOption.map (·.map Node.shape) = some shape ∧
      (Fragment.read .expression "a\n>> 1").toOption.map (·.map Node.shape) = some shape := by
  have halike : ((Token.scan "a >>/* by one */1").toOption.bind fun ts =>
      (Token.scan "a\n>> 1").toOption.map (Token.writesAlike ts)) = some true := by
    decide +kernel
  have hread : (Fragment.read .expression "a >>/* by one */1").toOption.isSome := by
    decide +kernel
  rcases hts : Token.scan "a >>/* by one */1" with e | ts
  · simp [hts, Except.toOption] at halike
  rcases hus : Token.scan "a\n>> 1" with e | us
  · simp [hts, hus, Except.toOption] at halike
  have hwriting : Token.SameWriting ts us :=
    .of_writesAlike (by simpa [hts, hus, Except.toOption] using halike)
  obtain ⟨nodes, hnodes⟩ := Option.isSome_iff_exists.1 hread
  have hsame := (reading_ignores_layout hts hus hwriting).2 .expression
  rw [hnodes] at hsame
  exact ⟨ts, us, nodes.map Node.shape, rfl, rfl, hwriting, by rw [hnodes]; rfl, hsame.symm⟩

end Recast
