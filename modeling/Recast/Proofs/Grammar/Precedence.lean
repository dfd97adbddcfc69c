-- SUMMARY: Chains of binary operators in a text that was read group by precedence, to the left but for the coalescing operator.
import Recast.Proofs.Tree.Spans

/-! # Precedence

An operator is read with a bound on the operators in its right operand, and the chain goes on only
with operators that the bound kept out of it. What carries this through the chain is
`Grammar.Chained`: the last operator read, and that the one which comes next does not bind tighter.
A pattern ends where it likes, so a chain whose last operator is `is` or `as` promises nothing
about the next one. -/

namespace Recast

/-- Binary expressions follow the table of operators: the parts of one are two operands around an
    operator, the left one binds at least as tight and the right one tighter; for the coalescing
    operator it is the other way round. An operand that is a test by `is` or `as` may stand on the
    left of anything. -/
theorem operators_bind_by_precedence {source : String} {e : Node}
    (h : Fragment.readExpression source = .ok e) {p : Path} {b : Node} (hat : e.at? p = some b)
    {precedence width : Nat} (hoperator : b.operator? = some (precedence, width))
    (htests : b.testsType = false) :
    ∃ left, ∃ operator : List Token, ∃ right,
      b.children = .node left :: (operator.map .token ++ [.node right]) ∧ operator.length = width ∧
      (∀ inner width', left.operator? = some (inner, width') → left.testsType = false →
        precedence ≤ inner ∧ (precedence = Grammar.coalescing → precedence < inner)) ∧
      ∀ inner width', right.operator? = some (inner, width') →
        if precedence = Grammar.coalescing then precedence ≤ inner else precedence < inner := by
  have hread : Fragment.read .expression source = .ok [e] := by
    rw [Fragment.read, h]
    rfl
  have hbuilt : e.Built := (Fragment.readFrom_of_read hread).built e (List.mem_singleton_self e)
  exact (hbuilt.at? hat).fits.ranked precedence width hoperator htests

theorem operators_bind_by_precedence_sample :
    ∃ e b left, ∃ operator : List Token, ∃ right,
      Fragment.readExpression "a ?? b - c - d * e" = .ok e ∧ e.at? [2] = some b ∧
      b.children = .node left :: (operator.map .token ++ [.node right]) ∧
      left.text = "b - c" ∧ right.text = "d * e" := by
  obtain ⟨e, he, hnode⟩ := exists_ok_of_map
    (x := Fragment.readExpression "a ?? b - c - d * e")
    (f := fun e => (e.at? [2]).map fun b =>
      (b.operator?, b.testsType, b.childNodes.map Node.text))
    (b := some (some (10, 1), false, ["b - c", "d * e"])) (by decide +kernel)
  obtain ⟨b, hb, heq⟩ := Option.map_eq_some_iff.1 hnode
  simp only [Prod.mk.injEq] at heq
  obtain ⟨hoperator, htests, htexts⟩ := heq
  obtain ⟨left, operator, right, hchildren, -, -, -⟩ :=
    operators_bind_by_precedence he hb hoperator htests
  have hnodes : b.childNodes = [left, right] := by
    simp [Node.childNodes, hchildren, Element.node?, Function.comp_def]
  rw [hnodes] at htexts
  obtain ⟨hleft, hright⟩ := List.cons.inj htexts
  exact ⟨e, b, left, operator, right, he, hb, hchildren, hleft, (List.cons.inj hright).1⟩

end Recast
