-- SUMMARY: The walk through a tree with a stack lists its nodes in document order: each once, by increasing paths, and the ancestors of a node are those of the listed ones at a beginning of its path.
import Recast.Proofs.Tree.Sites
import Recast.Types.SourceModel

/-! # Document order

A walk through a tree lists the nodes that a recursion over the tree lists, and the paths of that
listing increase in the lexicographic order, where a path comes before those that it is a beginning
of (`Node.increasing_nodes`). So the place of a site in the walk can be told from its path:
`Path.precedes` compares the turns of two sites, and the first site that a search finds is the one
with the least path. The ancestors of a site have had their turn before it. -/

namespace Recast

/-! ## Paths in order -/

namespace Path

/-- The order in which declarations are compared with uses is the lexicographic one. -/
theorem precedes_iff_lt {p q : Path} : p.precedes q = true ↔ p < q := by
  induction p generalizing q with
  | nil =>
    cases q with
    | nil => simp [precedes]
    | cons j q => simp [precedes]
  | cons i p ih =>
    cases q with
    | nil => simp [precedes]
    | cons j q =>
      rw [precedes, List.cons_lt_cons_iff]
      split
      · rename_i hij
        rw [ih]
        simp [hij]
      · rename_i hij
        simp [hij]

theorem isAncestorOf_iff {p q : Path} :
    p.isAncestorOf q = true ↔ ∃ depth, depth < q.length ∧ p = q.take depth := by
  rw [isAncestorOf, Bool.and_eq_true, decide_eq_true_eq, List.isPrefixOf_iff_prefix]
  constructor
  · rintro ⟨hlength, hprefix⟩
    exact ⟨p.length, hlength, List.prefix_iff_eq_take.1 hprefix⟩
  · rintro ⟨depth, hdepth, rfl⟩
    refine ⟨?_, List.take_prefix depth q⟩
    rw [List.length_take]
    omega

end Path

mutual

theorem Node.length_nodes : (n : Node) → n.nodes.length = n.size
  | ⟨_, children, _, _⟩ => congrArg (· + 1) (Element.length_nodesIn 0 children)

theorem Element.length_nodes : (e : Element) → e.nodes.length = e.size
  | .token _ => rfl
  | .node n => n.length_nodes

theorem Element.length_nodesIn : (i : Nat) → (es : List Element) →
    (Element.nodesIn i es).length = Element.sizeIn es
  | _, [] => rfl
  | i, e :: es => by
    rw [Element.nodesIn, List.length_append, List.length_map, e.length_nodes,
      Element.length_nodesIn (i + 1) es, Element.sizeIn]

end

/-! ## Ancestors -/

namespace Site

variable {t : Tree} {s u : Site}

/-- The ancestors are the sites at the proper beginnings of the path. -/
theorem mem_ancestors_iff (hs : s ∈ t.sites) :
    u ∈ s.ancestors ↔ u ∈ t.sites ∧ u.path.isAncestorOf s.path = true := by
  rw [Path.isAncestorOf_iff]
  constructor
  · exact ancestors_mem hs
  · rintro ⟨hu, depth, hdepth, hpath⟩
    exact mem_ancestors hs hu hdepth hpath

/-- The nearest ancestor comes first, and each is less deep than those before it. -/
theorem ancestors_rise (hs : s ∈ t.sites) :
    s.ancestors.Pairwise fun u v => v.path.length < u.path.length := by
  rw [ancestors, List.pairwise_filterMap, List.pairwise_reverse]
  refine List.Pairwise.imp_of_mem (fun {i j} hi hj hij v hv u hu => ?_)
    (List.pairwise_lt_range (n := s.path.length))
  rw [(goto?_mem hs hv).2, (goto?_mem hs hu).2, List.length_take, List.length_take]
  rw [List.mem_range] at hi hj
  omega

end Site

/-! ## The walk through a tree -/

namespace Tree

theorem increasing_sites (t : Tree) : (t.sites.map Site.path).Pairwise (· < ·) := by
  rw [sites_eq, List.map_map]
  exact t.root.increasing_nodes

theorem length_sites (t : Tree) : t.sites.length = t.root.size := by
  rw [sites_eq, List.length_map, Node.length_nodes]

theorem get?_of_mem {t : Tree} {s : Site} (hs : s ∈ t.sites) : t.get? s.path = some s := by
  obtain ⟨rfl, hat⟩ := mem_sites_iff.1 hs
  rw [get?, Site.goto?, rootSite, hat]
  rfl

/-- The walk through a tree with a stack is in document order. Its run comes to an end, and to one
    list only, which is that of the recursion over the tree: each node of the tree is in it once,
    and the paths increase in the lexicographic order. Each listed site is the one that is found at
    its path, and its ancestors are the listed sites at proper beginnings of that path, the longest
    first. -/
theorem sites_in_document_order (t : Tree) :
    (∀ listed, Site.Visits [t.rootSite] listed ↔ listed = t.sites) ∧
    t.sites = t.root.nodes.map (fun (p, n) => ⟨t, p, n⟩) ∧
    (t.sites.Nodup ∧ t.sites.length = t.root.size ∧
      ∀ p n, t.root.at? p = some n → ⟨t, p, n⟩ ∈ t.sites) ∧
    ((t.sites.map Site.path).Pairwise fun p q => p < q ∧ p.precedes q = true) ∧
    (∀ s ∈ t.sites, t.get? s.path = some s) ∧
    ∀ s ∈ t.sites, (∀ u, u ∈ s.ancestors ↔ u ∈ t.sites ∧ u.path.isAncestorOf s.path = true) ∧
      s.ancestors.Pairwise fun u v => v.path.length < u.path.length := by
  have hruns : Site.Visits [t.rootSite] t.sites := Site.visits_selfAndDescendants t.rootSite
  refine ⟨fun listed => ⟨fun h => h.eq_listing.trans hruns.eq_listing.symm, fun h => h ▸ hruns⟩,
    sites_eq t, ⟨.of_map Site.path t.nodup_sites, t.length_sites, fun _ _ => mem_sites_of_at?⟩, ?_,
    fun s => get?_of_mem, fun s hs => ⟨fun u => Site.mem_ancestors_iff hs, Site.ancestors_rise hs⟩⟩
  exact t.increasing_sites.imp fun h => ⟨h, Path.precedes_iff_lt.2 h⟩

/-- A tree with a node that is not a first part, and one without parts. -/
def nested : Tree :=
  let method : Node := .ofChildren .methodDeclaration [.token (.ofKeyword "void")]
  let first : Node := .ofChildren .classDeclaration [.token (.ofKeyword "class"), .node method]
  { root := .ofChildren .compilationUnit
      [.node first, .token (.ofMark ";"), .node (.ofChildren .classDeclaration [])] }

theorem sites_in_document_order_nested :
    nested.sites.map Site.path = [[], [0], [0, 1], [2]] ∧
    ∃ s ∈ nested.sites, s.path = [0, 1] ∧ nested.get? s.path = some s ∧
      s.ancestors.map Site.path = [[0], []] ∧
      ∀ u, u ∈ s.ancestors ↔ u ∈ nested.sites ∧ u.path.isAncestorOf [0, 1] = true := by
  obtain ⟨-, -, ⟨-, -, hlisted⟩, -, hget, hancestors⟩ := sites_in_document_order nested
  obtain hs := hlisted [0, 1] (.ofChildren .methodDeclaration [.token (.ofKeyword "void")]) rfl
  exact ⟨rfl, _, hs, rfl, hget _ hs, rfl, (hancestors _ hs).1⟩

end Tree

end Recast
