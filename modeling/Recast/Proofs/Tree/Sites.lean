-- SUMMARY: The sites of a tree are its nodes with their paths, each once, in document order; a search finds a wanted node wherever it may go.
import Mathlib.Data.List.Nodup
import Recast.Tree.Site

/-! # Sites

`Tree.sites` walks a tree with a stack. `Site.Visits` is the run of such a walk, which knows no
bound: what it lists is read off the stack that it starts from (`Visits.eq_listing`), so the stack
stands for the part of the tree that is still to be visited. `Node.nodes` lists the same nodes by
recursion over the node, and `mem_sites_iff` says what a site of a tree is without either: a path
and the node that stands there. Ancestors and children of a site are sites of the same tree. -/

namespace Recast

/-! ## Paths -/

theorem Path.parent?_child (p : Path) (i : Nat) : parent? (p ++ [i]) = some p := by
  cases p with
  | nil => rfl
  | cons j p =>
    show some ((j :: p) ++ [i]).dropLast = some (j :: p)
    rw [List.dropLast_concat]

namespace Node

@[simp] theorem at?_nil (n : Node) : n.at? [] = some n := rfl

theorem at?_cons_eq_some {n m : Node} {i : Nat} {p : Path} :
    n.at? (i :: p) = some m ↔ ∃ c, n.children[i]? = some (.node c) ∧ c.at? p = some m := by
  rcases hchild : n.children[i]? with _ | (t | c)
  · simp [at?, hchild]
  · simp [at?, hchild]
  · simp [at?, hchild]

theorem at?_append (n : Node) (p q : Path) : n.at? (p ++ q) = (n.at? p).bind (·.at? q) := by
  induction p generalizing n with
  | nil => rfl
  | cons i p ih =>
    rcases hchild : n.children[i]? with _ | (t | c)
    · simp [at?, hchild]
    · simp [at?, hchild]
    · simp only [List.cons_append, at?, hchild]
      exact ih c

theorem at?_trans {n m u : Node} {p q : Path} (hat : n.at? p = some m) (hu : m.at? q = some u) :
    n.at? (p ++ q) = some u := by
  rw [at?_append, hat]
  exact hu

theorem at?_child {n m c : Node} {p : Path} {i : Nat} (hat : n.at? p = some m)
    (hc : m.children[i]? = some (.node c)) : n.at? (p ++ [i]) = some c :=
  at?_trans hat (at?_cons_eq_some.2 ⟨c, hc, rfl⟩)

end Node

/-! ## All nodes below one -/

mutual

/-- The node and all below it in document order, with their paths from here. -/
def Node.nodes : Node → List (Path × Node)
  | ⟨kind, children, span, tags⟩ =>
    ([], ⟨kind, children, span, tags⟩) :: Element.nodesIn 0 children

/-- The nodes of a part with their paths from there. -/
def Element.nodes : Element → List (Path × Node)
  | .token _ => []
  | .node n => n.nodes

/-- The nodes of a list of parts, the first of which has the given index. -/
def Element.nodesIn : Nat → List Element → List (Path × Node)
  | _, [] => []
  | i, e :: es => (e.nodes.map fun (p, n) => (i :: p, n)) ++ Element.nodesIn (i + 1) es

end

theorem Node.nodes_eq (n : Node) : n.nodes = ([], n) :: Element.nodesIn 0 n.children := by
  obtain ⟨kind, children, span, tags⟩ := n
  rfl

theorem Element.mem_nodesIn {i : Nat} {es : List Element} {q : Path} {m : Node} :
    (q, m) ∈ nodesIn i es ↔
      ∃ j c p, es[j]? = some (.node c) ∧ q = (i + j) :: p ∧ (p, m) ∈ c.nodes := by
  induction es generalizing i with
  | nil => simp [nodesIn]
  | cons e es ih =>
    simp only [nodesIn, List.mem_append, List.mem_map]
    constructor
    · rintro (⟨⟨p, n⟩, hmem, heq⟩ | hmem)
      · obtain ⟨rfl, rfl⟩ := Prod.mk.inj heq
        cases e with
        | token t => cases hmem
        | node c => exact ⟨0, c, p, rfl, rfl, hmem⟩
      · obtain ⟨j, c, p, hj, rfl, hp⟩ := ih.1 hmem
        exact ⟨j + 1, c, p, hj, by rw [Nat.add_right_comm, Nat.add_assoc], hp⟩
    · rintro ⟨j, c, p, hj, rfl, hp⟩
      cases j with
      | zero =>
        obtain rfl : e = .node c := by simpa using hj
        exact .inl ⟨(p, m), hp, rfl⟩
      | succ j => exact .inr (ih.2 ⟨j, c, p, hj, by rw [Nat.add_right_comm, Nat.add_assoc], hp⟩)

theorem Node.mem_nodes {n m : Node} {p : Path} : (p, m) ∈ n.nodes ↔ n.at? p = some m := by
  induction p generalizing n with
  | nil =>
    rw [nodes_eq, List.mem_cons, Element.mem_nodesIn]
    simp [eq_comm]
  | cons i p ih =>
    rw [nodes_eq, List.mem_cons, Element.mem_nodesIn, at?_cons_eq_some]
    constructor
    · rintro (hnil | ⟨j, c, q, hj, heq, hq⟩)
      · cases hnil
      · obtain ⟨rfl, rfl⟩ : i = j ∧ p = q := by simpa using heq
        exact ⟨c, hj, ih.1 hq⟩
    · rintro ⟨c, hc, hp⟩
      exact .inr ⟨i, c, p, hc, by rw [Nat.zero_add], ih.2 hp⟩

mutual

/-- The paths of the nodes below one increase: a path comes before those that it is a beginning of. -/
theorem Node.increasing_nodes : (n : Node) → (n.nodes.map Prod.fst).Pairwise (· < ·)
  | ⟨kind, children, span, tags⟩ => by
    have hparts := Element.increasing_nodesIn 0 children
    rw [Node.nodes, List.map_cons, List.pairwise_cons]
    refine ⟨fun q hq => ?_, hparts⟩
    obtain ⟨⟨p, m⟩, hmem, rfl⟩ := List.mem_map.1 hq
    obtain ⟨j, c, r, -, rfl, -⟩ := Element.mem_nodesIn.1 hmem
    exact List.nil_lt_cons _ _

theorem Element.increasing_nodes : (e : Element) → (e.nodes.map Prod.fst).Pairwise (· < ·)
  | .token _ => List.Pairwise.nil
  | .node n => n.increasing_nodes

theorem Element.increasing_nodesIn : (i : Nat) → (es : List Element) →
    ((Element.nodesIn i es).map Prod.fst).Pairwise (· < ·)
  | _, [] => List.Pairwise.nil
  | i, e :: es => by
    have hfirst := e.increasing_nodes
    have hrest := Element.increasing_nodesIn (i + 1) es
    rw [Element.nodesIn, List.map_append, List.pairwise_append]
    refine ⟨?_, hrest, ?_⟩
    · have hcons : ((e.nodes.map fun (p, n) => (i :: p, n)).map Prod.fst) =
          (e.nodes.map Prod.fst).map (i :: ·) := by simp
      rw [hcons, List.pairwise_map]
      exact hfirst.imp fun h => List.cons_lt_cons_iff.2 (.inr ⟨rfl, h⟩)
    · -- What comes first is in the part at `i`, and the rest in later parts.
      intro p hp q hq
      obtain ⟨⟨p', m⟩, hp', rfl⟩ := List.mem_map.1 hp
      obtain ⟨⟨p'', m'⟩, -, heq⟩ := List.mem_map.1 hp'
      obtain ⟨⟨q', m''⟩, hq', rfl⟩ := List.mem_map.1 hq
      obtain ⟨j, c, r, -, rfl, -⟩ := Element.mem_nodesIn.1 hq'
      obtain ⟨rfl, -⟩ := Prod.mk.inj heq
      exact List.cons_lt_cons_iff.2 (.inl (by omega))

end

/-- No path occurs twice among the nodes below one. -/
theorem Node.nodup_nodes (n : Node) : (n.nodes.map Prod.fst).Nodup :=
  n.increasing_nodes.imp fun hlt => by
    rintro rfl
    exact List.lt_irrefl _ hlt

/-! ## The sites of a tree -/

namespace Site

/-- A site and all below it, by recursion over its node. -/
def listing (s : Site) : List Site :=
  s.node.nodes.map fun (p, n) => ⟨s.tree, s.path ++ p, n⟩

/-- The sites of the nodes among parts, the first of which has the given index. -/
def childrenFrom (s : Site) (k : Nat) (es : List Element) : List Site :=
  (es.zipIdx k).filterMap fun (e, i) =>
    e.node?.map fun node => { s with path := s.path.child i, node }

@[simp] theorem childrenFrom_nil (s : Site) (k : Nat) : s.childrenFrom k [] = [] := rfl

@[simp] theorem childrenFrom_token (s : Site) (k : Nat) (t : Token) (es : List Element) :
    s.childrenFrom k (.token t :: es) = s.childrenFrom (k + 1) es := rfl

@[simp] theorem childrenFrom_node (s : Site) (k : Nat) (c : Node) (es : List Element) :
    s.childrenFrom k (.node c :: es) = ⟨s.tree, s.path ++ [k], c⟩ :: s.childrenFrom (k + 1) es := rfl

theorem children_eq (s : Site) : s.children = s.childrenFrom 0 s.node.children := rfl

theorem listing_childrenFrom (s : Site) (es : List Element) (k : Nat) :
    (s.childrenFrom k es).flatMap listing
      = (Element.nodesIn k es).map fun (p, n) => ⟨s.tree, s.path ++ p, n⟩ := by
  induction es generalizing k with
  | nil => rfl
  | cons e es ih =>
    cases e with
    | token t => simpa [Element.nodesIn, Element.nodes] using ih (k + 1)
    | node c => simp [Element.nodesIn, Element.nodes, listing, ih (k + 1)]

theorem listing_eq (s : Site) : s.listing = s :: s.children.flatMap listing := by
  rw [children_eq, listing_childrenFrom, listing, Node.nodes_eq]
  simp

theorem sizeIn_append (xs ys : List Element) :
    Element.sizeIn (xs ++ ys) = Element.sizeIn xs + Element.sizeIn ys := by
  induction xs with
  | nil => simp [Element.sizeIn]
  | cons e xs ih => simp [Element.sizeIn, ih, Nat.add_assoc]

/-- The nodes of sites, as parts. -/
def parts (stack : List Site) : List Element :=
  stack.map fun s => .node s.node

theorem size_childrenFrom (s : Site) (es : List Element) (k : Nat) :
    Element.sizeIn (parts (s.childrenFrom k es)) = Element.sizeIn es := by
  induction es generalizing k with
  | nil => rfl
  | cons e es ih =>
    cases e with
    | token t => simpa [Element.sizeIn, Element.size] using ih (k + 1)
    | node c => simpa [parts, Element.sizeIn, Element.size] using ih (k + 1)

/-- The run of a walk from a stack of sites to the list of those that it visits. The site on top
    is next, and its children take its place. -/
inductive Visits : (stack listed : List Site) → Prop where
  | done : Visits [] []
  | next {s : Site} {stack listed : List Site} :
      Visits (s.children ++ stack) listed → Visits (s :: stack) (s :: listed)

/-- A run lists the sites on the stack and all below them: what is still to be visited. -/
theorem Visits.eq_listing {stack listed : List Site} (h : Visits stack listed) :
    listed = stack.flatMap listing := by
  induction h with
  | done => rfl
  | @next s stack listed _ ih =>
    rw [ih, List.flatMap_append, List.flatMap_cons, listing_eq s, List.cons_append]

/-- Visits that are not cut short by the bound come to the end of the walk. -/
theorem visits_visit {bound : Nat} {stack : List Site} (h : Element.sizeIn (parts stack) ≤ bound) :
    Visits stack (visit bound stack) := by
  induction bound generalizing stack with
  | zero =>
    cases stack with
    | nil => exact .done
    | cons s stack =>
      obtain ⟨tree, path, ⟨kind, children, span, tags⟩⟩ := s
      simp [parts, Element.sizeIn, Element.size, Node.size] at h
  | succ bound ih =>
    cases stack with
    | nil => exact .done
    | cons s stack =>
      -- The node goes off the stack and its children come on, which is one part less.
      have hsize : s.node.size = Element.sizeIn (parts s.children) + 1 := by
        rw [children_eq, size_childrenFrom]
        obtain ⟨tree, path, ⟨kind, children, span, tags⟩⟩ := s
        rfl
      have hstack : s.node.size + Element.sizeIn (parts stack) ≤ bound + 1 := h
      have hrest : Element.sizeIn (parts (s.children ++ stack)) ≤ bound := by
        rw [parts, List.map_append, sizeIn_append, ← parts, ← parts]
        omega
      exact .next (ih hrest)

/-- The walk from a site ends with all its visits made. -/
theorem visits_selfAndDescendants (s : Site) : Visits [s] s.selfAndDescendants :=
  visits_visit (Nat.le_refl (Element.sizeIn (parts [s])))

theorem selfAndDescendants_eq (s : Site) : s.selfAndDescendants = s.listing := by
  rw [(visits_selfAndDescendants s).eq_listing, List.flatMap_cons, List.flatMap_nil,
    List.append_nil]

theorem mem_selfAndDescendants_of_at? {s : Site} {q : Path} {m : Node}
    (h : s.node.at? q = some m) : ⟨s.tree, s.path ++ q, m⟩ ∈ s.selfAndDescendants := by
  rw [selfAndDescendants_eq]
  exact List.mem_map.2 ⟨(q, m), Node.mem_nodes.2 h, rfl⟩

end Site

namespace Tree

theorem sites_eq (t : Tree) : t.sites = t.root.nodes.map fun (p, n) => ⟨t, p, n⟩ :=
  t.rootSite.selfAndDescendants_eq

/-- A site of a tree is a path with the node that stands there. -/
theorem mem_sites_iff {t : Tree} {s : Site} :
    s ∈ t.sites ↔ s.tree = t ∧ t.root.at? s.path = some s.node := by
  rw [sites_eq, List.mem_map]
  constructor
  · rintro ⟨⟨p, n⟩, hmem, rfl⟩
    exact ⟨rfl, Node.mem_nodes.1 hmem⟩
  · rintro ⟨rfl, hat⟩
    exact ⟨(s.path, s.node), Node.mem_nodes.2 hat, rfl⟩

theorem nodup_sites (t : Tree) : (t.sites.map Site.path).Nodup := by
  rw [sites_eq, List.map_map]
  exact t.root.nodup_nodes

theorem mem_sites_of_at? {t : Tree} {p : Path} {n : Node} (h : t.root.at? p = some n) :
    ⟨t, p, n⟩ ∈ t.sites :=
  mem_sites_iff.2 ⟨rfl, h⟩

/-- Two sites of a tree at the same path are the same. -/
theorem eq_of_path_eq {t : Tree} {s u : Site} (hs : s ∈ t.sites) (hu : u ∈ t.sites)
    (h : s.path = u.path) : s = u := by
  obtain ⟨stree, spath, snode⟩ := s
  obtain ⟨utree, upath, unode⟩ := u
  obtain ⟨rfl, hs⟩ := mem_sites_iff.1 hs
  obtain ⟨rfl, hu⟩ := mem_sites_iff.1 hu
  obtain rfl : spath = upath := h
  obtain rfl : snode = unode := by simpa [hs] using hu
  rfl

end Tree

/-! ## Sites next to a site -/

namespace Site

variable {t : Tree} {s u : Site}

theorem goto?_of_mem (hs : s ∈ t.sites) (p : Path) :
    s.goto? p = (t.root.at? p).map fun node => ⟨t, p, node⟩ := by
  obtain ⟨rfl, -⟩ := Tree.mem_sites_iff.1 hs
  rfl

theorem goto?_mem (hs : s ∈ t.sites) {p : Path} (h : s.goto? p = some u) :
    u ∈ t.sites ∧ u.path = p := by
  rw [goto?_of_mem hs] at h
  obtain ⟨node, hnode, rfl⟩ := Option.map_eq_some_iff.1 h
  exact ⟨Tree.mem_sites_of_at? hnode, rfl⟩

theorem parent?_mem (hs : s ∈ t.sites) (h : s.parent? = some u) : u ∈ t.sites := by
  obtain ⟨p, -, hp⟩ := Option.bind_eq_some_iff.1 h
  exact (goto?_mem hs hp).1

theorem parent?_path (hs : s ∈ t.sites) (h : s.parent? = some u) :
    ∃ i, s.path = u.path ++ [i] := by
  obtain ⟨q, hq, hgoto⟩ := Option.bind_eq_some_iff.1 h
  obtain ⟨-, rfl⟩ := goto?_mem hs hgoto
  rcases List.eq_nil_or_concat' s.path with hnil | ⟨p, i, hp⟩
  · rw [hnil] at hq
    cases hq
  · rw [hp, Path.parent?_child] at hq
    exact ⟨i, by rw [hp, Option.some.inj hq]⟩

/-- An ancestor stands at a proper beginning of the path. -/
theorem ancestors_mem (hs : s ∈ t.sites) (h : u ∈ s.ancestors) :
    u ∈ t.sites ∧ ∃ depth, depth < s.path.length ∧ u.path = s.path.take depth := by
  obtain ⟨depth, hdepth, hgoto⟩ := List.mem_filterMap.1 h
  obtain ⟨hu, hpath⟩ := goto?_mem hs hgoto
  exact ⟨hu, depth, by simpa using hdepth, hpath⟩

theorem mem_ancestors (hs : s ∈ t.sites) (hu : u ∈ t.sites) {depth : Nat}
    (hdepth : depth < s.path.length) (hpath : u.path = s.path.take depth) : u ∈ s.ancestors := by
  refine List.mem_filterMap.2 ⟨depth, by simpa using hdepth, ?_⟩
  obtain ⟨rfl, hat⟩ := Tree.mem_sites_iff.1 hu
  rw [goto?_of_mem hs, ← hpath, hat]
  rfl

theorem ancestorWhere?_mem (hs : s ∈ t.sites) {accept : Kind → Bool}
    (h : s.ancestorWhere? accept = some u) :
    u ∈ t.sites ∧ accept u.kind = true ∧ ∃ r, s.path = u.path ++ r := by
  obtain ⟨hu, depth, -, hpath⟩ := ancestors_mem hs (List.mem_of_find?_eq_some h)
  have haccept := List.find?_some h
  exact ⟨hu, haccept, s.path.drop depth, by rw [hpath, List.take_append_drop]⟩

theorem exists_of_mem_children (h : u ∈ s.children) : ∃ i, u.tree = s.tree ∧
    u.path = s.path ++ [i] ∧ s.node.children[i]? = some (.node u.node) := by
  obtain ⟨⟨e, i⟩, hmem, hu⟩ := List.mem_filterMap.1 h
  obtain ⟨node, hnode, rfl⟩ := Option.map_eq_some_iff.1 hu
  obtain rfl : e = .node node := by
    cases e with
    | token t => cases hnode
    | node n => rw [Option.some.inj hnode]
  exact ⟨i, rfl, rfl, List.mem_zipIdx_iff_getElem?.1 hmem⟩

theorem children_mem (hs : s ∈ t.sites) (h : u ∈ s.children) : u ∈ t.sites := by
  obtain ⟨rfl, hat⟩ := Tree.mem_sites_iff.1 hs
  obtain ⟨i, htree, hpath, hchild⟩ := exists_of_mem_children h
  refine Tree.mem_sites_iff.2 ⟨htree, ?_⟩
  rw [hpath]
  exact Node.at?_child hat hchild

theorem child?_mem (hs : s ∈ t.sites) {kind : Kind} (h : s.child? kind = some u) : u ∈ t.sites :=
  children_mem hs (List.mem_of_find?_eq_some h)

theorem firstChild?_mem (hs : s ∈ t.sites) (h : s.firstChild? = some u) : u ∈ t.sites :=
  children_mem hs (List.mem_of_mem_head? h)

end Site

/-! ## Search -/

section Search

variable {wanted enters : Node → Bool}

theorem Node.search?_eq (n : Node) : n.search? wanted enters
    = if wanted n then some ([], n) else Element.searchIn? wanted enters 0 n.children := by
  obtain ⟨kind, children, span, tags⟩ := n
  rfl

theorem Element.searchIn?_eq_some {i : Nat} {es : List Element} {q : Path} {m : Node}
    (h : searchIn? wanted enters i es = some (q, m)) :
    ∃ j c p, es[j]? = some (.node c) ∧ q = (i + j) :: p ∧ c.search? wanted enters = some (p, m) := by
  induction es generalizing i with
  | nil => cases h
  | cons e es ih =>
    simp only [searchIn?] at h
    split at h
    · rename_i p n hfirst
      obtain ⟨rfl, rfl⟩ := Prod.mk.inj (Option.some.inj h)
      cases e with
      | token t => cases hfirst
      | node c =>
        simp only [search?] at hfirst
        split at hfirst
        · exact ⟨0, c, p, rfl, rfl, hfirst⟩
        · cases hfirst
    · obtain ⟨j, c, p, hj, rfl, hp⟩ := ih h
      exact ⟨j + 1, c, p, hj, by rw [Nat.add_right_comm, Nat.add_assoc], hp⟩

/-- What a search finds is wanted and stands where it says. -/
theorem Node.search?_sound {n m : Node} {p : Path} (h : n.search? wanted enters = some (p, m)) :
    n.at? p = some m ∧ wanted m = true := by
  induction p generalizing n with
  | nil =>
    rw [search?_eq] at h
    split at h
    · rename_i hwanted
      obtain ⟨-, rfl⟩ := Prod.mk.inj (Option.some.inj h)
      exact ⟨rfl, hwanted⟩
    · obtain ⟨j, c, q, -, hq, -⟩ := Element.searchIn?_eq_some h
      cases hq
  | cons i p ih =>
    rw [search?_eq] at h
    split at h
    · cases h
    · obtain ⟨j, c, q, hj, heq, hq⟩ := Element.searchIn?_eq_some h
      obtain ⟨rfl, rfl⟩ : i = j ∧ p = q := by simpa using heq
      obtain ⟨hat, hwanted⟩ := ih hq
      exact ⟨at?_cons_eq_some.2 ⟨c, hj, hat⟩, hwanted⟩

theorem Element.searchIn?_isSome {i j : Nat} {es : List Element} {c : Node}
    (hj : es[j]? = some (.node c)) (henters : enters c = true)
    (hc : (c.search? wanted enters).isSome) : (searchIn? wanted enters i es).isSome := by
  induction es generalizing i j with
  | nil => cases hj
  | cons e es ih =>
    simp only [searchIn?]
    split
    · rfl
    · rename_i hfirst
      cases j with
      | zero =>
        obtain rfl : e = .node c := by simpa using hj
        rw [search?, if_pos henters] at hfirst
        rw [hfirst] at hc
        cases hc
      | succ j => exact ih hj

/-- A wanted node is found when every node on the way to it may be entered. -/
theorem Node.search?_isSome {n m : Node} {p : Path} (hat : n.at? p = some m)
    (hwanted : wanted m = true)
    (hway : ∀ q r c, p = q ++ r → q ≠ [] → n.at? q = some c → enters c = true) :
    (n.search? wanted enters).isSome := by
  induction p generalizing n with
  | nil =>
    obtain rfl := Option.some.inj hat
    rw [search?_eq, if_pos hwanted]
    rfl
  | cons i p ih =>
    obtain ⟨c, hc, hat⟩ := at?_cons_eq_some.1 hat
    rw [search?_eq]
    split
    · rfl
    · have henters := hway [i] p c rfl (by simp) (at?_cons_eq_some.2 ⟨c, hc, rfl⟩)
      refine Element.searchIn?_isSome hc henters (ih hat ?_)
      intro q r d hq _ hd
      exact hway (i :: q) r d (by rw [hq]; rfl) (by simp) (at?_cons_eq_some.2 ⟨c, hc, hd⟩)

mutual

/-- A search that passes over no wanted node finds the first one in document order. -/
theorem Node.search?_eq_find? : (n : Node) →
    (∀ (q r : Path) (c m : Node), q ≠ [] → n.at? q = some c → c.at? r = some m → wanted m = true →
      enters c = true) →
    n.search? wanted enters = n.nodes.find? (wanted ·.2)
  | ⟨kind, children, span, tags⟩, hway => by
    have hparts := Element.searchIn?_eq_find? 0 children fun j q r d c m hd hc =>
      hway (j :: q) r c m (by simp) (Node.at?_cons_eq_some.2 ⟨d, hd, hc⟩)
    rw [Node.search?, Node.nodes, List.find?_cons, hparts]
    by_cases hwanted : wanted ⟨kind, children, span, tags⟩ = true
    · simp only [hwanted, if_true]
    · simp only [hwanted]
      rfl

theorem Element.search?_eq_find? : (e : Element) →
    (∀ (q r : Path) (d c m : Node), e = .node d → d.at? q = some c → c.at? r = some m → wanted m = true →
      enters c = true) →
    e.search? wanted enters = e.nodes.find? (wanted ·.2)
  | .token _, _ => rfl
  | .node n, hway => by
    rw [Element.search?, Element.nodes]
    split
    · exact n.search?_eq_find? fun q r c m _ => hway q r n c m rfl
    · rename_i henters
      refine (List.find?_eq_none.2 fun x hx hwanted => henters ?_).symm
      exact hway [] x.1 n n x.2 rfl rfl (Node.mem_nodes.1 hx) hwanted

theorem Element.searchIn?_eq_find? : (i : Nat) → (es : List Element) →
    (∀ (j : Nat) (q r : Path) (d c m : Node), es[j]? = some (.node d) → d.at? q = some c →
      c.at? r = some m → wanted m = true → enters c = true) →
    Element.searchIn? wanted enters i es = (Element.nodesIn i es).find? (wanted ·.2)
  | _, [], _ => rfl
  | i, e :: es, hway => by
    have hfirst := e.search?_eq_find? fun q r d c m he =>
      hway 0 q r d c m (congrArg some he)
    have hrest := Element.searchIn?_eq_find? (i + 1) es fun j q r d c m hd =>
      hway (j + 1) q r d c m hd
    rw [Element.searchIn?, Element.nodesIn, List.find?_append, hfirst, hrest, List.find?_map]
    simp only [Function.comp_def]
    cases e.nodes.find? (wanted ·.2) with
    | none => rfl
    | some found => rfl

end

end Search

theorem Tree.mem_sites_of_get? {t : Tree} {p : Path} {s : Site} (h : t.get? p = some s) :
    s ∈ t.sites :=
  (Site.goto?_mem (mem_sites_of_at? (Node.at?_nil t.root)) h).1

theorem Tree.findSpan?_mem {t : Tree} {kind : Kind} {S : Span} {s : Site}
    (h : t.findSpan? kind S = some s) : s ∈ t.sites ∧ s.kind = kind ∧ s.span = some S := by
  obtain ⟨⟨p, n⟩, hsearch, rfl⟩ := Option.map_eq_some_iff.1 h
  obtain ⟨hat, hwanted⟩ := Node.search?_sound hsearch
  simp only [Bool.and_eq_true, beq_iff_eq] at hwanted
  exact ⟨Tree.mem_sites_of_at? hat, hwanted.1, hwanted.2⟩

theorem Tree.findTagged?_mem {t : Tree} {tag : Tag} {s : Site} (h : t.findTagged? tag = some s) :
    s ∈ t.sites ∧ tag ∈ s.node.tags := by
  obtain ⟨⟨p, n⟩, hsearch, rfl⟩ := Option.map_eq_some_iff.1 h
  obtain ⟨hat, hwanted⟩ := Node.search?_sound hsearch
  exact ⟨Tree.mem_sites_of_at? hat, by simpa [Node.hasTag] using hwanted⟩

end Recast
