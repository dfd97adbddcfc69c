-- SUMMARY: A node that is put in the place of another one, and for every edit of a tree the node that it puts at a path.
import Recast.Proofs.Grammar.Lossless
import Recast.Proofs.Tree.Sites
import Recast.Tree.Edit

/-! # Nodes that are put

All edits of a tree come down to one thing: at the end of a path, another node takes the place of
the one that stands there (`Node.Put`). What is put below a node makes another node of it
(`Node.Put.split`), so a change of a part and one of the whole are one change of the whole
(`Tree.exists_put_around`). Each edit of a tree has a lemma that says what it puts where. -/

namespace Recast

/-! ## A node in the place of another -/

namespace Node

/-- The second node is the first with another one put at a path. -/
inductive Put (r : Node) : Path → Node → Node → Prop where
  | here (n : Node) : Put r [] n r
  | under {n c c' : Node} {i : Nat} {p : Path} (child : n.children[i]? = some (.node c))
      (rest : Put r p c c') : Put r (i :: p) n (n.withChildren (n.children.set i (.node c')))

theorem getElem?_set_child {n c c' : Node} {i : Nat} (hc : n.children[i]? = some (.node c)) :
    (n.children.set i (.node c'))[i]? = some (.node c') := by
  have hlt : i < n.children.length := (List.getElem?_eq_some_iff.1 hc).1
  rw [List.getElem?_set_self hlt]

variable {r r' n n' n'' u u' : Node} {p q : Path}

theorem Put.eq_of_nil (h : Put r [] n n') : n' = r := by
  cases h with
  | here => rfl

theorem Put.top_eq (h : Put r p n n') (hp : p ≠ []) : n'.kind = n.kind ∧ n'.tags = n.tags := by
  cases h with
  | here => exact absurd rfl hp
  | under child rest => exact ⟨rfl, rfl⟩

theorem Put.at? (h : Put r p n n') : n'.at? p = some r := by
  induction h with
  | here n => rfl
  | under child rest ih => exact at?_cons_eq_some.2 ⟨_, getElem?_set_child child, ih⟩

theorem Put.trans (h : Put r p n n') (h' : Put r' p n' n'') : Put r' p n n'' := by
  induction h generalizing n'' with
  | here n =>
    cases h' with
    | here => exact .here n
  | @under n c c' i p child rest ih =>
    cases h' with
    | @under _ d d' _ _ child' rest' =>
      obtain rfl : c' = d := by
        have hself : (n.children.set i (.node c'))[i]? = some (.node c') := getElem?_set_child child
        have heq := hself.symm.trans child'
        simpa using heq
      have hset : (n.withChildren (n.children.set i (.node c'))).withChildren
          ((n.withChildren (n.children.set i (.node c'))).children.set i (.node d')) =
          n.withChildren (n.children.set i (.node d')) := by
        simp [withChildren]
      rw [hset]
      exact .under child (ih rest')

/-- A node put below another one is part of what is put in the place of that one. -/
theorem Put.split (h : Put r (p ++ q) n n') :
    ∃ u u', n.at? p = some u ∧ Put r q u u' ∧ Put u' p n n' := by
  induction p generalizing n n' with
  | nil => exact ⟨n, n', rfl, h, .here n⟩
  | cons i p ih =>
    cases h with
    | under child rest =>
      obtain ⟨u, u', hat, hput, hput'⟩ := ih rest
      exact ⟨u, u', at?_cons_eq_some.2 ⟨_, child, hat⟩, hput, .under child hput'⟩

/-- The nodes on the way to the place are still there. -/
theorem Put.exists_at? (h : Put r (p ++ q) n n') : ∃ m, n'.at? p = some m := by
  obtain ⟨u, u', -, -, hput⟩ := h.split
  exact ⟨u', hput.at?⟩

/-- The converse of `Put.split`. -/
theorem Put.join (hat : n.at? p = some u) (hinner : Put r q u u') (houter : Put u' p n n') :
    Put r (p ++ q) n n' := by
  induction p generalizing n n' with
  | nil =>
    obtain rfl := Option.some.inj hat
    rw [houter.eq_of_nil]
    exact hinner
  | cons i p ih =>
    cases houter with
    | @under _ c c' _ _ child rest =>
      obtain ⟨d, hd, hat⟩ := at?_cons_eq_some.1 hat
      obtain rfl : c = d := by simpa [child] using hd
      exact .under child (ih hat rest)

theorem modifyAt_eq_ok {ε : Type} {missing : ε} {f : Node → Except ε Node}
    (h : modifyAt missing f p n = .ok n') :
    ∃ m m', n.at? p = some m ∧ f m = .ok m' ∧ Put m' p n n' := by
  induction p generalizing n n' with
  | nil => exact ⟨n, n', rfl, h, .here n⟩
  | cons i p ih =>
    rw [modifyAt] at h
    split at h
    · rename_i c hc
      obtain ⟨c', hc', h⟩ := ok_of_bind h
      obtain rfl := Except.ok.inj h
      obtain ⟨m, m', hat, hf, hput⟩ := ih hc'
      exact ⟨m, m', at?_cons_eq_some.2 ⟨c, hc, hat⟩, hf, .under hc hput⟩
    · cases h

theorem exists_modifyAt {ε : Type} {missing : ε} {f : Node → Except ε Node} {m m' : Node}
    (hat : n.at? p = some m) (hf : f m = .ok m') : ∃ n', modifyAt missing f p n = .ok n' := by
  induction p generalizing n with
  | nil =>
    obtain rfl := Option.some.inj hat
    exact ⟨m', hf⟩
  | cons i p ih =>
    obtain ⟨c, hc, hat⟩ := at?_cons_eq_some.1 hat
    obtain ⟨c', hc'⟩ := ih hat
    exact ⟨_, by rw [modifyAt, hc]; simp only [hc']; rfl⟩

/-- The token next to a node stands in a part of something that the node stands in. -/
theorem adjacentSlot?_isPrefix {side : Side} {j : Nat}
    (h : n.adjacentSlot? side p = some (q, j)) : ∃ r, p = q ++ r := by
  induction p generalizing n q j with
  | nil => cases h
  | cons i p ih =>
    rw [adjacentSlot?] at h
    split at h
    · rename_i c hc
      cases hdeeper : c.adjacentSlot? side p with
      | some found =>
        rw [hdeeper] at h
        obtain ⟨rfl, -⟩ := Prod.mk.inj (Option.some.inj h)
        obtain ⟨r, rfl⟩ := ih hdeeper
        exact ⟨r, rfl⟩
      | none =>
        rw [hdeeper] at h
        obtain ⟨k, -, hk⟩ := Option.map_eq_some_iff.1 h
        obtain ⟨rfl, -⟩ := Prod.mk.inj hk
        exact ⟨i :: p, rfl⟩
    · obtain ⟨k, -, hk⟩ := Option.map_eq_some_iff.1 h
      obtain ⟨rfl, -⟩ := Prod.mk.inj hk
      exact ⟨i :: p, rfl⟩

end Node

theorem Path.eq_of_parent? {p q : Path} {i : Nat} (hparent : p.parent? = some q)
    (hindex : p.index? = some i) : p = q ++ [i] := by
  rcases List.eq_nil_or_concat' p with rfl | ⟨p, j, rfl⟩
  · cases hparent
  · rw [Path.parent?_child] at hparent
    obtain rfl := Option.some.inj hparent
    obtain rfl : j = i := by simpa [Path.index?] using hindex
    rfl

/-! ## Edits of trees -/

namespace Tree

variable {t t' w : Tree} {p q : Path} {m e : Node}

/-- A node that is not the root stands in a parent. -/
theorem exists_parent (hp : p ≠ []) (hat : t.root.at? p = some m) :
    ∃ q i u, p = q ++ [i] ∧ p.parent? = some q ∧ p.index? = some i ∧ t.root.at? q = some u ∧
      u.children[i]? = some (.node m) := by
  obtain ⟨q, i, rfl⟩ := (List.eq_nil_or_concat' p).resolve_left hp
  rw [Node.at?_append] at hat
  obtain ⟨u, hu, hat⟩ := Option.bind_eq_some_iff.1 hat
  obtain ⟨c, hc, hat⟩ := Node.at?_cons_eq_some.1 hat
  obtain rfl := Option.some.inj hat
  exact ⟨q, i, u, rfl, Path.parent?_child q i, by simp [Path.index?], hu, hc⟩

section Updates

variable {ε : Type} {ofTree : TreeError → ε} {f : Node → Except ε Node}

theorem tryUpdate_eq_ok (h : t.tryUpdate ofTree p f = .ok t') :
    t.root.modifyAt (ofTree (.invalidPath p)) f p = .ok t'.root := by
  rw [tryUpdate] at h
  generalize t.root.modifyAt (ofTree (.invalidPath p)) f p = x at h
  cases x with
  | error e => cases h
  | ok root =>
    obtain rfl := Except.ok.inj h
    rfl

theorem exists_tryUpdate {m' : Node} (hat : t.root.at? p = some m) (hf : f m = .ok m') :
    ∃ t', t.tryUpdate ofTree p f = .ok t' := by
  obtain ⟨root, hroot⟩ := @Node.exists_modifyAt t.root p ε (ofTree (.invalidPath p)) f _ _ hat hf
  exact ⟨t.withRoot root, by rw [tryUpdate, hroot]; rfl⟩

theorem put_of_tryUpdate (h : t.tryUpdate ofTree p f = .ok t') :
    ∃ m m', t.root.at? p = some m ∧ f m = .ok m' ∧ Node.Put m' p t.root t'.root :=
  Node.modifyAt_eq_ok (tryUpdate_eq_ok h)

/-- An update of a node that is known puts there what it makes of the node. -/
theorem exists_put_of_tryUpdate (hat : t.root.at? p = some m)
    (h : t.tryUpdate ofTree p f = .ok t') :
    ∃ m', f m = .ok m' ∧ Node.Put m' p t.root t'.root := by
  obtain ⟨u, u', hu, hok, hput⟩ := put_of_tryUpdate h
  obtain rfl : m = u := Option.some.inj (hat.symm.trans hu)
  exact ⟨u', hok, hput⟩

/-- A change below a node and then one of the node itself are one change of the node. -/
theorem exists_put_around (hput : Node.Put e (p ++ q) t.root w.root)
    (h : w.tryUpdate ofTree p f = .ok t') :
    ∃ u u' u'', t.root.at? p = some u ∧ Node.Put e q u u' ∧ f u' = .ok u'' ∧
      Node.Put u'' p t.root t'.root := by
  obtain ⟨u, u', hu, hinner, houter⟩ := hput.split
  obtain ⟨u'', hok, hupdate⟩ := exists_put_of_tryUpdate houter.at? h
  exact ⟨u, u', u'', hu, hinner, hok, houter.trans hupdate⟩

end Updates

theorem put_of_update {f : Node → Node} (hat : t.root.at? p = some m)
    (h : t.update p f = .ok t') : Node.Put (f m) p t.root t'.root := by
  obtain ⟨m', hok, hput⟩ := exists_put_of_tryUpdate hat h
  obtain rfl := Except.ok.inj hok
  exact hput

/-- Nodes take the place of one. Only a single node can take the place of the root. -/
theorem replaceMany_eq_ok {rs : List Node} (hat : t.root.at? p = some m)
    (h : t.replaceMany p rs = .ok t') :
    p = [] ∧ rs = [t'.root] ∨ ∃ q i u, p = q ++ [i] ∧ t.root.at? q = some u ∧
      u.children[i]? = some (.node m) ∧ Node.Put (u.withChildren
        (u.children.take i ++ rs.map .node ++ u.children.drop (i + 1))) q t.root t'.root := by
  rcases eq_or_ne p [] with rfl | hp
  · refine .inl ⟨rfl, ?_⟩
    simp only [replaceMany, Path.parent?] at h
    split at h
    · obtain rfl := Except.ok.inj h
      rfl
    · cases h
  · obtain ⟨q, i, u, rfl, hparent, hindex, hu, hc⟩ := exists_parent hp hat
    simp only [replaceMany, hparent, hindex] at h
    obtain ⟨u', hok, hput⟩ := exists_put_of_tryUpdate hu h
    simp only [hc] at hok
    obtain rfl := Except.ok.inj hok
    exact .inr ⟨q, i, u, rfl, hu, hc, hput⟩

theorem exists_replace (hat : t.root.at? p = some m) (r : Node) : ∃ t', t.replace p r = .ok t' := by
  rcases eq_or_ne p [] with rfl | hp
  · exact ⟨_, rfl⟩
  · obtain ⟨q, i, u, rfl, hparent, hindex, hu, hc⟩ := exists_parent hp hat
    simp only [replace, replaceMany, hparent, hindex]
    exact exists_tryUpdate hu (by simp only [hc]; rfl)

theorem put_of_replace {r : Node} (hat : t.root.at? p = some m) (h : t.replace p r = .ok t') :
    Node.Put r p t.root t'.root := by
  obtain ⟨rfl, hroot⟩ | ⟨q, i, u, rfl, hu, hc, hput⟩ := replaceMany_eq_ok hat h
  · obtain ⟨rfl, -⟩ := List.cons.inj hroot
    exact .here _
  · have hlt : i < u.children.length := (List.getElem?_eq_some_iff.1 hc).1
    rw [List.map_singleton, List.append_assoc, List.singleton_append,
      ← List.set_eq_take_cons_drop _ hlt] at hput
    exact .join hu (.under hc (.here m)) hput

/-- Parts come in front of a child, or behind the last one. -/
theorem insert_eq_ok {i : Nat} {parts : List Element} (h : t.insert p i parts = .ok t') :
    ∃ u, t.root.at? p = some u ∧ i ≤ u.children.length ∧ Node.Put (u.withChildren
      (u.children.take i ++ parts ++ u.children.drop i)) p t.root t'.root := by
  obtain ⟨u, u', hu, hok, hput⟩ := put_of_tryUpdate h
  split at hok
  · cases hok
  · rename_i hi
    obtain rfl := Except.ok.inj hok
    exact ⟨u, hu, Nat.not_lt.1 hi, hput⟩

/-- A token next to a node changes in something that the node stands in, or there is no such
    token. -/
theorem updateNear_eq_ok {side : Node.Side} {f : Token → Token} (hat : t.root.at? p = some m)
    (h : t.updateNear side p f = .ok t') :
    t' = t ∨ ∃ q r j u, p = q ++ r ∧ t.root.at? q = some u ∧ u.at? r = some m ∧
      Node.Put (u.modifyNear side f j) q t.root t'.root := by
  rw [updateNear] at h
  split at h
  · exact .inl (Except.ok.inj h).symm
  · rename_i q j hslot
    obtain ⟨-, -, hslot⟩ := Option.bind_eq_some_iff.1 hslot
    obtain ⟨r, rfl⟩ := Node.adjacentSlot?_isPrefix hslot
    rw [Node.at?_append] at hat
    obtain ⟨u, hu, hat⟩ := Option.bind_eq_some_iff.1 hat
    exact .inr ⟨q, r, j, u, rfl, hu, hat, put_of_update hu h⟩

/-- Trivia goes in front of the token after a node, or behind the token before it, or nowhere. -/
theorem handOver_eq_ok {removed : Node} {option : RemoveOption}
    (h : t.handOver p removed option = .ok t') :
    t' = t ∨
    t.updateNear .after p (fun u => { u with leading := removed.leading ++ u.leading }) = .ok t' ∨
    ∃ trailing : Token → List Trivia,
      t.updateNear .before p (fun u => { u with trailing := trailing u }) = .ok t' := by
  cases option with
  | dropTrivia => exact .inl (Except.ok.inj h).symm
  | keepLeading =>
    simp only [handOver] at h
    split at h
    · exact .inl (Except.ok.inj h).symm
    · exact .inr (.inl h)
  | keepTrailing =>
    simp only [handOver] at h
    split at h
    · have hsame : (fun u : Token => if Trivia.hasLineEnd u.trailing then u else
          { u with trailing := u.trailing ++ removed.trailing.dropWhile Trivia.isWhitespace }) =
          fun u => { u with trailing := if Trivia.hasLineEnd u.trailing then u.trailing
            else u.trailing ++ removed.trailing.dropWhile Trivia.isWhitespace } := by
        funext u
        by_cases hend : Trivia.hasLineEnd u.trailing = true <;> simp [hend]
      rw [hsame] at h
      exact .inr (.inr ⟨_, h⟩)
    · exact .inl (Except.ok.inj h).symm

/-- A node hands over its trivia, and then its place goes from its parent. -/
theorem exists_at?_of_remove {option : RemoveOption} (h : t.remove p option = .ok t') :
    ∃ m, t.root.at? p = some m := by
  unfold remove at h
  split at h
  · split at h
    · cases h
    · rename_i m hat
      exact ⟨m, hat⟩
  · cases h

/-- A node hands over its trivia, and then its place goes from its parent. -/
theorem remove_eq_ok {option : RemoveOption} (hat : t.root.at? p = some m)
    (h : t.remove p option = .ok t') :
    ∃ q i w u, p = q ++ [i] ∧ t.handOver p m option = .ok w ∧ w.root.at? q = some u ∧
      Node.Put (u.withChildren (u.children.eraseIdx i)) q w.root t'.root := by
  rcases eq_or_ne p [] with rfl | hp
  · cases h
  · obtain ⟨q, i, -, rfl, hparent, hindex, -, -⟩ := exists_parent hp hat
    simp only [remove, hparent, hindex, hat] at h
    obtain ⟨w, hw, h⟩ := ok_of_bind h
    obtain ⟨u, u', hu, hok, hput⟩ := put_of_tryUpdate h
    obtain rfl := Except.ok.inj hok
    exact ⟨q, i, w, u, rfl, hw, hu, hput⟩

/-- An item goes from its list, with a comma. -/
theorem removeItem_eq_ok (h : t.removeItem p = .ok t') :
    ∃ q i u, p = q ++ [i] ∧ t.root.at? q = some u ∧ i < u.children.length ∧
      Node.Put (u.withChildren (dropItem i u.children)) q t.root t'.root := by
  unfold removeItem at h
  split at h
  · rename_i q i hparent hindex
    obtain ⟨u, u', hu, hok, hput⟩ := put_of_tryUpdate h
    split at hok
    · cases hok
    · rename_i hi
      obtain rfl := Except.ok.inj hok
      exact ⟨q, i, u, Path.eq_of_parent? hparent hindex, hu, Nat.not_le.1 hi, hput⟩
  · cases h

theorem put_of_removeItem {i : Nat} (hat : t.root.at? q = some m)
    (h : t.removeItem (q ++ [i]) = .ok t') :
    Node.Put (m.withChildren (dropItem i m.children)) q t.root t'.root := by
  obtain ⟨q', i', u, hpath, hu, -, hput⟩ := removeItem_eq_ok h
  obtain ⟨rfl, hi⟩ := List.append_inj' hpath rfl
  obtain rfl : i = i' := by simpa using hi
  obtain rfl : m = u := Option.some.inj (hat.symm.trans hu)
  exact hput

end Tree

end Recast
