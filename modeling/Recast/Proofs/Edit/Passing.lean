-- SUMMARY: A change of a node passes on the directives that stand outside some inroads; how such changes are put together from changes of parts, of trivia and of nodes below.
import Recast.Proofs.Edit.Inroads

/-! # Passing on

Directives hang in front of tokens. A change of a node passes on the directives outside some inroads
when all of them are outside the same inroads after the change, in the same order, whatever the
place of the node and the loss that it stands in (`Node.Passes`). The nodes around it do not see the
change, so a change of a tree at a path passes on what the change there passes on
(`Node.Passes.put`). -/

namespace Recast

/-! ## Directives -/

/-- The directives of a run of trivia. -/
def Trivia.directivesOf (run : List Trivia) : List String :=
  (run.filter isDirective).map text

/-- The directives around a token. -/
def Token.directives (u : Token) : List String :=
  Trivia.directivesOf (u.leading ++ u.trailing)

/-- The directives in front of a token. -/
def Token.above (u : Token) : List String :=
  Trivia.directivesOf u.leading

/-- The directives of a node, in document order. -/
def Node.directives (n : Node) : List String :=
  n.tokens.flatMap Token.directives

@[simp] theorem Trivia.directivesOf_append (xs ys : List Trivia) :
    directivesOf (xs ++ ys) = directivesOf xs ++ directivesOf ys := by
  simp [directivesOf]

/-! ## The end of a file -/

namespace Element

/-- True for the token at the end of a file. -/
def isEnd : Element → Bool
  | .token u => u.kind == .endOfFile
  | .node _ => false

/-- The last part is the token at the end of a file. -/
def ClosedIn (es : List Element) : Prop :=
  (es.map isEnd).getLast? = some true

variable {xs ys : List Element} {g : Token → Token}

theorem ClosedIn.append_left (h : ClosedIn ys) (xs : List Element) : ClosedIn (xs ++ ys) := by
  unfold ClosedIn at h ⊢
  rw [List.map_append, List.getLast?_append, h]
  rfl

/-- What follows a node is closed with the whole. -/
theorem ClosedIn.after {i : Nat} {c : Node} (h : ClosedIn xs) (hc : xs[i]? = some (.node c)) :
    ClosedIn (xs.drop (i + 1)) := by
  obtain ⟨hlt, hget⟩ := List.getElem?_eq_some_iff.1 hc
  unfold ClosedIn at h ⊢
  rw [← List.take_append_drop i xs, List.drop_eq_getElem_cons hlt, hget, List.map_append,
    List.map_cons, List.getLast?_append, List.getLast?_cons] at h
  cases hlast : ((xs.drop (i + 1)).map isEnd).getLast? with
  | none => rw [hlast] at h; cases h
  | some e => rw [hlast] at h; exact h

theorem ClosedIn.set {i : Nat} {c : Node} (h : ClosedIn xs) (hc : xs[i]? = some (.node c))
    (e : Element) : ClosedIn (xs.set i e) := by
  rw [List.set_eq_take_append_cons_drop, if_pos (List.getElem?_eq_some_iff.1 hc).1,
    ← List.singleton_append, ← List.append_assoc]
  exact (h.after hc).append_left _

theorem isEnd_mapFirst (hword : Token.KeepsWord g) (e : Element) :
    (e.mapFirst g).isEnd = e.isEnd := by
  cases e with
  | token u => rw [mapFirst, isEnd, isEnd, (hword u).1]
  | node n => rfl

theorem isEnd_mapLast (hword : Token.KeepsWord g) (e : Element) :
    (e.mapLast g).isEnd = e.isEnd := by
  cases e with
  | token u => rw [mapLast, isEnd, isEnd, (hword u).1]
  | node n => rfl

theorem map_isEnd_mapFirstIn (hword : Token.KeepsWord g) (es : List Element) :
    (mapFirstIn g es).map isEnd = es.map isEnd := by
  induction es with
  | nil => rfl
  | cons e es ih =>
    rw [mapFirstIn]
    split
    · rw [List.map_cons, List.map_cons, isEnd_mapFirst hword]
    · rw [List.map_cons, List.map_cons, ih]

theorem map_isEnd_modify {h : Element → Element} (hh : ∀ e, (h e).isEnd = e.isEnd) (j : Nat)
    (es : List Element) : (es.modify j h).map isEnd = es.map isEnd := by
  refine List.ext_getElem? fun k => ?_
  rw [List.getElem?_map, List.getElem?_map, List.getElem?_modify]
  cases es[k]? with
  | none => rfl
  | some e =>
    by_cases hjk : j = k
    · simp [hjk, hh]
    · simp [hjk]

theorem ClosedIn.of_map (h : ClosedIn xs) (hmap : ys.map isEnd = xs.map isEnd) : ClosedIn ys := by
  unfold ClosedIn at h ⊢
  rw [hmap, h]

end Element

/-! ## Changes of parts -/

/-- As much is told of some parts after a change as before, with any neighbours. -/
def Element.TellsIn (i : Inroads) (reheaded : Bool) (loss : Loss) (xs ys : List Element) : Prop :=
  ∀ p : Place, p.reheaded = reheaded →
    (outsideIn Token.above i p loss xs).Sublist (outsideIn Token.above i p loss ys)

/-- Some parts are no more than they were to the commas beside them: where a child goes after a
    change, one went before. -/
structure Element.Shields (i : Inroads) (xs ys : List Element) : Prop where
  first : ∀ d, firstGoes i d ys = true → firstGoes i d xs = true
  last : ∀ d, lastGoes i d ys = true → lastGoes i d xs = true

/-- A change of the parts of a node passes on the directives outside some inroads. The other
    conditions say that the parts are no more than they were to what stands around them. -/
structure Element.PassesIn (i : Inroads) (reheaded : Bool) (xs ys : List Element) : Prop where
  outside : ∀ loss, TellsIn i reheaded loss xs ys
  shields : Shields i xs ys
  fills : ys.any fills = true → xs.any fills = true
  removed : ∀ kid ∈ kids ys, kid.Bears i.removed → ∃ kid ∈ kids xs, kid.Bears i.removed
  stays : ∀ kind, kind.isListing = true → ∀ kid ∈ kids xs, i.Stays kind kid →
    ∃ kid ∈ kids ys, i.Stays kind kid
  kids : kids xs = [] → kids ys = []

/-- A file that ends as files do and that nothing takes the place of. -/
structure Node.Closed (i : Inroads) (n : Node) : Prop where
  kind_eq : n.top.kind = .compilationUnit
  closed : Element.ClosedIn n.children
  kept : ¬(n.top.Bears i.replaced ∨ n.top.Bears i.renamed ∨ n.top.Bears i.gone)

/-- A change of a node passes on the directives outside some inroads. -/
structure Node.Passes (i : Inroads) (n n' : Node) : Prop where
  outside : ∀ p loss,
    (n.outside Token.above i p loss).Sublist (n'.outside Token.above i p loss)
  fills : (Element.node n').fills = true → (Element.node n).fills = true
  flank : ∀ d, i.flank d n'.top = true → i.flank d n.top = true
  stays : ∀ kind, kind.isListing = true → i.Stays kind n.top → i.Stays kind n'.top
  closed : n.Closed i → n'.Closed i

section

variable {i : Inroads} {p : Place} {reheaded : Bool} {loss : Loss}

theorem Node.Passes.removed {n n' : Node} (h : n.Passes i n') (hremoved : n'.top.Bears i.removed) :
    n.top.Bears i.removed := by
  simpa [Inroads.flank] using h.flank false (i.flank_of_bears hremoved false)

namespace Element

variable {xs ys zs xs' ys' : List Element} {e e' : Element}

theorem TellsIn.refl (xs : List Element) : TellsIn i reheaded loss xs xs :=
  fun _ _ => .refl _

theorem TellsIn.trans (h : TellsIn i reheaded loss xs ys) (h' : TellsIn i reheaded loss ys zs) :
    TellsIn i reheaded loss xs zs :=
  fun p hp => (h p hp).trans (h' p hp)

theorem TellsIn.append (h : TellsIn i reheaded loss xs xs')
    (h' : TellsIn i reheaded (past loss xs) ys ys') (hx : Shields i xs xs') (hy : Shields i ys ys')
    (hpast : past loss xs' ≤ past loss xs) :
    TellsIn i reheaded loss (xs ++ ys) (xs' ++ ys') := by
  intro p hp
  rw [outsideIn_append, outsideIn_append]
  refine ((h { p with after := firstGoes i p.after ys } hp).trans ?_).append
    ((h' { p with before := lastGoes i p.before xs } hp).trans ?_)
  · exact outsideIn_anti i.le_refl xs' ⟨id, id, hy.first p.after⟩ loss.le_refl
  · exact outsideIn_anti i.le_refl ys' ⟨id, hx.last p.before, id⟩ hpast

theorem TellsIn.single (h : ∀ p : Place, p.reheaded = reheaded →
    (e.outside Token.above i p loss).Sublist (e'.outside Token.above i p loss)) :
    TellsIn i reheaded loss [e] [e'] := by
  intro p hp
  rw [outsideIn_single, outsideIn_single]
  exact h p hp

theorem Shields.refl (xs : List Element) : Shields i xs xs :=
  ⟨fun _ => id, fun _ => id⟩

theorem Shields.trans (h : Shields i xs ys) (h' : Shields i ys zs) : Shields i xs zs :=
  ⟨fun d => h.first d ∘ h'.first d, fun d => h.last d ∘ h'.last d⟩

theorem Shields.append (h : Shields i xs xs') (h' : Shields i ys ys') :
    Shields i (xs ++ ys) (xs' ++ ys') where
  first d hfirst := by
    rw [firstGoes_append] at hfirst ⊢
    exact firstGoes_mono i.le_refl (h'.first d) xs (h.first _ hfirst)
  last d hlast := by
    rw [lastGoes_append] at hlast ⊢
    exact lastGoes_mono i.le_refl (h.last d) ys (h'.last _ hlast)

theorem Shields.single (h : ∀ d, flank i d e' = true → flank i d e = true) :
    Shields i [e] [e'] :=
  ⟨h, h⟩

theorem shields_of_blank (h : ys.map blank = xs.map blank) : Shields i xs ys where
  first d hfirst := by rwa [firstGoes_of_blank h] at hfirst
  last d hlast := by rwa [lastGoes_of_blank h] at hlast

/-- New parts that bear no tag are nothing to the commas beside them. -/
theorem shields_of_untagged (h : ∀ kid ∈ kids ys, kid.tags = []) : Shields i [] ys := by
  have hflank : ∀ e ∈ ys, ∀ d, flank i d e = true → d = true := by
    intro e he d hd
    cases e with
    | token u => exact hd
    | node n => exact Inroads.flank_of_untagged (h n.top (mem_kids.2 ⟨n, he, rfl⟩)) hd
  clear h
  induction ys with
  | nil => exact .refl []
  | cons e es ih =>
    have hrest := ih fun e he => hflank e (List.mem_cons_of_mem _ he)
    have he := hflank e (List.mem_cons_self ..)
    exact ⟨fun d hd => hrest.first d (he _ hd), fun d hd => he d (hrest.last _ hd)⟩

theorem PassesIn.refl (xs : List Element) : PassesIn i reheaded xs xs :=
  ⟨fun _ => .refl _, .refl _, id, fun kid hkid hgone => ⟨kid, hkid, hgone⟩,
    fun _ _ kid hkid hstays => ⟨kid, hkid, hstays⟩, id⟩

theorem PassesIn.trans (h : PassesIn i reheaded xs ys) (h' : PassesIn i reheaded ys zs) :
    PassesIn i reheaded xs zs where
  outside loss := (h.outside loss).trans (h'.outside loss)
  shields := h.shields.trans h'.shields
  fills hzs := h.fills (h'.fills hzs)
  removed kid hkid hgone := by
    obtain ⟨kid, hkid, hgone⟩ := h'.removed kid hkid hgone
    exact h.removed kid hkid hgone
  stays kind hkind kid hkid hstays := by
    obtain ⟨kid, hkid, hstays⟩ := h.stays kind hkind kid hkid hstays
    exact h'.stays kind hkind kid hkid hstays
  kids hxs := h'.kids (h.kids hxs)

theorem PassesIn.append (h : PassesIn i reheaded xs xs') (h' : PassesIn i reheaded ys ys') :
    PassesIn i reheaded (xs ++ ys) (xs' ++ ys') where
  outside loss := (h.outside loss).append (h'.outside _) h.shields h'.shields
    (past_mono loss.le_refl h.fills)
  shields := h.shields.append h'.shields
  fills hfills := by
    rw [List.any_append, Bool.or_eq_true] at hfills ⊢
    exact hfills.imp h.fills h'.fills
  removed kid hkid hgone := by
    rw [kids_append, List.mem_append] at hkid
    rcases hkid with hkid | hkid
    · obtain ⟨kid, hkid, hgone⟩ := h.removed kid hkid hgone
      exact ⟨kid, by simp [hkid], hgone⟩
    · obtain ⟨kid, hkid, hgone⟩ := h'.removed kid hkid hgone
      exact ⟨kid, by simp [hkid], hgone⟩
  stays kind hkind kid hkid hstays := by
    rw [kids_append, List.mem_append] at hkid
    rcases hkid with hkid | hkid
    · obtain ⟨kid, hkid, hstays⟩ := h.stays kind hkind kid hkid hstays
      exact ⟨kid, by simp [hkid], hstays⟩
    · obtain ⟨kid, hkid, hstays⟩ := h'.stays kind hkind kid hkid hstays
      exact ⟨kid, by simp [hkid], hstays⟩
  kids hnone := by
    rw [kids_append, List.append_eq_nil_iff] at hnone ⊢
    exact ⟨h.kids hnone.1, h'.kids hnone.2⟩

/-- A stretch of parts gives way to another. -/
theorem PassesIn.splice (h : PassesIn i reheaded xs ys) (before after : List Element) :
    PassesIn i reheaded (before ++ xs ++ after) (before ++ ys ++ after) :=
  ((refl before).append h).append (refl after)

theorem PassesIn.node {c c' : Node} (h : c.Passes i c') :
    PassesIn i reheaded [.node c] [.node c'] where
  outside loss := .single fun p _ => h.outside p loss
  shields := .single h.flank
  fills hfills := by
    rw [List.any_cons, List.any_nil, Bool.or_false] at hfills ⊢
    exact h.fills hfills
  removed kid hkid hgone := by
    obtain rfl := List.mem_singleton.1 hkid
    exact ⟨c.top, List.mem_singleton_self _, h.removed hgone⟩
  stays kind hkind kid hkid hstays := by
    obtain rfl := List.mem_singleton.1 hkid
    exact ⟨c'.top, List.mem_singleton_self _, h.stays kind hkind hstays⟩
  kids hnone := by cases hnone

/-- The parts around one of them. -/
theorem split_at {xs : List Element} {j : Nat} {e : Element} (he : xs[j]? = some e) :
    xs = xs.take j ++ [e] ++ xs.drop (j + 1) := by
  obtain ⟨hlt, rfl⟩ := List.getElem?_eq_some_iff.1 he
  rw [List.append_assoc, List.singleton_append, ← List.drop_eq_getElem_cons hlt,
    List.take_append_drop]

theorem passesIn_set {j : Nat} {c c' : Node} (hc : xs[j]? = some (.node c)) (h : c.Passes i c') :
    PassesIn i reheaded xs (xs.set j (.node c')) := by
  have hsplice : PassesIn i reheaded _ _ := (PassesIn.node h).splice (xs.take j) (xs.drop (j + 1))
  rw [List.set_eq_take_append_cons_drop, if_pos (List.getElem?_eq_some_iff.1 hc).1]
  rwa [← split_at hc, List.append_assoc, List.singleton_append] at hsplice

/-- Trivia alone changes, and the directives in front of tokens stay. -/
theorem passesIn_of_blank (hblank : ys.map blank = xs.map blank)
    (houtside : ∀ loss, TellsIn i reheaded loss xs ys) : PassesIn i reheaded xs ys where
  outside := houtside
  shields := shields_of_blank hblank
  fills hfills := by rwa [← any_fills_of_blank hblank]
  removed kid hkid hgone := ⟨kid, by rwa [← kids_of_blank hblank], hgone⟩
  stays _ _ kid hkid hstays := ⟨kid, by rwa [kids_of_blank hblank], hstays⟩
  kids hnone := by rwa [kids_of_blank hblank]

theorem passesIn_modify {h : Element → Element} (hblank : ∀ e, (h e).blank = e.blank)
    (houtside : ∀ (e : Element) p loss,
      (e.outside Token.above i p loss).Sublist ((h e).outside Token.above i p loss))
    (j : Nat) (xs : List Element) : PassesIn i reheaded xs (xs.modify j h) := by
  by_cases hlt : j < xs.length
  · have hone : PassesIn i reheaded [xs[j]] [h xs[j]] := by
      refine passesIn_of_blank ?_ fun loss => .single fun p _ => houtside _ p loss
      rw [List.map_singleton, List.map_singleton, hblank]
    have hsplice := hone.splice (xs.take j) (xs.drop (j + 1))
    rw [List.modify_eq_take_cons_drop hlt]
    rwa [← split_at (List.getElem?_eq_getElem hlt), List.append_assoc,
      List.singleton_append] at hsplice
  · rw [List.modify_eq_self (Nat.not_lt.1 hlt)]
    exact .refl xs

theorem passesIn_modify_mapLast {g : Token → Token} (hword : Token.KeepsWord g)
    (hg : ∀ u, (g u).above = u.above) (j : Nat) (xs : List Element) :
    PassesIn i reheaded xs (xs.modify j (·.mapLast g)) := by
  refine passesIn_modify (blank_mapLast g) (fun e p loss => ?_) j xs
  rw [e.outside_mapLast hword hg]

theorem passesIn_modify_mapFirst {g : Token → Token} (hword : Token.KeepsWord g)
    (hg : ∀ u : Token, u.above.Sublist (g u).above) (j : Nat) (xs : List Element) :
    PassesIn i reheaded xs (xs.modify j (·.mapFirst g)) :=
  passesIn_modify (blank_mapFirst g)
    (fun e p loss => e.outside_mapFirst hword (l := []) p loss fun u _ => hg u) j xs

/-- Parts without tags are put behind a node that fills its place. -/
theorem passesIn_behind {new : List Element} (he : e.fills = true) (hkids : kids [e] ≠ [])
    (hnew : ∀ kid ∈ kids new, kid.tags = []) : PassesIn i reheaded [e] (e :: new) where
  outside loss p _ := by
    rw [outsideIn_single, outsideIn_cons]
    have hplace : ({ p with after := firstGoes i p.after new } : Place) ≤ p :=
      ⟨id, id, (shields_of_untagged hnew).first p.after⟩
    exact (e.outside_anti i.le_refl hplace loss.le_refl).trans (List.sublist_append_left _ _)
  shields := by
    have happend := (Shields.refl (i := i) [e]).append (shields_of_untagged hnew)
    rwa [List.append_nil] at happend
  fills _ := by rw [List.any_cons, he]; rfl
  removed kid hkid hbears := by
    rw [← List.singleton_append, kids_append, List.mem_append] at hkid
    rcases hkid with hkid | hkid
    · exact ⟨kid, hkid, hbears⟩
    · exact absurd hbears (Top.not_bears (hnew kid hkid))
  stays _ _ kid hkid hstays := by
    refine ⟨kid, ?_, hstays⟩
    rw [← List.singleton_append, kids_append]
    exact List.mem_append_left _ hkid
  kids hnone := absurd hnone hkids

/-- Parts of which nothing is told give way to none. -/
theorem passesIn_nil (hlost : ∀ p loss, outsideIn Token.above i p loss xs = [])
    (hshields : Shields i xs [])
    (hleave : ∀ kind, kind.isListing = true → ∀ kid ∈ kids xs, ¬i.Stays kind kid) :
    PassesIn i reheaded xs [] where
  outside loss p _ := by
    rw [hlost]
    exact List.nil_sublist _
  shields := hshields
  fills hfills := by cases hfills
  removed _ hkid := by cases hkid
  stays kind hkind kid hkid hstays := absurd hstays (hleave kind hkind kid hkid)
  kids _ := rfl

end Element

namespace Node

variable {n n' n'' m r : Node}

theorem Closed.of_top (h : n.Closed i) (htop : n'.top = n.top)
    (hclosed : Element.ClosedIn n'.children) : n'.Closed i := by
  refine ⟨?_, hclosed, ?_⟩
  · rw [htop]
    exact h.kind_eq
  · rw [htop]
    exact h.kept

theorem Passes.refl (n : Node) : n.Passes i n :=
  ⟨fun _ _ => .refl _, id, fun _ => id, fun _ _ => id, id⟩

theorem Passes.trans (h : n.Passes i n') (h' : n'.Passes i n'') : n.Passes i n'' :=
  ⟨fun p loss => (h.outside p loss).trans (h'.outside p loss), h.fills ∘ h'.fills,
    fun d => h.flank d ∘ h'.flank d, fun kind hkind => h'.stays kind hkind ∘ h.stays kind hkind,
    h'.closed ∘ h.closed⟩

/-- Other parts, of which as much is told wherever no more of them is lost. -/
theorem outside_sublist_of_parts {p : Place} {loss : Loss} (htop : n'.top = n.top)
    (hdrops : i.Drops p n.top (Element.kids n'.children) →
      i.Drops p n.top (Element.kids n.children))
    (houtside : let within := i.within p loss n.top (Element.kids n.children)
      (Element.outsideIn Token.above i (i.place n.top) within n.children).Sublist
        (Element.outsideIn Token.above i (i.place n.top) within n'.children)) :
    (n.outside Token.above i p loss).Sublist (n'.outside Token.above i p loss) := by
  rw [n.outside_eq, n'.outside_eq, htop]
  exact houtside.trans
    (Element.outsideIn_anti i.le_refl _ (Place.le_refl _) (i.within_le_of_drops hdrops))

/-- Other parts that pass on what stands outside. -/
theorem passes_of_parts (htop : n'.top = n.top)
    (h : Element.PassesIn i (i.place n.top).reheaded n.children n'.children)
    (hclosed : Element.ClosedIn n.children → Element.ClosedIn n'.children) : n.Passes i n' where
  outside p loss := by
    refine outside_sublist_of_parts htop ?_ (h.outside _ _ rfl)
    rintro (hgone | ⟨hlisting, ⟨kid, hkid, hgone⟩, hnone⟩ | ⟨hreheaded, hkind, hkids⟩)
    · exact .inl hgone
    · refine .inr (.inl ⟨hlisting, h.removed kid hkid hgone, ?_⟩)
      rintro ⟨kid, hkid, hstays⟩
      exact hnone (h.stays _ hlisting kid hkid hstays)
    · exact .inr (.inr ⟨hreheaded, hkind, fun hnone => hkids (h.kids hnone)⟩)
  fills hfills := by
    rw [Element.fills_node, Bool.or_eq_true] at hfills ⊢
    rw [show n'.tags = n.tags from congrArg Top.tags htop] at hfills
    exact hfills.imp_right h.fills
  flank d hflank := by rwa [htop] at hflank
  stays _ _ hstays := by rwa [htop]
  closed hn := hn.of_top htop (hclosed hn.closed)

/-- The nodes around a place pass on what is passed on there. -/
theorem Put.passes {p : Path} (hput : Put r p n n') (hat : n.at? p = some m) (h : m.Passes i r) :
    n.Passes i n' := by
  induction hput with
  | here n =>
    obtain rfl := Option.some.inj hat
    exact h
  | @under n c c' j p child rest ih =>
    obtain ⟨d, hd, hat⟩ := at?_cons_eq_some.1 hat
    obtain rfl : c = d := by simpa [child] using hd
    exact passes_of_parts rfl (Element.passesIn_set child (ih hat)) fun hclosed =>
      hclosed.set child _

/-- Parts without tags are put behind a node that fills its place. -/
theorem passes_behind {j : Nat} {parts : List Element} (hc : n.children[j]? = some (.node m))
    (hfills : (Element.node m).fills = true)
    (hparts : ∀ kid ∈ Element.kids parts, kid.tags = []) :
    n.Passes i (n.withChildren (n.children.take (j + 1) ++ parts ++ n.children.drop (j + 1))) := by
  have hsplit : n.children.take (j + 1) ++ parts ++ n.children.drop (j + 1) =
      n.children.take j ++ .node m :: parts ++ n.children.drop (j + 1) := by
    obtain ⟨hlt, hget⟩ := List.getElem?_eq_some_iff.1 hc
    rw [List.take_succ_eq_append_getElem hlt, hget, List.append_assoc (n.children.take j),
      List.singleton_append]
  refine passes_of_parts rfl ?_ fun hclosed => (hclosed.after hc).append_left _
  have hbehind : Element.PassesIn i (i.place n.top).reheaded [.node m] (.node m :: parts) :=
    Element.passesIn_behind hfills (List.cons_ne_nil _ _) hparts
  have hsplice := hbehind.splice (n.children.take j) (n.children.drop (j + 1))
  rwa [← Element.split_at hc, ← hsplit] at hsplice

theorem passes_mapFirst {g : Token → Token} (hword : Token.KeepsWord g)
    (hg : ∀ u ∈ n.tokens.head?, u.above.Sublist (g u).above) : n.Passes i (n.mapFirst g) where
  outside p loss := n.outside_mapFirst hword (l := []) p loss hg
  fills hfills := by
    have hblank : (Element.node (n.mapFirst g)).blank = (Element.node n).blank :=
      (Element.node n).blank_mapFirst g
    rwa [Element.fills_of_blank hblank] at hfills
  flank d hflank := by rwa [top_mapFirst] at hflank
  stays _ _ hstays := by rwa [top_mapFirst]
  closed hn := by
    refine hn.of_top (n.top_mapFirst g) (hn.closed.of_map ?_)
    obtain ⟨kind, children, span, tags⟩ := n
    exact Element.map_isEnd_mapFirstIn hword children

/-- Nothing is told of a node, wherever it stands, and no list has an item in it. -/
structure Lost (i : Inroads) (n : Node) : Prop where
  outside : ∀ p loss, n.outside Token.above i p loss = []
  flank : i.flank true n.top = true
  leaves : ∀ kind, kind.isListing = true → ¬i.Stays kind n.top

theorem lost_of_removed (h : n.top.Bears i.removed) : n.Lost i := by
  have hgone : n.top.Bears i.gone := h.mono i.removed_subset_gone
  exact ⟨fun _ _ => outside_of_drops (.inl hgone), i.flank_of_bears h true,
    fun _ _ hstays => hstays.2.1 hgone⟩

theorem bars_of_isListing {kind child : Kind} (hkind : kind.isListing = true)
    (hchild : child.isListing = true) : kind.bars child = true := by
  have hlists : ∀ {k : Kind}, k.isListing = true → k = .attributeList ∨ k = .baseList := by
    intro k hk
    cases k <;> first | exact .inl rfl | exact .inr rfl | cases hk
  obtain rfl | rfl := hlists hkind <;> obtain rfl | rfl := hlists hchild <;> rfl

theorem lost_of_empties (h : i.Empties n.top (Element.kids n.children)) : n.Lost i := by
  refine ⟨fun _ _ => outside_of_drops (.inr (.inl h)), by simp [Inroads.flank, h.1],
    fun kind hkind hstays => ?_⟩
  rw [Inroads.Stays, bars_of_isListing hkind h.1] at hstays
  cases hstays.1

end Node

theorem Element.shields_lost {c : Node} (h : c.Lost i) : Shields i [.node c] [] := by
  have hflank : ∀ d, d = true → i.flank d c.top = true := by
    rintro d rfl
    exact h.flank
  exact ⟨hflank, hflank⟩

theorem Element.passesIn_lost {c : Node} (h : c.Lost i) : PassesIn i reheaded [.node c] [] := by
  refine passesIn_nil (fun p loss => ?_) (shields_lost h) fun kind hkind kid hkid => ?_
  · rw [outsideIn_single]
    exact h.outside p loss
  · obtain rfl := List.mem_singleton.1 hkid
    exact h.leaves kind hkind

end

/-! ## Edits of trees -/

/-- A change of the token next to a node that keeps the directives in front of that token. -/
def Node.Side.Keeps (g : Token → Token) : Node.Side → Prop
  | .before => Token.KeepsWord g ∧ ∀ u, (g u).above = u.above
  | .after => Token.KeepsWord g ∧ ∀ u : Token, u.above.Sublist (g u).above

namespace Tree

variable {i : Inroads} {t t' : Tree} {p : Path} {m : Node}

theorem passes_modifyNear {side : Node.Side} {g : Token → Token} (hg : side.Keeps g) (j : Nat)
    (n : Node) : n.Passes i (n.modifyNear side g j) := by
  cases side with
  | before =>
    obtain ⟨hword, habove⟩ := hg
    refine Node.passes_of_parts rfl (Element.passesIn_modify_mapLast hword habove j _) fun hclosed =>
      hclosed.of_map ?_
    exact Element.map_isEnd_modify (Element.isEnd_mapLast hword) j _
  | after =>
    obtain ⟨hword, habove⟩ := hg
    refine Node.passes_of_parts rfl (Element.passesIn_modify_mapFirst hword habove j _) fun hclosed =>
      hclosed.of_map ?_
    exact Element.map_isEnd_modify (Element.isEnd_mapFirst hword) j _

/-- The token next to a node gets other trivia on the side of the node; the node stays. -/
theorem passes_updateNear (side : Node.Side) {g : Token → Token} (hg : side.Keeps g)
    (hat : t.root.at? p = some m) (h : t.updateNear side p g = .ok t') :
    t.root.Passes i t'.root ∧ t'.root.at? p = some m := by
  obtain ⟨w, hw, hstays, -, -⟩ := around_updateNear side g hat
  obtain rfl : w = t' := Except.ok.inj (hw.symm.trans h)
  refine ⟨?_, hstays⟩
  obtain rfl | ⟨q, r, j, u, -, hu, -, hput⟩ := updateNear_eq_ok hat h
  · exact .refl _
  · exact hput.passes hu (passes_modifyNear hg j u)

theorem passes_handOver {removed : Node} {option : RemoveOption} (hat : t.root.at? p = some m)
    (h : t.handOver p removed option = .ok t') :
    t.root.Passes i t'.root ∧ t'.root.at? p = some m := by
  obtain rfl | h | ⟨trailing, h⟩ := handOver_eq_ok h
  · exact ⟨.refl _, hat⟩
  · refine passes_updateNear .after ⟨Token.keepsWord_leading _, fun u => ?_⟩ hat h
    simp only [Token.above, Trivia.directivesOf_append]
    exact List.sublist_append_right _ _
  · exact passes_updateNear .before ⟨Token.keepsWord_trailing trailing, fun _ => rfl⟩ hat h

theorem passes_eraseIdx {u c : Node} {j : Nat} (hc : u.children[j]? = some (.node c))
    (hlost : c.Lost i) : u.Passes i (u.withChildren (u.children.eraseIdx j)) := by
  refine Node.passes_of_parts rfl ?_ fun hclosed => ?_
  · have hold : Element.PassesIn i (i.place u.top).reheaded [.node c] [] :=
      Element.passesIn_lost hlost
    have hsplice := hold.splice (u.children.take j) (u.children.drop (j + 1))
    rwa [← Element.split_at hc, List.append_nil, ← List.eraseIdx_eq_take_drop_succ] at hsplice
  · rw [Node.withChildren, List.eraseIdx_eq_take_drop_succ]
    exact (hclosed.after hc).append_left _

/-- A node that is lost goes. -/
theorem passes_remove {option : RemoveOption} (hat : t.root.at? p = some m) (hlost : m.Lost i)
    (h : t.remove p option = .ok t') : t.root.Passes i t'.root := by
  obtain ⟨q, j, w, u, rfl, hw, hu, hput⟩ := remove_eq_ok hat h
  obtain ⟨hpasses, hat'⟩ := passes_handOver hat hw
  rw [Node.at?_append, hu] at hat'
  obtain ⟨c, hc, hat'⟩ := Node.at?_cons_eq_some.1 hat'
  obtain rfl : c = m := Option.some.inj hat'
  exact hpasses.trans (hput.passes hu (passes_eraseIdx hc hlost))

/-- A child that goes with a comma beside it. -/
theorem passesIn_withComma {reheaded : Bool} {c : Node} {u : Token} {es : List Element}
    (hes : es = [.node c, .token u] ∨ es = [.token u, .node c])
    (hremoved : c.top.Bears i.removed) (hu : u.is "," = true) :
    Element.PassesIn i reheaded es [] := by
  have hlost := Node.lost_of_removed hremoved
  have hflank := i.flank_of_bears hremoved
  refine Element.passesIn_nil (fun p loss => ?_) ?_ ?_
  · rcases hes with rfl | rfl
    · rw [Element.outsideIn_cons, Element.outsideIn_single, Element.outside_node, hlost.outside,
        Element.outside, if_pos (.inr ⟨by simp [Element.flank, hflank], hu⟩)]
      rfl
    · rw [Element.outsideIn_cons, Element.outsideIn_single, Element.outside_node, hlost.outside,
        Element.outside, if_pos (.inr ⟨by simp [Element.firstGoes, Element.flank, hflank], hu⟩)]
      rfl
  · rcases hes with rfl | rfl <;> exact ⟨fun d _ => hflank d, fun d _ => hflank d⟩
  · intro kind hkind kid hkid
    obtain rfl : kid = c.top := by rcases hes with rfl | rfl <;> simpa using hkid
    exact hlost.leaves kind hkind

/-- An item goes from a list, with its comma. -/
theorem passesIn_dropItem {reheaded : Bool} {xs : List Element} {j : Nat} {c : Node}
    (hc : xs[j]? = some (.node c)) (hremoved : c.top.Bears i.removed) :
    Element.PassesIn i reheaded xs (dropItem j xs) := by
  -- What goes is a stretch of parts of which nothing is told.
  have hdrop : ∀ {k l}, k ≤ l → Element.PassesIn i reheaded ((xs.take l).drop k) [] →
      Element.PassesIn i reheaded xs (xs.take k ++ xs.drop l) := by
    intro k l hkl hold
    have hsplice := hold.splice (xs.take k) (xs.drop l)
    have hwhole : xs.take k ++ (xs.take l).drop k ++ xs.drop l = xs := by
      have htake : xs.take k = (xs.take l).take k := by rw [List.take_take, Nat.min_eq_left hkl]
      rw [htake, List.take_append_drop, List.take_append_drop]
    rwa [hwhole, List.append_nil] at hsplice
  obtain ⟨hlt, hget⟩ := List.getElem?_eq_some_iff.1 hc
  simp only [dropItem]
  split
  · rename_i hcomma
    obtain ⟨u, hu⟩ := Observer.isToken_of_map hcomma
    rw [hu] at hcomma
    obtain ⟨hlt', hget'⟩ := List.getElem?_eq_some_iff.1 hu
    refine hdrop (by omega) ?_
    rw [List.drop_take, List.drop_eq_getElem_cons hlt, List.drop_eq_getElem_cons hlt', hget, hget']
    simp only [Nat.add_sub_cancel_left, List.take_succ_cons, List.take_zero]
    exact passesIn_withComma (.inl rfl) hremoved hcomma
  · split
    · rename_i hcomma
      rw [Bool.and_eq_true, decide_eq_true_eq] at hcomma
      obtain ⟨hpos, hcomma⟩ := hcomma
      obtain ⟨u, hu⟩ := Observer.isToken_of_map hcomma
      rw [hu] at hcomma
      obtain ⟨hlt', hget'⟩ := List.getElem?_eq_some_iff.1 hu
      have hrest : Element.PassesIn i reheaded xs (xs.take (j - 1) ++ xs.drop (j + 1)) := by
        refine hdrop (by omega) ?_
        have hj : j - 1 + 1 = j := by omega
        rw [List.drop_take, List.drop_eq_getElem_cons hlt', hj, List.drop_eq_getElem_cons hlt, hget,
          hget', show j + 1 - (j - 1) = 2 by omega]
        exact passesIn_withComma (.inr rfl) hremoved hcomma
      split
      · exact hrest
      · have hword := Token.keepsWord_trailing fun _ => (xs[j]?.map Element.trailing).getD []
        exact hrest.trans (Element.passesIn_modify_mapLast hword (fun _ => rfl) _ _)
    · rw [List.eraseIdx_eq_take_drop_succ]
      refine hdrop (by omega) ?_
      rw [List.drop_take, List.drop_eq_getElem_cons hlt, hget, Nat.add_sub_cancel_left]
      exact Element.passesIn_lost (Node.lost_of_removed hremoved)

/-- The end of a file is no comma, so it stays. -/
theorem closedIn_dropItem {xs : List Element} {j : Nat} {c : Node} (h : Element.ClosedIn xs)
    (hc : xs[j]? = some (.node c)) : Element.ClosedIn (dropItem j xs) := by
  have hafter := h.after hc
  simp only [dropItem]
  split
  · rename_i hcomma
    obtain ⟨u, hu⟩ := Observer.isToken_of_map hcomma
    rw [hu] at hcomma
    obtain ⟨hlt', hget'⟩ := List.getElem?_eq_some_iff.1 hu
    refine Element.ClosedIn.append_left ?_ _
    rw [List.drop_eq_getElem_cons hlt', hget'] at hafter
    unfold Element.ClosedIn at hafter ⊢
    rw [List.map_cons, List.getLast?_cons] at hafter
    cases hlast : ((xs.drop (j + 2)).map Element.isEnd).getLast? with
    | some e => rw [hlast] at hafter; exact hafter
    | none =>
      -- a comma would be the last part
      rw [hlast] at hafter
      have hend : u.kind = .endOfFile := eq_of_beq (Option.some.inj hafter)
      simp [Element.isToken, Token.is, Token.isWord, hend] at hcomma
  · split
    · have hrest : Element.ClosedIn (xs.take (j - 1) ++ xs.drop (j + 1)) := hafter.append_left _
      split
      · exact hrest
      · exact hrest.of_map
          (Element.map_isEnd_modify (Element.isEnd_mapLast (Token.keepsWord_trailing fun _ => _)) _ _)
    · rw [List.eraseIdx_eq_take_drop_succ]
      exact hafter.append_left _

/-- An item that goes leaves its list, with a comma. -/
theorem passes_removeItem (hat : t.root.at? p = some m) (hremoved : m.top.Bears i.removed)
    (h : t.removeItem p = .ok t') : t.root.Passes i t'.root := by
  obtain ⟨q, j, u, rfl, hu, -, hput⟩ := removeItem_eq_ok h
  rw [Node.at?_append, hu] at hat
  obtain ⟨c, hc, hat⟩ := Node.at?_cons_eq_some.1 hat
  obtain rfl : c = m := Option.some.inj hat
  exact hput.passes hu (Node.passes_of_parts rfl (passesIn_dropItem hc hremoved) fun hclosed =>
    closedIn_dropItem hclosed hc)

end Tree

end Recast
