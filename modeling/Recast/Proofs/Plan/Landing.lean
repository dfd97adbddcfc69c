-- SUMMARY: The change of a method header that a plan asks for lands wherever the method is left, and what it makes of the header stays.
import Recast.Proofs.Analysis.Annotation
import Recast.Proofs.Edit.Retyping

/-! # Landing headers

A plan leaves the header of a method that it is to change as it was read, up to the turn of the
change, unless the method returns a container of rows that becomes a sequence before
(`SignatureChange.Ready`). So the change finds a header that it fits and is carried out. After that
only a marker rewrites the return type, which it makes the wrapper (`Ready.reads_after`). -/

namespace Recast

/-! ## What a plan knows of a header -/

/-- A type or a part of one that no edit of a record is made at. -/
def Top.IsSpared (records : List Record) (top : Top) : Prop :=
  top.kind.isDull = true ∧ ∀ r ∈ records, ¬top.Bears r.targets

theorem Top.admits_isSpared (records : List Record) : Admits (IsSpared records) := by
  intro top hdull htags
  refine ⟨hdull, fun r _ hbears => ?_⟩
  obtain ⟨x, -, hx⟩ := hbears
  rw [htags] at hx
  cases hx

/-- A type that no record is made at, when the header is clear of what they are made at. -/
theorem Head.Reads.spared {records : List Record} {words : List String} {P : String → Prop}
    {head : Head} (h : head.Reads (fun top => top.kind.isDull = true) words P)
    (hclear : ∀ r ∈ records, head.Clear (Top.Bears r.targets)) :
    head.Reads (Top.IsSpared records) words P := by
  obtain ⟨mods, type, hshows, hwords⟩ := h
  have heach : ∀ part ∈ head.parts, ∀ top ∈ part.tops, top.kind.isDull = true →
      top.IsSpared records := fun part hpart top htop hdull =>
    ⟨hdull, fun r hr => hclear r hr part hpart top htop⟩
  rw [hshows.parts_eq] at heach
  refine ⟨mods, type, ⟨hshows.parts_eq, hshows.mods_kind, hshows.type_kind, ?_, ?_⟩, hwords⟩
  · exact fun top htop => heach mods (by simp) top htop (hshows.mods_each top htop)
  · exact fun top htop => heach type (by simp) top htop (hshows.type_each top htop)

/-- The records that are not of containers. -/
def withoutContainers (records : List Record) : List Record :=
  records.filter fun r => r.kind ≠ .container

/-- The record makes a sequence of the container that a method returns, and the change of the
    header of the method fits the sequence. -/
def Record.Retypes (r : Record) (records : List Record) (t : Tree) (tag : Tag)
    (change : SignatureChange) (words : List String) : Prop :=
  ∃ (container : ContainerChange) (x : Tag), r.change = .container container ∧
    container.creationTag = none ∧ container.typeTag = some x ∧ t.root.Once x ∧
    (∀ head ∈ t.root.heads tag.full, head.Typed (Top.IsSpared records) words x) ∧
    ∀ n, Fragment.readType s!"{container.container}<{container.element}>" = .ok n →
      change.Fits n.text

/-- A method is ready for a change of its header: the change fits the header that the method has,
    and the other records are not made in it or leave one that the change fits. -/
structure SignatureChange.Ready (change : SignatureChange) (records : List Record) (t : Tree)
    (tag : Tag) (words : List String) : Prop where
  headed : t.root.Headed
  once : t.root.Once tag
  reads : ∀ head ∈ t.root.heads tag.full,
    head.Reads (fun top => top.kind.isDull = true) words change.Fits
  free : change.FreeIn words
  spared : ∀ r ∈ records, (∀ head ∈ t.root.heads tag.full, head.Clear (Top.Bears r.targets)) ∨
    r.Retypes records t tag change words
  values : ∀ r ∈ records, r.kind.putsValue = true → ∀ x ∈ r.targets, ∀ head ∈ t.root.heads x.bare,
    head.top.kind.isValue = true
  others : ∀ r ∈ records, r.tag ≠ tag → (∃ other, r.change = .signature other) →
    ∀ head ∈ t.root.heads r.tag.bare, tag ∉ head.top.tags
  wrapper : ∀ r ∈ records, ∀ marker type, r.change = .methodMarker marker (some type) →
    type = "Task"

namespace SignatureChange.Ready

variable {change : SignatureChange} {records before done : List Record} {t : Tree} {tag : Tag}
  {words : List String} (h : change.Ready records t tag words)

include h

/-- No record brings a node with a tag. -/
theorem retains_bare (hdone : ∀ r ∈ done, r ∈ records) (x : Tag) :
    t.root.Retains x.bare (t.after {} done).root := by
  induction done using List.reverseRecOn generalizing x with
  | nil => exact .refl _
  | append_singleton done r ih =>
    have hbefore := ih fun r hr => hdone r (List.mem_append_left _ hr)
    have hr := hdone r (by simp)
    rw [Tree.after_concat_eq]
    refine (hbefore x).trans (Tree.retains_after_single ⟨Node.clear_bare x _ _, ?_, nofun⟩)
    exact fun hvalue y hy head hhead =>
      h.values r hr hvalue y hy head (List.Sublist.subset (hbefore y) hhead)

/-- A record of another method that is not made in the header leaves it alone, unless it brings a
    return type. -/
theorem leavesAlone {r : Record} (hdone : ∀ r ∈ done, r ∈ records) (hr : r ∈ records)
    (hother : r.tag ≠ tag) (hplain : ∀ marker type, r.change ≠ .methodMarker marker (some type))
    (hclear : (t.after {} done).root.Clear tag.full (Top.Bears r.targets)) :
    r.LeavesAlone tag.full (t.after {} done) := by
  have hbare := h.retains_bare hdone
  refine ⟨hclear, fun hvalue y hy head hhead => ?_, fun _ hrewrites head hhead => ?_⟩
  · exact h.values r hr hvalue y hy head (List.Sublist.subset (hbare y) hhead)
  · refine h.others r hr hother ?_ head (List.Sublist.subset (hbare r.tag) hhead)
    cases hchange : r.change with
    | signature other => exact ⟨other, rfl⟩
    | methodMarker marker type? =>
      rw [hchange] at hrewrites
      cases type? with
      | none => cases hrewrites
      | some type => exact absurd hchange (hplain marker type)
    | _ =>
      rw [hchange] at hrewrites
      cases hrewrites

/-- When the container that the method returns becomes a sequence, the change fits what is left. -/
theorem reads_retyped {r : Record} {s : Site} {t' : Tree}
    (hdone : ∀ r ∈ done, r ∈ records ∧ r.kind.rank ≤ RecordKind.signature.rank) (hr : r ∈ records)
    (hretypes : r.Retypes records t tag change words) (hs : s ∈ (t.after {} done).sites)
    (happly : r.change.apply {} s = .ok t')
    (hreads : ∀ head ∈ (t.after {} done).root.heads tag.full, head ∈ t.root.heads tag.full ∨
      head.Reads (Top.IsSpared records) words change.Fits) :
    ∀ head ∈ t'.root.heads tag.full, head ∈ t.root.heads tag.full ∨
      head.Reads (Top.IsSpared records) words change.Fits := by
  obtain ⟨container, x, hchange, hcreation, htype, honce, htyped, hread⟩ := hretypes
  rw [hchange] at happly
  have hx : x ∈ r.targets := by
    rw [Record.targets, hchange]
    simp [Change.partTags, htype]
  have hputs : r.kind.putsValue = true := by
    rw [Record.kind, hchange]
    rfl
  have hbare := h.retains_bare (fun r hr => (hdone r hr).1) x
  have hheaded : (t.after {} done).root.Headed := Tree.headed_after (fun r' hr' =>
    Nat.le_trans (hdone r' hr').2 (by decide)) h.headed
  have hnone : ∀ top, Top.IsSpared records top → ¬top.Bears [x] := by
    rintro top htop ⟨y, hy, hbears⟩
    obtain rfl := List.mem_singleton.1 hy
    exact htop.2 r hr ⟨y, hx, hbears⟩
  intro head hhead
  rcases Edit.reads_reshapeContainer (Top.admits_isSpared records) hs hcreation htype hheaded
    (honce.of_retains hbare)
    (fun head hhead => h.values r hr hputs x hx head (List.Sublist.subset hbare hhead))
    (fun head hhead => (hreads head hhead).imp (htyped head) fun hreads => hreads.clear hnone)
    hread happly head hhead with hsame | hnew
  · exact hreads head hsame
  · exact .inr hnew

/-- Up to the change, the header of the method stays, or it is that of a sequence. -/
theorem reads_before (hbefore : ∀ r ∈ before, r ∈ records ∧ r.tag ≠ tag ∧
      r.kind.rank ≤ RecordKind.signature.rank) :
    ∀ head ∈ (t.after {} before).root.heads tag.full, head ∈ t.root.heads tag.full ∨
      head.Reads (Top.IsSpared records) words change.Fits := by
  induction before using List.reverseRecOn with
  | nil => exact fun head hhead => .inl hhead
  | append_singleton before r ih =>
    have hearlier : ∀ r' ∈ before, r' ∈ records ∧ r'.tag ≠ tag ∧
        r'.kind.rank ≤ RecordKind.signature.rank := fun r' hr' =>
      hbefore r' (List.mem_append_left _ hr')
    have ih := ih hearlier
    obtain ⟨hr, hother, hrank⟩ := hbefore r (by simp)
    rw [Tree.after_concat_eq]
    rcases h.spared r hr with hclear | hretypes
    · -- The edit is made elsewhere.
      have halone : r.LeavesAlone tag.full (t.after {} before) := by
        refine h.leavesAlone (fun r' hr' => (hearlier r' hr').1) hr hother ?_ fun head hhead => ?_
        · intro marker type hchange
          rw [Record.kind, hchange] at hrank
          exact absurd hrank
            (show ¬RecordKind.methodMarker.rank ≤ RecordKind.signature.rank by decide)
        · rcases ih head hhead with hsame | hreads
          · exact hclear head hsame
          · exact hreads.clear fun top htop => htop.2 r hr
      exact fun head hhead => ih head (List.Sublist.subset (Tree.retains_after_single halone) hhead)
    · -- The container that the method returns becomes a sequence.
      by_cases houtcome : r.outcome {} (t.after {} before) = .applied
      · obtain ⟨s, hfound, happly⟩ := Tree.apply_of_outcome houtcome
        exact h.reads_retyped (fun r' hr' => ⟨(hearlier r' hr').1, (hearlier r' hr').2.2⟩) hr hretypes
          (Tree.findTagged?_mem hfound).1 happly ih
      · rw [Tree.after_of_outcome houtcome]
        exact ih

/-- The change is carried out when its turn comes, unless the method is gone. -/
theorem reads_turn {r : Record} (hbefore : ∀ r ∈ before, r ∈ records ∧ r.tag ≠ tag ∧
      r.kind.rank ≤ RecordKind.signature.rank) (htag : r.tag = tag)
    (hchange : r.change = .signature change) :
    r.outcome {} (t.after {} before) ≠ .failed ∧
      ∀ head ∈ (t.after {} (before ++ [r])).root.heads tag.full,
        head.Reads (Top.IsSpared (withoutContainers records)) (change.modifiersFrom words)
          change.Settles := by
  have honce := h.once.of_retains (h.retains_bare (fun r hr => (hbefore r hr).1) tag)
  have hheaded : (t.after {} before).root.Headed := Tree.headed_after (fun r' hr' =>
    Nat.le_trans (hbefore r' hr').2.2 (by decide)) h.headed
  rw [Tree.after_concat_eq]
  cases hfound : (t.after {} before).findTagged? r.tag with
  | none =>
    have hnone := Tree.findTagged?_eq_none.1 hfound
    have hskipped : r.outcome {} (t.after {} before) = .skipped := Record.outcome_eq_skipped.2 hnone
    rw [Tree.after_of_outcome (by rw [hskipped]; decide), hskipped]
    refine ⟨by decide, fun head hhead => ?_⟩
    obtain ⟨p, m, hat, hm, -⟩ := Node.mem_heads.1 hhead
    exact absurd hm (htag ▸ hnone p m hat)
  | some s =>
    obtain ⟨hs, hbears⟩ := Tree.findTagged?_mem hfound
    have hs_tag : tag ∈ s.node.tags := by simpa [Node.hasTag, htag] using hbears
    have hhead : s.node.head true ∈ (t.after {} before).root.heads tag.full :=
      Node.mem_heads.2 ⟨s.path, s.node, (Tree.mem_sites_iff.1 hs).2, hs_tag, rfl⟩
    -- Containers are done with, so the other records spare the header in either case.
    have hreads : (s.node.head true).Reads (Top.IsSpared (withoutContainers records)) words
        change.Fits := by
      rcases h.reads_before hbefore _ hhead with hsame | hreads
      · refine (h.reads _ hsame).spared fun r hr => ?_
        obtain ⟨hr, hkind⟩ := List.mem_filter.1 hr
        rcases h.spared r hr with hclear | ⟨container, x, hchange, -⟩
        · exact hclear _ hsame
        · simp [Record.kind, hchange, Change.kind] at hkind
      · exact hreads.weaken fun top htop =>
          ⟨htop.1, fun r hr => htop.2 r (List.mem_filter.1 hr).1⟩
    obtain ⟨t', happly, hchanged⟩ := Edit.exists_changeSignature (Top.admits_isSpared _) hs hs_tag
      hheaded honce hreads h.free
    have hdone : r.change.apply {} s = .ok t' := by
      rw [hchange]
      exact happly
    have houtcome : r.outcome {} (t.after {} before) = .applied := by
      simp only [Record.outcome, hfound, hdone]
    obtain ⟨s', hfound', happly'⟩ := Tree.apply_of_outcome houtcome
    obtain rfl := Option.some.inj (hfound.symm.trans hfound')
    obtain rfl := Except.ok.inj (hdone.symm.trans happly')
    exact ⟨by rw [houtcome]; decide, hchanged⟩

/-- A marker leaves the return type of the method that it is put on, or makes it the wrapper. -/
theorem reads_marked {r : Record} {s : Site} {t' : Tree} {marker type : String}
    {words : List String} (hdone : ∀ r ∈ done, r ∈ records) (hr : r ∈ records)
    (hearly : ∀ r ∈ done, r.kind.rank ≤ RecordKind.methodMarker.rank)
    (hchange : r.change = .methodMarker marker (some type)) (hs : s ∈ (t.after {} done).sites)
    (htag : r.tag ∈ s.node.tags) (happly : r.change.apply {} s = .ok t')
    (hclear : (t.after {} done).root.Clear tag.full (Top.Bears r.targets))
    (hreads : ∀ head ∈ (t.after {} done).root.heads tag.full,
      head.Reads (Top.IsSpared (withoutContainers records)) words change.Settles) :
    ∀ head ∈ t'.root.heads tag.full,
      head.Reads (Top.IsSpared (withoutContainers records)) words change.Settles := by
  obtain rfl := h.wrapper r hr marker type hchange
  rw [hchange] at happly
  rw [show r.targets = [r.tag] by rw [Record.targets, hchange]] at hclear
  refine Edit.reads_addMethodMarker (Top.admits_isSpared _) hs (Tree.headed_after hearly h.headed)
    (h.once.of_retains (h.retains_bare hdone tag)) htag hclear hreads
    (fun type htype n hn _ => ?_) happly
  obtain rfl := Option.some.inj htype
  exact Edit.wrapped_of_readType_wrapper hn

/-- After the change its modifiers stay, and the return type stays or is the wrapper. -/
theorem reads_after {r : Record} {rest : List Record} (hbefore : ∀ r ∈ before, r ∈ records ∧
      r.tag ≠ tag ∧ r.kind.rank ≤ RecordKind.signature.rank) (htag : r.tag = tag)
    (hr : r ∈ records) (hchange : r.change = .signature change)
    (hrest : ∀ r' ∈ rest, r' ∈ records ∧ r'.tag ≠ tag)
    (hsorted : (before ++ r :: rest).Pairwise fun a b => a.kind.rank ≤ b.kind.rank) :
    ∀ head ∈ (t.after {} (before ++ r :: rest)).root.heads tag.full,
      head.Reads (Top.IsSpared (withoutContainers records)) (change.modifiersFrom words)
        change.Settles := by
  induction rest using List.reverseRecOn with
  | nil => exact (h.reads_turn hbefore htag hchange).2
  | append_singleton rest r' ih =>
    rw [← List.cons_append, ← List.append_assoc] at hsorted ⊢
    obtain ⟨hearlier, -, hlast⟩ := List.pairwise_append.1 hsorted
    have ih := ih (fun r'' hr'' => hrest r'' (List.mem_append_left _ hr'')) hearlier
    obtain ⟨hr', hother⟩ := hrest r' (by simp)
    have hsub : ∀ r'' ∈ before ++ r :: rest, r'' ∈ records := by
      intro r'' hr''
      rcases List.mem_append.1 hr'' with hr'' | hr''
      · exact (hbefore r'' hr'').1
      · rcases List.mem_cons.1 hr'' with rfl | hr''
        · exact hr
        · exact (hrest r'' (List.mem_append_left _ hr'')).1
    -- the containers come before the change
    have hkind : r'.kind ≠ .container := fun hcontainer => by
      have hle := hlast r (by simp) r' (List.mem_singleton_self r')
      rw [show r.kind = .signature by rw [Record.kind, hchange]; rfl, hcontainer] at hle
      exact absurd hle (by decide)
    have hclear : (t.after {} (before ++ r :: rest)).root.Clear tag.full (Top.Bears r'.targets) :=
      fun head hhead => (ih head hhead).clear fun top htop =>
        htop.2 r' (List.mem_filter.2 ⟨hr', by simpa using hkind⟩)
    rw [Tree.after_concat_eq]
    by_cases hmarker : ∃ marker type, r'.change = .methodMarker marker (some type)
    · obtain ⟨marker, type, hchange'⟩ := hmarker
      by_cases houtcome : r'.outcome {} (t.after {} (before ++ r :: rest)) = .applied
      · obtain ⟨s, hfound, happly⟩ := Tree.apply_of_outcome houtcome
        obtain ⟨hs, hbears⟩ := Tree.findTagged?_mem hfound
        refine h.reads_marked hsub hr' (fun r'' hr'' => ?_) hchange' hs hbears happly hclear ih
        have hle := hlast r'' hr'' r' (List.mem_singleton_self r')
        rwa [show r'.kind = .methodMarker by rw [Record.kind, hchange']; rfl] at hle
      · rw [Tree.after_of_outcome houtcome]
        exact ih
    · have halone := h.leavesAlone hsub hr' hother
        (fun marker type hchange' => hmarker ⟨marker, type, hchange'⟩) hclear
      exact fun head hhead => ih head (List.Sublist.subset (Tree.retains_after_single halone) hhead)

end SignatureChange.Ready

/-! ## Plans -/

/-- The records around the one with a number have other tags. -/
theorem Plan.other_tags {plan : Plan} {i : Nat} {r : Record} {rest : List Record}
    (hnodup : (plan.records.map Record.tag).Nodup)
    (hsplit : plan.ordered = plan.before i ++ r :: rest) :
    (∀ r' ∈ plan.before i, r' ∈ plan.records ∧ r'.tag ≠ r.tag) ∧
      ∀ r' ∈ rest, r' ∈ plan.records ∧ r'.tag ≠ r.tag := by
  have hmem : ∀ r', r' ∈ plan.before i ++ r :: rest → r' ∈ plan.records := by
    intro r' hr'
    rw [← hsplit] at hr'
    exact plan.perm_ordered.subset hr'
  rw [← (plan.perm_ordered.map Record.tag).nodup_iff, hsplit, List.map_append, List.map_cons,
    List.nodup_append, List.nodup_cons] at hnodup
  obtain ⟨-, ⟨hlater, -⟩, hearlier⟩ := hnodup
  refine ⟨fun r' hr' => ⟨hmem r' (List.mem_append_left _ hr'), ?_⟩, fun r' hr' =>
    ⟨hmem r' (List.mem_append_right _ (List.mem_cons_of_mem _ hr')), fun heq => ?_⟩⟩
  · exact hearlier _ (List.mem_map_of_mem hr') _ (List.mem_cons_self ..)
  · exact hlater (heq ▸ List.mem_map_of_mem hr')

/-- The change of a header that a method is ready for is not refused, and the method, wherever it is
    left, has the modifiers and the return type that it asks for. -/
theorem SignatureChange.Ready.reads_apply {change : SignatureChange} {plan : Plan} {t : Tree}
    {words : List String} {i : Nat} {r : Record} (h : change.Ready plan.records t r.tag words)
    (hnodup : (plan.records.map Record.tag).Nodup) (hr : plan.records[i]? = some r)
    (hchange : r.change = .signature change) :
    r.outcome {} (t.after {} (plan.before i)) ≠ .failed ∧
      ∀ head ∈ (plan.apply {} t).tree.root.heads r.tag.full,
        head.Reads (Top.IsSpared (withoutContainers plan.records)) (change.modifiersFrom words)
          change.Settles := by
  obtain ⟨rest, hsplit⟩ := Plan.exists_ordered_eq hr
  obtain ⟨hearlier, hlater⟩ := Plan.other_tags hnodup hsplit
  have hsorted := plan.sorted_ordered
  rw [hsplit] at hsorted
  have hbefore : ∀ r' ∈ plan.before i, r' ∈ plan.records ∧ r'.tag ≠ r.tag ∧
      r'.kind.rank ≤ RecordKind.signature.rank := by
    intro r' hr'
    have hle := (List.pairwise_append.1 hsorted).2.2 r' hr' r (List.mem_cons_self ..)
    rw [show r.kind = .signature by rw [Record.kind, hchange]; rfl] at hle
    exact ⟨(hearlier r' hr').1, (hearlier r' hr').2, hle⟩
  refine ⟨(h.reads_turn hbefore rfl hchange).1, fun head hhead => ?_⟩
  have hafter := h.reads_after hbefore rfl (List.mem_of_getElem? hr) hchange hlater hsorted
  rw [← hsplit] at hafter
  refine hafter head (List.Sublist.subset (Plan.retains_apply fun head hhead => ?_) hhead)
  refine (hafter head hhead).clear fun top htop himport => ?_
  have hdull := htop.1
  rw [himport] at hdull
  cases hdull

/-- At most one node has the tag of the method when a plan was carried out. -/
theorem SignatureChange.Ready.once_apply {change : SignatureChange} {plan : Plan} {t : Tree}
    {tag : Tag} {words : List String} (h : change.Ready plan.records t tag words) :
    (plan.apply {} t).tree.root.Once tag :=
  h.once.of_retains ((h.retains_bare (fun _ => Plan.mem_ordered.1) tag).trans
    (Plan.retains_apply (Node.clear_bare tag _ _)))

end Recast
