-- SUMMARY: Merging catalogs overrides entry by entry: what is found after a merge, and that merging keeps identities apart.
import Recast.Proofs.Grammar.Lossless
import Recast.Types.Catalog

/-! # Overriding

A look-up takes the first entry with an identity, and an addition replaces that same entry. So a
look-up after an addition finds the added entry under its identity and what it found before under
every other one. A merge adds the entries of another catalog in turn: where several of them have
one identity the last one stays. First and last are one entry in a catalog that tells identities
apart, and adding and merging build no other; a catalog read from a text is taken as it stands and
may repeat an identity. -/

namespace Recast

/-- What the entries of a catalog are told apart by. -/
def TypeInfo.identity (t : TypeInfo) : String × String × Nat :=
  (t.space, t.name, t.arity)

theorem TypeInfo.hasIdentity_iff {t : TypeInfo} {space name : String} {arity : Nat} :
    t.hasIdentity space name arity = true ↔ t.identity = (space, name, arity) := by
  simp [hasIdentity, identity, and_assoc]

namespace Catalog

/-- No two entries have the same identity. -/
def Distinct (c : Catalog) : Prop :=
  (c.types.map TypeInfo.identity).Nodup

instance (c : Catalog) : Decidable c.Distinct :=
  inferInstanceAs (Decidable (c.types.map TypeInfo.identity).Nodup)

/-- The catalogs made from nothing by adding and merging. -/
inductive Built : Catalog → Prop
  | empty : Built {}
  | add {c : Catalog} (info : TypeInfo) : Built c → Built (c.add info)
  | merge {a b : Catalog} : Built a → Built b → Built (a.merge b)

/-- The last entry with an identity. -/
def lastWith? (c : Catalog) (space name : String) (arity : Nat) : Option TypeInfo :=
  c.types.reverse.find? fun t => t.hasIdentity space name arity

section Lookup

variable {space name : String} {arity : Nat} {info : TypeInfo} {ts : List TypeInfo}

/-! ## Adding -/

theorem find?_addTo (info : TypeInfo) (ts : List TypeInfo) :
    ((addTo info ts).find? fun t => t.hasIdentity space name arity) =
      if info.hasIdentity space name arity then some info
      else ts.find? fun t => t.hasIdentity space name arity := by
  fun_induction addTo info ts with
  | case1 => rw [List.find?_singleton]; rfl
  | case2 t ts hsame =>
    rw [List.find?_cons, List.find?_cons]
    -- The entry that gave way has the identity of the new one, so it is not found either.
    have hfound : t.hasIdentity space name arity = info.hasIdentity space name arity := by
      rw [Bool.eq_iff_iff, TypeInfo.hasIdentity_iff, TypeInfo.hasIdentity_iff,
        TypeInfo.hasIdentity_iff.1 hsame, TypeInfo.identity]
    rw [hfound]
    cases info.hasIdentity space name arity <;> rfl
  | case3 t ts hother ih =>
    rw [List.find?_cons, List.find?_cons, ih]
    cases ht : t.hasIdentity space name arity with
    | false => rfl
    | true =>
      have hinfo : ¬ info.hasIdentity space name arity = true := by
        intro hinfo
        refine hother (TypeInfo.hasIdentity_iff.2 ?_)
        exact (TypeInfo.hasIdentity_iff.1 ht).trans (TypeInfo.hasIdentity_iff.1 hinfo).symm
      exact (if_neg hinfo).symm

theorem lookup?_add (c : Catalog) (info : TypeInfo) :
    (c.add info).lookup? space name arity =
      if info.hasIdentity space name arity then some info else c.lookup? space name arity :=
  find?_addTo info c.types

theorem identities_addTo (info : TypeInfo) (ts : List TypeInfo) :
    (addTo info ts).map TypeInfo.identity =
      if info.identity ∈ ts.map TypeInfo.identity then ts.map TypeInfo.identity
      else ts.map TypeInfo.identity ++ [info.identity] := by
  fun_induction addTo info ts with
  | case1 => rfl
  | case2 t ts hsame =>
    have hidentity : t.identity = info.identity := TypeInfo.hasIdentity_iff.1 hsame
    simp [hidentity]
  | case3 t ts hother ih =>
    have hidentity : info.identity ≠ t.identity :=
      fun h => hother (TypeInfo.hasIdentity_iff.2 h.symm)
    rw [List.map_cons, List.map_cons, ih]
    by_cases hmem : info.identity ∈ ts.map TypeInfo.identity
    · rw [if_pos hmem, if_pos (List.mem_cons_of_mem _ hmem)]
    · rw [if_neg hmem, if_neg (List.not_mem_cons_of_ne_of_not_mem hidentity hmem), List.cons_append]

theorem Distinct.add {c : Catalog} (hc : c.Distinct) (info : TypeInfo) : (c.add info).Distinct := by
  rw [Distinct, Catalog.add, identities_addTo]
  split
  · exact hc
  · rename_i hnew
    refine List.nodup_append.2 ⟨hc, List.pairwise_singleton _ _, fun i hi j hj hij => hnew ?_⟩
    rwa [← List.mem_singleton.1 hj, ← hij]

/-! ## Merging -/

theorem merge_cons (a : Catalog) (info : TypeInfo) (ts : List TypeInfo) :
    a.merge ⟨info :: ts⟩ = (a.add info).merge ⟨ts⟩ := rfl

theorem lastWith?_cons (info : TypeInfo) (ts : List TypeInfo) :
    lastWith? ⟨info :: ts⟩ space name arity =
      (lastWith? ⟨ts⟩ space name arity).or
        (if info.hasIdentity space name arity then some info else none) := by
  simp only [lastWith?, List.reverse_cons, List.find?_append, List.find?_singleton]

/-- A look-up after a merge finds the last entry of the merged catalog, or else what it found
    before. -/
theorem lookup?_merge (a b : Catalog) :
    (a.merge b).lookup? space name arity =
      (b.lastWith? space name arity).or (a.lookup? space name arity) := by
  obtain ⟨ts⟩ := b
  induction ts generalizing a with
  | nil => rfl
  | cons info ts ih =>
    rw [merge_cons, ih, lookup?_add, lastWith?_cons, Option.or_assoc]
    split <;> rfl

theorem Distinct.merge {a : Catalog} (ha : a.Distinct) (b : Catalog) : (a.merge b).Distinct := by
  obtain ⟨ts⟩ := b
  induction ts generalizing a with
  | nil => exact ha
  | cons info ts ih => exact ih (ha.add info)

theorem Built.distinct {c : Catalog} (h : c.Built) : c.Distinct := by
  induction h with
  | empty => exact List.nodup_nil
  | add info _ ih => exact ih.add info
  | merge _ _ iha _ => exact iha.merge _

/-- The first entry with an identity is the last one where identities are told apart. -/
theorem Distinct.lastWith?_eq {c : Catalog} (hc : c.Distinct) :
    c.lastWith? space name arity = c.lookup? space name arity := by
  obtain ⟨ts⟩ := c
  induction ts with
  | nil => rfl
  | cons info ts ih =>
    obtain ⟨hnew, hrest⟩ := List.nodup_cons.1 hc
    rw [lastWith?_cons, ih hrest, lookup?, lookup?, List.find?_cons]
    cases hinfo : info.hasIdentity space name arity with
    | false => exact Option.or_none
    | true =>
      have hnone : (ts.find? fun t => t.hasIdentity space name arity) = none := by
        refine List.find?_eq_none.2 fun t ht hfound => hnew (List.mem_map.2 ⟨t, ht, ?_⟩)
        exact (TypeInfo.hasIdentity_iff.1 hfound).trans (TypeInfo.hasIdentity_iff.1 hinfo).symm
      rw [hnone]
      rfl

end Lookup

/-- Merging overrides entry by entry. After a merge a look-up finds the last entry with the identity
    in the merged catalog, and what it found before when there is none. The last entry is the one
    that a look-up finds in the merged catalog itself when that has no two entries with the same
    identity, as is so of every catalog made by adding and merging. Merging into a catalog without
    two such entries makes none. -/
theorem merge_overrides (a b : Catalog) :
    (∀ space name arity, (a.merge b).lookup? space name arity =
      (b.lastWith? space name arity).or (a.lookup? space name arity)) ∧
    (b.Distinct → ∀ space name arity, (a.merge b).lookup? space name arity =
      (b.lookup? space name arity).or (a.lookup? space name arity)) ∧
    (b.Built → b.Distinct) ∧
    (a.Distinct → (a.merge b).Distinct) := by
  refine ⟨fun _ _ _ => lookup?_merge a b, fun hb _ _ _ => ?_, Built.distinct, fun ha => ha.merge b⟩
  rw [lookup?_merge, hb.lastWith?_eq]

/-- An interface takes the place of a class of its name; a class of another arity stays. -/
theorem merge_overrides_interface :
    let a : Catalog := ⟨[.ofClass "A" "B", (TypeInfo.ofClass "A" "B").withArity 1]⟩
    let b : Catalog := ⟨[.ofInterface "A" "B"]⟩
    a.Distinct ∧ b.Distinct ∧ (a.merge b).Distinct ∧
      (a.merge b).lookup? "A" "B" 0 = some (.ofInterface "A" "B") ∧
      (a.merge b).lookup? "A" "B" 1 = some ((TypeInfo.ofClass "A" "B").withArity 1) := by
  intro a b
  have ha : a.Distinct := by decide
  have hb : b.Distinct := by decide
  obtain ⟨-, hfound, -, hdistinct⟩ := merge_overrides a b
  exact ⟨ha, hb, hdistinct ha, (hfound hb "A" "B" 0).trans (by decide),
    (hfound hb "A" "B" 1).trans (by decide)⟩

/-- A text may give one identity twice. A look-up in the catalog read from it finds the first entry,
    after merging it finds the second. -/
theorem not_merge_overrides_repeated :
    ¬ ∀ (a b : Catalog) (source : String), a.Built → parse source = .ok b →
      ∀ space name arity, (a.merge b).lookup? space name arity =
        (b.lookup? space name arity).or (a.lookup? space name arity) := by
  intro hall
  let source := "\x7b\"types\": [\x7b\"namespace\": \"A\", \"name\": \"B\", \"kind\": \"class\"\x7d, " ++
    "\x7b\"namespace\": \"A\", \"name\": \"B\", \"kind\": \"interface\"\x7d]\x7d"
  have hread : parse source = .ok ⟨[.ofClass "A" "B", .ofInterface "A" "B"]⟩ :=
    toOption_eq_some_iff.1 (by decide +kernel)
  have hfirst := hall {} _ source .empty hread "A" "B" 0
  exact absurd hfirst (by decide)

end Catalog

end Recast
