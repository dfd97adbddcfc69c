-- SUMMARY: The change that a plan makes to the imports of a file.
import Recast.Text.Basic

/-! # Import changes

A file loses the imports at or below certain namespaces and gains imports of others. Both lists
are kept without repetition, in the order in which they were asked for. -/

namespace Recast

/-- Which imports come and go. -/
structure ImportDelta where
  /-- Namespaces to import. -/
  added : List String := []
  /-- Namespaces whose imports go, with all that lie below them. -/
  removedRoots : List String := []
  deriving DecidableEq, Repr

namespace ImportDelta

/-- A list with an item at its end, unless it holds the item. -/
def addOnce (item : String) (items : List String) : List String :=
  if items.contains item then items else items ++ [item]

theorem mem_addOnce {x item : String} {items : List String} :
    x ∈ addOnce item items ↔ x ∈ items ∨ x = item := by
  unfold addOnce
  split
  · rename_i h
    have : item ∈ items := by simpa using h
    grind
  · simp

theorem nodup_addOnce {item : String} {items : List String} (h : items.Nodup) :
    (addOnce item items).Nodup := by
  unfold addOnce
  split
  · exact h
  · rename_i hm
    have : item ∉ items := by simpa using hm
    grind [List.nodup_append]

/-- The change that also imports a namespace. -/
def add (d : ImportDelta) (space : String) : ImportDelta :=
  { d with added := addOnce space d.added }

/-- The change that imports each of several namespaces as well. -/
def addAll (d : ImportDelta) (spaces : List String) : ImportDelta :=
  spaces.foldl add d

/-- The change that also drops the imports at or below a namespace. -/
def removeUnder (d : ImportDelta) (root : String) : ImportDelta :=
  { d with removedRoots := addOnce root d.removedRoots }

/-- True when an import of the namespace goes. -/
def removes (d : ImportDelta) (space : String) : Bool :=
  d.removedRoots.any fun root => Text.isUnder root space

/-- True when no import comes or goes. -/
def isEmpty (d : ImportDelta) : Bool :=
  d.added.isEmpty && d.removedRoots.isEmpty

end ImportDelta

end Recast
