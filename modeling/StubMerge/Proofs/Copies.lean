import StubMerge.Proofs.Passes
import StubMerge.Proofs.Traces

/-!
# What a copy declares

The first pass of a merge copies an outline, so the places of its tree at which something is
declared are the declarations of the outline, one by one and in order
(`Merger.declarations_firstTree`).
-/

namespace StubMerge

/-- What is declared at a place. -/
def Place.declaration (p : Place) : Declaration := ⟨p.entry, p.path, scopesAlong p.above⟩

/-- The places at which something is declared. -/
def declaredPlaces (P : List Place) : List Place := P.filter fun p => p.kind.isDeclaration

theorem declaredPlaces_append (P Q : List Place) :
    declaredPlaces (P ++ Q) = declaredPlaces P ++ declaredPlaces Q := List.filter_append ..

theorem mem_declaredPlaces {p : Place} {P : List Place} :
    p ∈ declaredPlaces P ↔ p ∈ P ∧ p.kind.isDeclaration = true := List.mem_filter

namespace Outline

mutual
theorem declarations_number : ∀ (o : Outline) (n : NodeId) (a : List Step),
    o.isConflictFree = true →
    (declaredPlaces ((o.number n).placesAt .member a)).map Place.declaration =
      o.declarationsIn (pathAlong a) (scopesAlong a)
  | node e cs, n, a, hfree => by
    obtain ⟨hconf, hbare, hcs⟩ := isConflictFree_node.1 hfree
    have hbelow := declarations_numberAll cs (n + 1) (⟨n, e.kind, .member⟩ :: a) true hconf hcs
    rw [number, Tree.placesAt, declarationsIn]
    cases hk : e.kind with
    | scope s =>
      rw [hk] at hbelow
      rw [declaredPlaces, List.filter_cons_of_pos (by rw [Place.kind, hk]; rfl), List.map_cons]
      exact congrArg (_ :: ·) hbelow
    | leaf l =>
      obtain rfl := hbare (by rw [hk]; rfl)
      rw [declaredPlaces, List.filter_cons_of_pos (by rw [Place.kind, hk]; rfl), List.map_cons]
      rfl
    | group =>
      rw [hk] at hbelow
      rw [declaredPlaces, List.filter_cons_of_neg (by rw [Place.kind, hk]; decide)]
      exact hbelow
    | conflict _ | scopeConflict _ => simp [hk, Kind.isConflict] at hconf
/-- A copy of outlines declares what they declare. -/
theorem declarations_numberAll : ∀ (os : List Outline) (n : NodeId) (a : List Step) (first : Bool)
    {kind : Kind}, kind.isConflict = false → areConflictFree os = true →
    (declaredPlaces (Tree.placesAll kind first a (numberAll n os))).map Place.declaration =
      declarationsOf (pathAlong a) (scopesAlong a) os
  | [], _, _, _, _, _, _ => rfl
  | o :: os, n, a, first, kind, hk, hfree => by
    obtain ⟨ho, hos⟩ := areConflictFree_cons.1 hfree
    rw [numberAll, Tree.placesAll, Kind.slot_eq_member hk, declaredPlaces_append, List.map_append,
      declarations_number o n a ho, declarations_numberAll os _ a false hk hos, declarationsOf]
end

end Outline

namespace Merger

/-- The first pass leaves the declarations of the outline. -/
theorem declarations_firstTree {o : Outline} (ho : o.isConflictFree = true) :
    (declaredPlaces (firstTree { root := o }).places).map Place.declaration =
      ({ root := o } : Source).declarations := by
  obtain ⟨e, cs⟩ := o
  obtain ⟨-, -, hcs⟩ := Outline.isConflictFree_node.1 ho
  rw [firstTree, Tree.places, Tree.placesAt, declaredPlaces,
    List.filter_cons_of_neg (by exact Bool.false_ne_true)]
  exact Outline.declarations_numberAll cs 1 [⟨Forest.root, .group, .member⟩] true
    (rfl : Kind.group.isConflict = false) hcs

end Merger

end StubMerge
