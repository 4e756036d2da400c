import StubMerge.Proofs.Copies
import StubMerge.Proofs.Naming

/-!
# Nodes of an outline where they stand

`Outline.sites` lists the nodes of an outline from the top down, each with its depth and the scopes
that it is in. Nothing is lost by that: an outline can be told from its sites
(`Outline.eq_of_sites_eq`). So two outlines can be compared node by node, and what a node may have
gained (`Entry.gain`) can be said in terms of the scopes that it is in.
-/

namespace StubMerge

/-- A node of an outline, seen as a declaration, with its depth. -/
structure Site extends Declaration where
  depth : Nat

namespace Outline

mutual
/-- The nodes of an outline, parents before children. -/
def sitesIn (depth : Nat) (path : String) (enclosing : List String) : Outline → List Site
  | node e cs => ⟨⟨e, path, enclosing⟩, depth⟩ :: sitesOf (depth + 1) (e.kind.within path)
      (if e.kind.isScope then e.kind.within path :: enclosing else enclosing) cs
/-- The nodes of outlines, one after the other. -/
def sitesOf (depth : Nat) (path : String) (enclosing : List String) : List Outline → List Site
  | [] => []
  | c :: cs => c.sitesIn depth path enclosing ++ sitesOf depth path enclosing cs
end

/-- The nodes of a file. -/
def sites (o : Outline) : List Site := o.sitesIn 0 "" []

/-- The groups of a file, apart from the file itself. -/
def groups (o : Outline) : List Declaration := groupsOf "" [] o.children

/-! ## What sites tell -/

mutual
theorem le_depth_sitesIn : ∀ (o : Outline) (n : Nat) (path : String) (enclosing : List String),
    ∀ s ∈ o.sitesIn n path enclosing, n ≤ s.depth
  | node e cs, n, path, enclosing, s, hs => by
    rw [sitesIn] at hs
    rcases List.mem_cons.1 hs with rfl | hs
    · exact Nat.le_refl n
    · exact Nat.le_of_succ_le (le_depth_sitesOf cs _ _ _ s hs)
theorem le_depth_sitesOf : ∀ (os : List Outline) (n : Nat) (path : String)
    (enclosing : List String), ∀ s ∈ sitesOf n path enclosing os, n ≤ s.depth
  | [], _, _, _, s, hs => by cases hs
  | o :: os, n, path, enclosing, s, hs => by
    rw [sitesOf] at hs
    rcases List.mem_append.1 hs with hs | hs
    · exact le_depth_sitesIn o n path enclosing s hs
    · exact le_depth_sitesOf os n path enclosing s hs
end

/-- What is below the first of two lists of outlines ends where the depth falls back. -/
theorem takeWhile_sites (cs os : List Outline) (n : Nat) (path path' : String)
    (enclosing enclosing' : List String) :
    (sitesOf (n + 1) path enclosing cs ++ sitesOf n path' enclosing' os).takeWhile
        (fun s => n < s.depth) = sitesOf (n + 1) path enclosing cs := by
  have hbelow : ∀ s ∈ sitesOf (n + 1) path enclosing cs, decide (n < s.depth) = true :=
    fun s hs => decide_eq_true (le_depth_sitesOf cs (n + 1) path enclosing s hs)
  rw [List.takeWhile_append_of_pos hbelow]
  cases os with
  | nil => simp [sitesOf]
  | cons o os =>
    obtain ⟨e, cs⟩ := o
    simp [sitesOf, sitesIn]

/-- Outlines can be told from their sites. -/
theorem eq_of_sitesOf_eq : ∀ (os os' : List Outline) {n : Nat} {path : String}
    {enclosing : List String}, sitesOf n path enclosing os = sitesOf n path enclosing os' → os = os'
  | [], [], _, _, _, _ => rfl
  | [], node e cs :: os', n, path, enclosing, h => by simp [sitesOf, sitesIn] at h
  | node e cs :: os, [], n, path, enclosing, h => by simp [sitesOf, sitesIn] at h
  | node e cs :: os, node e' cs' :: os', n, path, enclosing, h => by
    simp only [sitesOf, sitesIn, List.cons_append, List.cons.injEq, Site.mk.injEq,
      Declaration.mk.injEq, and_true] at h
    obtain ⟨rfl, h⟩ := h
    have hcs := congrArg (List.takeWhile fun s => decide (n < s.depth)) h
    rw [takeWhile_sites, takeWhile_sites] at hcs
    rw [hcs] at h
    rw [eq_of_sitesOf_eq cs cs' hcs, eq_of_sitesOf_eq os os' (List.append_cancel_left h)]

theorem eq_of_sites_eq {o o' : Outline} (h : o.sites = o'.sites) : o = o' := by
  have hsites : sitesOf 0 "" [] [o] = sitesOf 0 "" [] [o'] := congrArg (· ++ []) h
  exact List.singleton_inj.1 (eq_of_sitesOf_eq [o] [o'] hsites)

end Outline

/-- The node at a place. -/
def Place.site (p : Place) : Site := ⟨p.declaration, p.above.length⟩

namespace Tree

mutual
theorem map_site_placesAt : ∀ (t : Tree) (slot : Slot) (a : List Step),
    (t.placesAt slot a).map Place.site =
      t.outline.sitesIn a.length (pathAlong a) (scopesAlong a)
  | node i e cs, slot, a => by
    rw [placesAt, outline, Outline.sitesIn, List.map_cons,
      map_site_placesAll cs e.kind true (⟨i, e.kind, slot⟩ :: a)]
    rfl
theorem map_site_placesAll : ∀ (ts : List Tree) (kind : Kind) (first : Bool) (a : List Step),
    (placesAll kind first a ts).map Place.site =
      Outline.sitesOf a.length (pathAlong a) (scopesAlong a) (outlineAll ts)
  | [], _, _, _ => rfl
  | t :: ts, kind, first, a => by
    rw [placesAll, outlineAll, Outline.sitesOf, List.map_append, map_site_placesAt t,
      map_site_placesAll ts]
end

/-- The places of a tree are the sites of its outline. -/
theorem map_site_places (t : Tree) : t.places.map Place.site = t.outline.sites :=
  t.map_site_placesAt .member []

end Tree

end StubMerge
