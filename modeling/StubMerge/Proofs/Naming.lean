import Mathlib.Data.List.DropRight
import StubMerge.Proofs.Passes

/-!
# Names that tell where they are

A qualified name is put together from the names of scopes and that of a member. If none of these
has a mark in it that is used for putting names together, a qualified name can be taken apart again:
`pathOf` reads off the path of the scope that the member is in (`Kind.pathOf_key`). So two
declarations that share a name are in scopes of the same names (`Nested.unique`), whatever they
declare and whichever outline they come from.
-/

namespace StubMerge

/-- Whether a name is a single part: it has no mark that qualified names are put together with. -/
def isPlainName (name : String) : Bool := name.toList.all fun c => c != ':' && c != '#' && c != '.'

/-- Whether the names that a declaration contributes to qualified names are single parts. -/
def Kind.isPlain : Kind → Bool
  | scope s => !s.name.isEmpty && isPlainName s.name
  | leaf (.const name _) | leaf (.typeMember name _) => isPlainName name
  | leaf (.method m) => isPlainName m.name
  | _ => true

/-- Whether a character sets a member off that is not found by its path alone. -/
def isMark (c : Char) : Bool := c == '#' || c == '.'

/-- The path in a qualified name: what is before the first mark or, without one, before the last
separator. -/
def pathOf (key : String) : String :=
  let cs := key.toList
  String.ofList <|
    if cs.any isMark then cs.takeWhile fun c => !isMark c
    else (cs.rdropWhile fun c => c != ':').dropLast.dropLast

/-! ## Taking names apart -/

theorem qualify_eq_joinPath {name : String} (h : isPlainName name = true) (path : String) :
    qualify path name = joinPath path pathSeparator name := by
  unfold qualify
  split
  · next rest hname => simp [isPlainName, hname] at h
  · rfl

theorem toList_joinPath (path name : String) :
    (joinPath path pathSeparator name).toList =
      if path = "" then name.toList else path.toList ++ ':' :: ':' :: name.toList := by
  by_cases h : path = ""
  · simp [joinPath, h]
  · have hempty : path.isEmpty = false := by simpa using h
    have hsep : pathSeparator.toList = [':', ':'] := rfl
    simp [joinPath, hempty, h, hsep]

/-- In one scope, names that are single parts are told apart. -/
theorem qualify_inj {path name name' : String} (hname : isPlainName name = true)
    (hname' : isPlainName name' = true) (h : qualify path name = qualify path name') :
    name = name' := by
  rw [qualify_eq_joinPath hname, qualify_eq_joinPath hname'] at h
  have hlist := congrArg String.toList h
  rw [toList_joinPath, toList_joinPath] at hlist
  refine String.toList_inj.1 ?_
  split at hlist
  · exact hlist
  · simpa using hlist

/-- The path of a member that is found by its path alone. -/
theorem pathOf_joinPath {path name : String} (hpath : path.toList.any isMark = false)
    (hname : isPlainName name = true) : pathOf (joinPath path pathSeparator name) = path := by
  have hplain : ∀ c ∈ name.toList, (c ≠ ':' ∧ c ≠ '#') ∧ c ≠ '.' := by
    simpa [isPlainName] using hname
  have hmark : name.toList.any isMark = false := by
    rw [List.any_eq_false]
    intro c hc
    obtain ⟨⟨-, hhash⟩, hdot⟩ := hplain c hc
    simp [isMark, hhash, hdot]
  have hdrop : name.toList.rdropWhile (fun c => c != ':') = [] := by
    rw [List.rdropWhile_eq_nil_iff]
    intro c hc
    simpa using (hplain c hc).1.1
  unfold pathOf
  rw [toList_joinPath]
  split
  · next h => simp [hmark, hdrop, h]
  · have hcolon : isMark ':' = false := rfl
    have hcut : (path.toList ++ ':' :: ':' :: name.toList).rdropWhile (fun c => c != ':') =
        path.toList ++ [':', ':'] := by
      have hpos : ∀ c ∈ name.toList.reverse, (fun c => c != ':') c = true := fun c hc => by
        simpa using (hplain c (List.mem_reverse.1 hc)).1.1
      have hrev : (path.toList ++ ':' :: ':' :: name.toList).reverse =
          name.toList.reverse ++ ':' :: ':' :: path.toList.reverse := by simp
      rw [List.rdropWhile, hrev, List.dropWhile_append_of_pos hpos]
      simp
    simp only [List.any_append, List.any_cons, hpath, hmark, hcolon, hcut, Bool.or_self,
      Bool.false_eq_true, if_false]
    rw [List.dropLast_append_of_ne_nil (by simp), List.dropLast_append_of_ne_nil (by simp)]
    simp

/-- The path of a member that a mark sets off. -/
theorem pathOf_append {path rest : String} (hpath : path.toList.any isMark = false)
    (hrest : rest.toList.head?.any isMark = true) : pathOf (path ++ rest) = path := by
  obtain ⟨c, hhead, hc⟩ := (Option.any_eq_true ..).1 hrest
  obtain ⟨cs, hcs⟩ := List.head?_eq_some_iff.1 hhead
  have hpos : ∀ x ∈ path.toList, (!isMark x) = true := by
    simpa [List.any_eq_false] using hpath
  unfold pathOf
  simp only [String.toList_append, hcs, List.any_append, List.any_cons, hc, Bool.true_or,
    Bool.or_true, if_true]
  rw [List.takeWhile_append_of_pos hpos]
  simp [hc]

/-- The name of a reader, as that of a writer, tells the path of their scope. -/
theorem pathOf_accessor {path name key : String} (hpath : path.toList.any isMark = false)
    (hkey : key = joinPath path "#" name ∨ key = joinPath path "#" name ++ "=") :
    pathOf key = path := by
  have hreader : joinPath path "#" name = path ++ ("#" ++ name) := by
    simp [joinPath, pathSeparator, String.append_assoc]
  rcases hkey with rfl | rfl <;> rw [hreader]
  · exact pathOf_append hpath (by simp [isMark])
  · rw [String.append_assoc]
    exact pathOf_append hpath (by simp [isMark])

/-- A name of a declaration tells the path of the scope that the declaration is in. -/
theorem Kind.pathOf_key {kind : Kind} {path key : String} (hpath : path.toList.any isMark = false)
    (hkind : kind.isPlain = true) (hkey : key ∈ kind.keys path) : pathOf key = path := by
  have hdot : ∀ rest, pathOf (path ++ ("." ++ rest)) = path := fun rest =>
    pathOf_append hpath (by simp [isMark])
  cases kind with
  | group | conflict _ | scopeConflict _ => simp [Kind.keys] at hkey
  | scope s =>
    have hname : isPlainName s.name = true := (Bool.and_eq_true_iff.1 hkind).2
    rw [List.mem_singleton.1 hkey, qualify_eq_joinPath hname]
    exact pathOf_joinPath hpath hname
  | leaf l =>
    cases l <;> simp only [Kind.keys, Leaf.keys, List.mem_singleton, List.mem_flatMap,
      List.mem_map] at hkey
    case const name _ | typeMember name _ =>
      rw [hkey]
      exact pathOf_joinPath hpath hkind
    case method m =>
      rw [hkey]
      cases m.isSingleton with
      | true => exact pathOf_joinPath hpath hkind
      | false => exact pathOf_accessor hpath (.inl rfl)
    case attr a =>
      obtain ⟨name, -, hkey⟩ := hkey
      apply pathOf_accessor hpath
      cases hk : a.kind <;> simp only [hk, List.mem_cons, List.not_mem_nil, or_false] at hkey
      · exact .inl hkey
      · exact .inr hkey
      · exact hkey
    case field f =>
      apply pathOf_accessor hpath
      cases hk : f.kind <;> simp only [hk, List.mem_cons, List.not_mem_nil, or_false] at hkey
      · exact .inl hkey
      · exact hkey
    case mixin kind names =>
      obtain ⟨name, -, rfl⟩ := hkey
      simp only [String.append_assoc]
      exact hdot _
    case helper name | send name _ =>
      rw [hkey]
      simp only [String.append_assoc]
      exact hdot _
    case requiresAncestor name =>
      rw [hkey, String.append_assoc, String.append_assoc]
      exact pathOf_append hpath (by simp [isMark])
    case enums _ =>
      rw [hkey]
      exact pathOf_append hpath (by simp [isMark])

/-! ## Scopes inside scopes -/

/-- `path` is the path of a scope, and `enclosing` has the qualified names from there upwards. -/
inductive Nested : String → List String → Prop
  | top : Nested "" []
  | within {path : String} {enclosing : List String} {s : Scope} :
      Nested path enclosing → (Kind.scope s).isPlain = true →
      Nested (qualify path s.name) (qualify path s.name :: enclosing)

namespace Nested

variable {path : String} {enclosing enclosing' : List String}

theorem any_isMark (h : Nested path enclosing) : path.toList.any isMark = false := by
  induction h with
  | top => rfl
  | @within path enclosing s _ hs ih =>
    have hname : isPlainName s.name = true := (Bool.and_eq_true_iff.1 hs).2
    have hmark : s.name.toList.any isMark = false := by
      rw [List.any_eq_false]
      intro c hc
      have hplain : ∀ c ∈ s.name.toList, (c ≠ ':' ∧ c ≠ '#') ∧ c ≠ '.' := by
        simpa [isPlainName] using hname
      obtain ⟨⟨-, hhash⟩, hdot⟩ := hplain c hc
      simp [isMark, hhash, hdot]
    rw [qualify_eq_joinPath hname, toList_joinPath]
    split
    · exact hmark
    · simpa [ih, isMark] using hmark

/-- The path is the name of the nearest scope. -/
theorem path_eq_headD (h : Nested path enclosing) : path = enclosing.headD "" := by
  cases h <;> rfl

theorem qualify_ne_empty {s : Scope} (hs : (Kind.scope s).isPlain = true) :
    qualify path s.name ≠ "" := by
  obtain ⟨hne, hname⟩ := Bool.and_eq_true_iff.1 hs
  intro h
  have hlist := congrArg String.toList h
  rw [qualify_eq_joinPath hname, toList_joinPath] at hlist
  split at hlist
  · simp_all
  · simp at hlist

/-- A path says which scopes there are above. -/
theorem unique (h : Nested path enclosing) (h' : Nested path enclosing') :
    enclosing = enclosing' := by
  induction h generalizing enclosing' with
  | top =>
    generalize hp : ("" : String) = p at h'
    cases h' with
    | top => rfl
    | within _ hs => exact absurd hp.symm (qualify_ne_empty hs)
  | @within path enclosing s hpath hs ih =>
    generalize hp : qualify path s.name = p at h'
    cases h' with
    | top => exact absurd hp (qualify_ne_empty hs)
    | @within path' enclosing' s' hpath' hs' =>
      -- The path of the scope around is read off the name.
      have heq : path = path' := by
        have hl : pathOf (qualify path s.name) = path :=
          Kind.pathOf_key hpath.any_isMark hs (List.mem_singleton_self _)
        have hr : pathOf (qualify path' s'.name) = path' :=
          Kind.pathOf_key hpath'.any_isMark hs' (List.mem_singleton_self _)
        rw [← hl, ← hr, hp]
      subst heq
      rw [ih hpath']

end Nested

/-! ## Declarations of an outline -/

namespace Outline

/-- The declarations of a file: its top is no scope, whatever kind it has. -/
def declarations (o : Outline) : List Declaration := declarationsOf "" [] o.children

mutual
theorem nested_declarationsIn : ∀ (o : Outline) {path : String} {enclosing : List String},
    Nested path enclosing → (∀ d ∈ o.declarationsIn path enclosing, d.kind.isPlain = true) →
    ∀ d ∈ o.declarationsIn path enclosing, Nested d.path d.enclosing
  | node e cs, path, enclosing, h, hplain => by
    rw [declarationsIn] at hplain ⊢
    cases hk : e.kind with
    | scope s =>
      simp only [hk] at hplain ⊢
      have hs : e.kind.isPlain = true := hplain _ List.mem_cons_self
      rw [hk] at hs
      intro d hd
      rcases List.mem_cons.1 hd with rfl | hd
      · exact h
      · exact nested_declarationsOf cs (h.within hs)
          (fun d hd => hplain d (List.mem_cons_of_mem _ hd)) d hd
    | leaf l =>
      simp only [hk] at hplain ⊢
      intro d hd
      rcases List.mem_cons.1 hd with rfl | hd
      · exact h
      · exact nested_declarationsOf cs h (fun d hd => hplain d (List.mem_cons_of_mem _ hd)) d hd
    | group | conflict _ | scopeConflict _ =>
      simp only [hk] at hplain ⊢
      exact nested_declarationsOf cs h hplain
/-- What an outline declares is in the scopes that it says. -/
theorem nested_declarationsOf : ∀ (os : List Outline) {path : String} {enclosing : List String},
    Nested path enclosing → (∀ d ∈ declarationsOf path enclosing os, d.kind.isPlain = true) →
    ∀ d ∈ declarationsOf path enclosing os, Nested d.path d.enclosing
  | [], _, _, _, _ => by simp [declarationsOf]
  | o :: os, path, enclosing, h, hplain => by
    rw [declarationsOf] at hplain ⊢
    intro d hd
    rcases List.mem_append.1 hd with hd | hd
    · exact nested_declarationsIn o h (fun d hd => hplain d (List.mem_append_left _ hd)) d hd
    · exact nested_declarationsOf os h (fun d hd => hplain d (List.mem_append_right _ hd)) d hd
end

mutual
theorem enclosing_declarationsIn : ∀ (o : Outline) {path : String} {enclosing : List String},
    ∀ d ∈ o.declarationsIn path enclosing, ∀ name ∈ d.enclosing, name ∈ enclosing ∨
      ∃ s ∈ o.declarationsIn path enclosing, s.kind.isScope = true ∧ s.keys = [name]
  | node e cs, path, enclosing => by
    rw [declarationsIn]
    cases hk : e.kind with
    | scope s =>
      dsimp only
      intro d hd name hname
      rcases List.mem_cons.1 hd with rfl | hd
      · exact .inl hname
      · rcases enclosing_declarationsOf cs d hd name hname with hname | ⟨x, hx, hscope, hkeys⟩
        · rcases List.mem_cons.1 hname with rfl | hname
          · have hscope : (Declaration.kind ⟨e, path, enclosing⟩).isScope = true := by
              rw [Declaration.kind, hk]
              rfl
            refine .inr ⟨_, List.mem_cons_self, hscope, ?_⟩
            rw [Declaration.keys, Kind.keys_of_scope hscope, Declaration.kind, hk]
          · exact .inl hname
        · exact .inr ⟨x, List.mem_cons_of_mem _ hx, hscope, hkeys⟩
    | leaf l =>
      dsimp only
      intro d hd name hname
      rcases List.mem_cons.1 hd with rfl | hd
      · exact .inl hname
      · exact (enclosing_declarationsOf cs d hd name hname).imp_right
          fun ⟨x, hx, hrest⟩ => ⟨x, List.mem_cons_of_mem _ hx, hrest⟩
    | group | conflict _ | scopeConflict _ =>
      dsimp only
      exact enclosing_declarationsOf cs
/-- The scopes that a declaration is in are declarations themselves. -/
theorem enclosing_declarationsOf : ∀ (os : List Outline) {path : String} {enclosing : List String},
    ∀ d ∈ declarationsOf path enclosing os, ∀ name ∈ d.enclosing, name ∈ enclosing ∨
      ∃ s ∈ declarationsOf path enclosing os, s.kind.isScope = true ∧ s.keys = [name]
  | [], _, _ => by simp [declarationsOf]
  | o :: os, path, enclosing => by
    rw [declarationsOf]
    intro d hd name hname
    rcases List.mem_append.1 hd with hd | hd
    · exact (enclosing_declarationsIn o d hd name hname).imp_right
        fun ⟨x, hx, hrest⟩ => ⟨x, List.mem_append_left _ hx, hrest⟩
    · exact (enclosing_declarationsOf os d hd name hname).imp_right
        fun ⟨x, hx, hrest⟩ => ⟨x, List.mem_append_right _ hx, hrest⟩
end

end Outline

end StubMerge
