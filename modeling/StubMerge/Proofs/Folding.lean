import Mathlib.Data.List.Perm.Basic
import StubMerge.Proofs.Coverage
import StubMerge.Proofs.SelfMerge

/-!
# Folding one declaration into another

Two declarations of one name that agree are folded into one, and either may be the one that is
there first. `Kind.fold` and `Kind.agrees` are two tables over the same kinds: a field in which the
two declarations may differ has to be united by the first or else refused by the second.

Here a kind is taken apart into what is united (`signatures`, `values`), what may be spelled
differently (the name of a scope), the visibility, and all the rest (`bare`). Nothing is left over
(`Kind.eq_of_bare`).

**Theorem (`fold_unites`).** A fold has the rest of both sides, and the signatures and values of
both. So the two folds differ in the order of lists and the spelling of names only, with two
exceptions: each has the visibility of the side that was there first, and where an item is repeated
on one side, only the fold into that side repeats it.

The first exception is no matter of order (`fold_of_private`): a method that is private on one side
is not private after the merge, and no conflict is reported.
-/

namespace List

variable {α : Type} [DecidableEq α]

/-- No item is repeated in one list and stands there more or less often than in the other. -/
def Balanced (xs ys : List α) : Prop :=
  ∀ a, xs.count a = ys.count a ∨ xs.count a ≤ 1 ∧ ys.count a ≤ 1

/-- What is there keeps its repetitions, and what is new comes once. -/
theorem count_appendNew (a : α) (xs ys : List α) :
    (xs.appendNew ys).count a = if a ∈ xs then xs.count a else min 1 (ys.count a) := by
  induction ys generalizing xs with
  | nil =>
    rw [appendNew_nil]
    split
    · rfl
    · next ha => rw [count_eq_zero_of_not_mem ha, count_nil, Nat.min_zero]
  | cons y ys ih =>
    rw [appendNew_cons]
    by_cases hy : y ∈ xs
    · rw [if_pos (by simpa using hy), ih]
      split
      · rfl
      · next ha =>
        have hne : y ≠ a := fun he => ha (he ▸ hy)
        rw [count_cons_of_ne hne]
    · rw [if_neg (by simpa using hy), ih]
      by_cases hya : y = a
      · subst hya
        simp [hy, count_eq_zero_of_not_mem hy]
      · by_cases ha : a ∈ xs
        · simp [ha, hya]
        · simp [ha, hya, Ne.symm hya]

/-- Two lists can be appended either way if the repetitions match. -/
theorem perm_appendNew_comm_iff {xs ys : List α} :
    (xs.appendNew ys).Perm (ys.appendNew xs) ↔ xs.Balanced ys := by
  rw [perm_iff_count]
  refine forall_congr' fun a => ?_
  rw [count_appendNew, count_appendNew]
  by_cases hx : a ∈ xs <;> by_cases hy : a ∈ ys
  · have hx' := count_pos_iff.2 hx
    have hy' := count_pos_iff.2 hy
    rw [if_pos hx, if_pos hy]
    omega
  · have hx' := count_pos_iff.2 hx
    have hy' := count_eq_zero_of_not_mem hy
    rw [if_pos hx, if_neg hy]
    omega
  · have hx' := count_eq_zero_of_not_mem hx
    have hy' := count_pos_iff.2 hy
    rw [if_neg hx, if_pos hy]
    omega
  · have hx' := count_eq_zero_of_not_mem hx
    have hy' := count_eq_zero_of_not_mem hy
    rw [if_neg hx, if_neg hy]
    omega

end List

namespace StubMerge

namespace Kind

variable {k k' l r : Kind} {path : String}

/-! ## The parts of a kind -/

/-- The visibility of what is declared. -/
def visibility? : Kind → Option Visibility
  | leaf (.method m) => some m.visibility
  | leaf (.attr a) => some a.visibility
  | _ => none

/-- What is declared, without visibility, signatures and values, and without the name of a scope. -/
def bare : Kind → Kind
  | scope (.moduleOf _) => scope (.moduleOf "")
  | scope (.classOf _ superclass) => scope (.classOf "" superclass)
  | scope (.structOf _ members keywordInit) => scope (.structOf "" members keywordInit)
  | leaf (.method m) => leaf (.method { m with visibility := .everyone, signatures := [] })
  | leaf (.attr a) => leaf (.attr { a with visibility := .everyone, signatures := [] })
  | leaf (.enums _) => leaf (.enums [])
  | k => k

/-- A bare kind with its other parts put back. -/
def dress (name : String) (visibility : Visibility) (signatures : List Signature)
    (values : List String) : Kind → Kind
  | scope (.moduleOf _) => scope (.moduleOf name)
  | scope (.classOf _ superclass) => scope (.classOf name superclass)
  | scope (.structOf _ members keywordInit) => scope (.structOf name members keywordInit)
  | leaf (.method m) => leaf (.method { m with visibility, signatures })
  | leaf (.attr a) => leaf (.attr { a with visibility, signatures })
  | leaf (.enums _) => leaf (.enums values)
  | k => k

theorem dress_bare (k : Kind) :
    k.bare.dress (k.scopeName?.getD "") (k.visibility?.getD .everyone) k.signatures k.values =
      k := by
  cases k with
  | scope s => cases s <;> rfl
  | leaf l => cases l <;> rfl
  | _ => rfl

/-- The parts of a kind are all of it. -/
theorem eq_of_bare (hbare : k.bare = k'.bare) (hname : k.scopeName? = k'.scopeName?)
    (hvisibility : k.visibility? = k'.visibility?) (hsigs : k.signatures = k'.signatures)
    (hvalues : k.values = k'.values) : k = k' := by
  rw [← dress_bare k, hbare, hname, hvisibility, hsigs, hvalues, dress_bare]

/-- Two kinds are equal up to the order of signatures and values and the spelling of a name. -/
structure IsLike (path : String) (k k' : Kind) : Prop where
  bare : k.bare = k'.bare
  keys : k.keys path = k'.keys path
  visibility : k.visibility? = k'.visibility?
  signatures : k.signatures.Perm k'.signatures
  values : k.values.Perm k'.values

/-- `k` says what `l` and `r` say, the visibility of `r` apart. -/
structure Unites (path : String) (k l r : Kind) : Prop where
  bare_left : k.bare = l.bare
  bare_right : k.bare = r.bare
  keys : k.keys path = l.keys path
  visibility : k.visibility? = l.visibility?
  signatures : ∀ s, s ∈ k.signatures ↔ s ∈ l.signatures ∨ s ∈ r.signatures
  values : ∀ v, v ∈ k.values ↔ v ∈ l.values ∨ v ∈ r.values

/-! ## The parts of a fold -/

/-- A fold changes signatures and values only. -/
theorem parts_fold (l r : Kind) (path : String) :
    (l.fold r).bare = l.bare ∧ (l.fold r).keys path = l.keys path ∧
      (l.fold r).visibility? = l.visibility? := by
  cases l with
  | leaf x =>
    cases r with
    | leaf y => cases x <;> cases y <;> exact ⟨rfl, rfl, rfl⟩
    | _ => exact ⟨rfl, rfl, rfl⟩
  | _ => exact ⟨rfl, rfl, rfl⟩

/-- What a fold changes is united. -/
theorem lists_fold (h : l.agrees r = true) :
    (l.fold r).signatures = l.signatures.appendNew r.signatures ∧
      (l.fold r).values = l.values.appendNew r.values := by
  cases l with
  | scope s =>
    cases r with
    | scope s' => exact ⟨rfl, rfl⟩
    | _ => cases h
  | leaf x =>
    cases r with
    | leaf y => cases x <;> cases y <;> first | exact ⟨rfl, rfl⟩ | cases h
    | _ => cases h
  | _ => cases h

/-- What may differ between declarations that agree is not part of the bare ones. Whether a method
belongs to the scope itself is not compared, but can be seen from its key. -/
theorem bare_eq_of_agrees (h : l.agrees r = true) (hkeys : l.keys path = r.keys path) :
    l.bare = r.bare := by
  cases l with
  | scope s =>
    cases r with
    | scope s' => cases Scope.sameHeader_iff_agrees.2 h <;> rfl
    | _ => cases h
  | leaf x =>
    cases r with
    | leaf y =>
      have hagrees : x.agrees y = true := h
      cases x <;> cases y <;> simp only [Leaf.agrees, Bool.and_eq_true, beq_iff_eq,
        Bool.false_eq_true] at hagrees
      case method.method m m' =>
        obtain ⟨⟨hname, hparams⟩, -⟩ := hagrees
        have hkey := List.head_eq_of_cons_eq hkeys
        have hsingle : m.isSingleton = m'.isSingleton :=
          isSingleton_eq_of_joinPath (hname ▸ hkey)
        simp only [bare, hname, hparams, hsingle]
      case attr.attr a a' =>
        obtain ⟨⟨hkind, hnames⟩, -⟩ := hagrees
        simp only [bare, hkind, hnames]
      case enums.enums => rfl
      all_goals simp only [bare, hagrees]
    | _ => cases h
  | _ => cases h

theorem unites_fold (h : l.agrees r = true) (hkeys : l.keys path = r.keys path) :
    (l.fold r).Unites path l r := by
  obtain ⟨hbare, hkeys', hvisibility⟩ := parts_fold l r path
  obtain ⟨hsigs, hvalues⟩ := lists_fold h
  refine ⟨hbare, hbare.trans (bare_eq_of_agrees h hkeys), hkeys', hvisibility, fun s => ?_,
    fun v => ?_⟩
  · rw [hsigs, List.mem_appendNew]
  · rw [hvalues, List.mem_appendNew]

theorem isLike_fold_iff (h : l.agrees r = true) (hkeys : l.keys path = r.keys path) :
    (l.fold r).IsLike path (r.fold l) ↔ l.visibility? = r.visibility? ∧
      l.signatures.Balanced r.signatures ∧ l.values.Balanced r.values := by
  obtain ⟨hbare, hkeys₁, hvisibility₁⟩ := parts_fold l r path
  obtain ⟨hbare', hkeys₂, hvisibility₂⟩ := parts_fold r l path
  obtain ⟨hsigs₁, hvalues₁⟩ := lists_fold h
  obtain ⟨hsigs₂, hvalues₂⟩ := lists_fold (agrees_comm l r ▸ h)
  constructor
  · intro hlike
    have hvisibility := hlike.visibility
    have hsigs := hlike.signatures
    have hvalues := hlike.values
    rw [hvisibility₁, hvisibility₂] at hvisibility
    rw [hsigs₁, hsigs₂, List.perm_appendNew_comm_iff] at hsigs
    rw [hvalues₁, hvalues₂, List.perm_appendNew_comm_iff] at hvalues
    exact ⟨hvisibility, hsigs, hvalues⟩
  · rintro ⟨hvisibility, hsigs, hvalues⟩
    exact {
      bare := by rw [hbare, hbare', bare_eq_of_agrees h hkeys]
      keys := by rw [hkeys₁, hkeys₂, hkeys]
      visibility := by rw [hvisibility₁, hvisibility₂, hvisibility]
      signatures := by rwa [hsigs₁, hsigs₂, List.perm_appendNew_comm_iff]
      values := by rwa [hvalues₁, hvalues₂, List.perm_appendNew_comm_iff] }

end Kind

/-- Of two declarations of one name that agree, either can be folded into the other. Both folds say
all that the two say, apart from the visibility of the one that is folded in. They are equal, up to
order and spelling, exactly if both have the same visibility and no item is repeated on one side
only. -/
theorem fold_unites {l r : Kind} {path : String} (h : l.agrees r = true)
    (hkeys : l.keys path = r.keys path) :
    (l.fold r).Unites path l r ∧ (r.fold l).Unites path r l ∧
      ((l.fold r).IsLike path (r.fold l) ↔ l.visibility? = r.visibility? ∧
        l.signatures.Balanced r.signatures ∧ l.values.Balanced r.values) :=
  ⟨Kind.unites_fold h hkeys, Kind.unites_fold (Kind.agrees_comm l r ▸ h) hkeys.symm,
    Kind.isLike_fold_iff h hkeys⟩

/-- A reader with some signatures. -/
def wheelsReader (signatures : List Signature) : Kind :=
  .leaf (.attr { names := ["wheels"], visibility := .family, signatures })

/-- One of two readers has a signature. -/
theorem fold_unites_reader :
    (wheelsReader []).agrees (wheelsReader [{ result := some "Integer" }]) = true ∧
      (wheelsReader []).keys "Car" = (wheelsReader [{ result := some "Integer" }]).keys "Car" ∧
      ((wheelsReader []).fold (wheelsReader [{ result := some "Integer" }])).IsLike "Car"
        ((wheelsReader [{ result := some "Integer" }]).fold (wheelsReader [])) := by
  have hagrees : (wheelsReader []).agrees (wheelsReader [{ result := some "Integer" }]) = true := by
    decide
  have hkeys : (wheelsReader []).keys "Car" =
      (wheelsReader [{ result := some "Integer" }]).keys "Car" := rfl
  obtain ⟨-, -, hlike⟩ := fold_unites hagrees hkeys
  refine ⟨hagrees, hkeys, hlike.2 ⟨rfl, fun s => .inr ⟨?_, ?_⟩, fun v => .inl rfl⟩⟩
  · exact Nat.zero_le 1
  · exact List.count_le_length

/-- A method that some may call. -/
def fooFor (visibility : Visibility) : Kind := .leaf (.method { name := "foo", visibility })

/-- A public method and a private one of its name agree. Whichever is folded into the other keeps
its visibility, and that of the other is lost. -/
theorem fold_of_private :
    (fooFor .everyone).agrees (fooFor .owner) = true ∧
      (fooFor .everyone).keys "" = (fooFor .owner).keys "" ∧
      (fooFor .everyone).fold (fooFor .owner) = fooFor .everyone ∧
      (fooFor .owner).fold (fooFor .everyone) = fooFor .owner ∧
      ¬ (fooFor .everyone).IsLike "" (fooFor .owner) := by
  refine ⟨by decide, rfl, rfl, rfl, fun h => ?_⟩
  cases h.visibility

end StubMerge
