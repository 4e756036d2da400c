import Mathlib.Data.Prod.Lex
import StubMerge.Proofs.Totality

/-!
# What is read later stands later

A reader only moves on, so all that it notes about places grows along the text. Each declaration
below the file is from a part of it that begins and ends with a token, a scope encloses what is
declared in it, and of two neighbours the second begins where the first has ended, or behind it.
Problems are told in the order of the tokens at which they were found.

**Theorem (`read_in_order`).** A text that can be read is read in order (`Reading.IsInOrder`).

Tokens are in order because they cover the text one behind the other (`Covers.inOrder`). A walk of
the cursor keeps its tokens in order and its problems sorted (`Cursor.IsInOrder.walk`), and every
statement begins at the token where the cursor stands (`Cursor.beginsAt_statement`). The invariant
of a draft is `OpenAt`: the members of the innermost scope are between its header and the last token
that was passed, and those of each scope around it are before the header of the next.
-/

namespace StubMerge

/-! ## Points -/

namespace Position

/-- The line and the column of a point. Lines are compared first. -/
def place (p : Position) : ℕ ×ₗ ℕ := toLex (p.line, p.column)

/-- One point is before another by its offset, and by its line and column. -/
instance : Preorder Position := Preorder.lift fun p => (p.offset, p.place)

theorem le_step (p : Position) (c : Char) : p ≤ p.step c := by
  unfold step
  split
  · exact ⟨Nat.le_add_right _ _, Prod.Lex.toLex_le_toLex.2 (.inl (Nat.lt_succ_self _))⟩
  · exact ⟨Nat.le_add_right _ _, Prod.Lex.toLex_le_toLex.2 (.inr ⟨rfl, Nat.le_add_right _ _⟩)⟩

theorem le_advance (p : Position) (cs : List Char) : p ≤ p.advance cs := by
  induction cs generalizing p with
  | nil => exact le_rfl
  | cons c cs ih => exact (p.le_step c).trans (ih (p.step c))

end Position

/-! ## Tokens -/

/-- Tokens stand one behind the other, and behind a point. -/
structure InOrder (p : Position) (ts : List Token) : Prop where
  after : ∀ t ∈ ts, p ≤ t.start
  start_le : ∀ t ∈ ts, t.start ≤ t.stop
  pairwise : ts.Pairwise fun t u => t.stop ≤ u.start

theorem Covers.inOrder {p : Position} {cs : List Char} {ts : List Token} (h : Covers p cs ts) :
    InOrder p ts := by
  induction h with
  | nil => exact ⟨by simp, by simp, .nil⟩
  | @cons p gap rest t ts hgap hstart hstop _ ih =>
    have hfirst : p ≤ t.start := hstart ▸ p.le_advance gap
    have hlast : t.start ≤ t.stop := hstop ▸ t.start.le_advance _
    exact
      { after := List.forall_mem_cons.2
          ⟨hfirst, fun u hu => (hfirst.trans hlast).trans (ih.after u hu)⟩
        start_le := List.forall_mem_cons.2 ⟨hlast, ih.start_le⟩
        pairwise := List.pairwise_cons.2 ⟨ih.after, ih.pairwise⟩ }

namespace InOrder

variable {p : Position} {t : Token} {ts us : List Token}

theorem sublist (h : InOrder p us) (hs : ts.Sublist us) : InOrder p ts :=
  ⟨fun t ht => h.after t (hs.subset ht), fun t ht => h.start_le t (hs.subset ht),
    h.pairwise.sublist hs⟩

/-- Behind some of the tokens, the others are in order from the last of them on. -/
theorem drop (h : InOrder p (ts ++ us)) : InOrder (ts.getLast?.elim p Token.stop) us := by
  have hus := h.sublist (List.sublist_append_right ts us)
  cases hlast : ts.getLast? with
  | none => exact hus
  | some t =>
    have ht : t ∈ ts := List.mem_of_getLast? hlast
    have hafter := (List.pairwise_append.1 h.pairwise).2.2 t ht
    exact ⟨hafter, hus.start_le, hus.pairwise⟩

/-- No token starts before the first of them. -/
theorem head_le (h : InOrder p (t :: ts)) {u : Token} (hu : u ∈ t :: ts) : t.start ≤ u.start := by
  rcases List.mem_cons.1 hu with rfl | hu
  · exact le_rfl
  · have hstop := (List.pairwise_cons.1 h.pairwise).1 u hu
    exact (h.start_le t List.mem_cons_self).trans hstop

end InOrder

/-! ## Cursors -/

/-- A problem with the part of the text that one of the tokens takes. -/
def Diagnostic.IsAt (ts : List Token) (d : Diagnostic) : Prop :=
  ∃ t ∈ ts, d.start = t.start ∧ d.stop = t.stop

namespace Cursor

/-- The tokens from the current one on, with the one that marks the end. -/
def ahead (c : Cursor) : List Token := c.rest ++ [c.close]

theorem ahead_eq_cons (c : Cursor) : ∃ later, c.ahead = c.peek :: later := by
  unfold ahead peek nth
  cases c.rest with
  | nil => exact ⟨[], rfl⟩
  | cons t ts => exact ⟨ts ++ [c.close], rfl⟩

theorem peek_mem_ahead (c : Cursor) : c.peek ∈ c.ahead := by
  obtain ⟨later, hlater⟩ := c.ahead_eq_cons
  rw [hlater]
  exact List.mem_cons_self

theorem ahead_eq_append (c : Cursor) (n : Nat) : c.ahead = c.rest.take n ++ (c.skip n).ahead := by
  rw [ahead, ahead, skip, ← List.append_assoc, List.take_append_drop]

theorem Walk.file_eq {c c' : Cursor} (h : c.Walk c') : c'.file = c.file := by
  obtain ⟨n, hn⟩ := h.reaches.moves
  rw [hn]
  rfl

/-- What is ahead of the cursor are tokens of `ts`, in order, and so far problems were found at
tokens of `ts`, in order, none of them behind the current one. -/
structure IsInOrder (ts : List Token) (c : Cursor) : Prop where
  subset : c.ahead ⊆ ts
  inOrder : InOrder c.consumed c.ahead
  sorted : c.diagnostics.toList.Pairwise fun d d' => d.start ≤ d'.start
  start_le : ∀ d ∈ c.diagnostics.toList, d.start ≤ c.peek.start
  isAt : ∀ d ∈ c.diagnostics.toList, d.IsAt ts

namespace IsInOrder

variable {ts : List Token} {c c' : Cursor}

theorem consumed_le (h : c.IsInOrder ts) : c.consumed ≤ c.peek.start :=
  h.inOrder.after _ c.peek_mem_ahead

theorem start_peek (h : c.IsInOrder ts) : ∃ t ∈ ts, c.peek.start = t.start :=
  ⟨c.peek, h.subset c.peek_mem_ahead, rfl⟩

theorem peek_le (h : c.IsInOrder ts) {t : Token} (ht : t ∈ c.ahead) : c.peek.start ≤ t.start := by
  obtain ⟨later, hlater⟩ := c.ahead_eq_cons
  have hinOrder := h.inOrder
  rw [hlater] at ht hinOrder
  exact hinOrder.head_le ht

theorem skip (h : c.IsInOrder ts) (n : Nat) : (c.skip n).IsInOrder ts := by
  have hahead := c.ahead_eq_append n
  have hsub : (c.skip n).ahead ⊆ c.ahead := by
    rw [hahead]
    exact List.subset_append_right _ _
  have hpeek := h.peek_le (hsub (c.skip n).peek_mem_ahead)
  exact
    { subset := List.Subset.trans hsub h.subset
      inOrder := (hahead ▸ h.inOrder).drop
      sorted := h.sorted
      start_le := fun d hd => (h.start_le d hd).trans hpeek
      isAt := h.isAt }

theorem report (h : c.IsInOrder ts) (p : Problem) : (c.report p).IsInOrder ts := by
  have hds : (c.report p).diagnostics.toList =
      c.diagnostics.toList ++ [⟨p, c.peek.start, c.peek.stop⟩] := Array.toList_push
  refine ⟨h.subset, h.inOrder, ?_, ?_, ?_⟩
  · rw [hds]
    refine List.pairwise_append.2 ⟨h.sorted, List.pairwise_singleton _ _, fun d hd d' hd' => ?_⟩
    rw [List.mem_singleton.1 hd']
    exact h.start_le d hd
  · rw [hds]
    exact List.forall_mem_append.2 ⟨h.start_le, List.forall_mem_singleton.2 le_rfl⟩
  · rw [hds]
    exact List.forall_mem_append.2 ⟨h.isAt,
      List.forall_mem_singleton.2 ⟨c.peek, h.subset c.peek_mem_ahead, rfl, rfl⟩⟩

theorem reportIf (h : c.IsInOrder ts) (wrong : Bool) (p : Problem) :
    (c.reportIf wrong p).IsInOrder ts := by
  unfold Cursor.reportIf
  split
  · exact h.report p
  · exact h

/-- **A walk keeps the order.** -/
theorem walk (h : c.IsInOrder ts) (hwalk : c.Walk c') : c'.IsInOrder ts := by
  induction hwalk with
  | refl => exact h
  | skip _ n ih => exact ih.skip n
  | report _ p _ ih => exact ih.report p

/-- A walk passes no token, or the last one that it passes is not before the current one. -/
theorem consumed_eq_or (h : c.IsInOrder ts) (hwalk : c.Walk c') :
    c'.remaining = c.remaining ∧ c'.consumed = c.consumed ∨
      ∃ t ∈ ts, c'.consumed = t.stop ∧ c.peek.start ≤ t.stop := by
  obtain ⟨n, hn⟩ := hwalk.reaches.moves
  have hrest : c'.rest = c.rest.drop n := by rw [hn]; rfl
  have hconsumed : c'.consumed = (c.rest.take n).getLast?.elim c.consumed Token.stop := by
    rw [hn]; rfl
  cases hlast : (c.rest.take n).getLast? with
  | none =>
    have hnil := List.getLast?_eq_none_iff.1 hlast
    have hall : c.rest.drop n = c.rest := by
      conv_rhs => rw [← List.take_append_drop n c.rest, hnil, List.nil_append]
    exact .inl ⟨by rw [remaining, hrest, hall, remaining], by rw [hconsumed, hlast]; rfl⟩
  | some t =>
    have ht : t ∈ c.ahead :=
      List.mem_append_left _ (List.mem_of_mem_take (List.mem_of_getLast? hlast))
    refine .inr ⟨t, h.subset ht, by rw [hconsumed, hlast]; rfl, ?_⟩
    exact (h.peek_le ht).trans (h.inOrder.start_le t ht)

/-- If a walk passes a token, the last one ends behind the start of the current one. -/
theorem stop_of_lt (h : c.IsInOrder ts) (hwalk : c.Walk c') (hlt : c'.remaining < c.remaining) :
    (∃ t ∈ ts, c'.consumed = t.stop) ∧ c.peek.start ≤ c'.consumed := by
  rcases h.consumed_eq_or hwalk with ⟨hsame, -⟩ | ⟨t, ht, heq, hle⟩
  · exact absurd hsame hlt.ne
  · exact ⟨⟨t, ht, heq⟩, heq ▸ hle⟩

theorem consumed_le_walk (h : c.IsInOrder ts) (hwalk : c.Walk c') : c.consumed ≤ c'.consumed := by
  rcases h.consumed_eq_or hwalk with ⟨-, heq⟩ | ⟨t, -, heq, hle⟩
  · exact heq.ge
  · exact heq ▸ h.consumed_le.trans hle

end IsInOrder

/-- The cursor before the first token of a text. -/
theorem isInOrder_ofText (text : String) (file : Option String) :
    (ofTokens file (TokenList.ofText text).significant).IsInOrder
      (TokenList.ofText text).toList := by
  have hsub : (TokenList.ofText text).significant.toList.Sublist (TokenList.ofText text).toList :=
    (significant_sublist _).append (.refl _)
  have hcovers : Covers .origin text.toList (TokenList.ofText text).toList :=
    (Scanner.ofText text).covers_run
  exact ⟨hsub.subset, hcovers.inOrder.sublist hsub, .nil, by simp [ofTokens], by simp [ofTokens]⟩

end Cursor

/-! ## Statements -/

/-- What a statement declares is from `start` to the last token that it takes, and a scope that it
opens has its header at `start`. -/
structure Statement.BeginsAt (start : Position) (s : Statement) : Prop where
  declares : ∀ e, s.outcome = .declares e → e.location = some (s.cursor.location start)
  opens : ∀ o, s.outcome = .opens o → o.start = start

namespace Statement

variable (start : Position) (b : Body) (c : Cursor)

theorem beginsAt_nothing : (nothing b c).BeginsAt start :=
  ⟨fun _ h => Outcome.noConfusion h, fun _ h => Outcome.noConfusion h⟩

theorem beginsAt_declares (kind : Kind) : (declares kind start b c).BeginsAt start :=
  ⟨fun _ h => by rw [← Outcome.declares.inj h]; rfl, fun _ h => Outcome.noConfusion h⟩

theorem beginsAt_opens (scope : Scope) : (opens scope start b c).BeginsAt start :=
  ⟨fun _ h => Outcome.noConfusion h, fun _ h => by rw [← Outcome.opens.inj h]⟩

theorem BeginsAt.afterVisibility {start : Position} {s : Statement} (h : s.BeginsAt start) :
    s.afterVisibility.BeginsAt start := by
  unfold Statement.afterVisibility
  split
  · exact ⟨fun _ h => Outcome.noConfusion h, fun _ h => Outcome.noConfusion h⟩
  · exact h

end Statement

namespace Cursor

open Statement

variable (b : Body) (c : Cursor)

theorem beginsAt_moduleHeader : (moduleHeader b c).BeginsAt c.peek.start := by
  dsimp only [moduleHeader]
  split
  · exact beginsAt_nothing ..
  · exact beginsAt_opens ..

theorem beginsAt_classHeader : (classHeader b c).BeginsAt c.peek.start := by
  dsimp only [classHeader]
  split
  · exact beginsAt_nothing ..
  · exact beginsAt_opens ..

theorem beginsAt_singletonHeader : (singletonHeader b c).BeginsAt c.peek.start := by
  dsimp only [singletonHeader]
  split
  · exact beginsAt_opens ..
  · exact beginsAt_nothing ..

theorem beginsAt_structHeader (name : String) (start : Position) :
    (c.structHeader name start b).BeginsAt start := by
  dsimp only [structHeader]
  split
  · exact beginsAt_opens ..
  · exact beginsAt_declares ..

theorem beginsAt_constant : (constant b c).BeginsAt c.peek.start := by
  dsimp only [constant]
  split
  · exact beginsAt_structHeader ..
  · exact beginsAt_declares ..

theorem beginsAt_method (start : Position) (visibility : Visibility) :
    (c.method start visibility b).BeginsAt start := by
  dsimp only [method]
  split
  · exact beginsAt_nothing ..
  · exact beginsAt_declares ..

theorem beginsAt_attributes (kind : AttributeKind) (start : Position) (visibility : Visibility) :
    (c.attributes kind start visibility b).BeginsAt start := by
  dsimp only [attributes]
  split
  · exact beginsAt_nothing ..
  · exact beginsAt_declares ..

theorem beginsAt_mixins (kind : MixinKind) : (c.mixins kind b).BeginsAt c.peek.start := by
  dsimp only [mixins]
  split
  · exact beginsAt_nothing ..
  · exact beginsAt_declares ..

theorem beginsAt_requiredAncestor : (c.requiredAncestor b).BeginsAt c.peek.start := by
  dsimp only [requiredAncestor]
  split
  · exact beginsAt_declares ..
  · exact beginsAt_nothing ..

theorem beginsAt_structField (kind : FieldKind) :
    (c.structField kind b).BeginsAt c.peek.start := by
  dsimp only [structField]
  split
  · exact beginsAt_declares ..
  · exact beginsAt_nothing ..

/-- Every statement begins at the token where the cursor stands. -/
theorem beginsAt_statement : (c.statement b).BeginsAt c.peek.start :=
  Forms.statement (P := fun s => s.BeginsAt c.peek.start)
    { moduleHeader := c.beginsAt_moduleHeader b
      classHeader := c.beginsAt_classHeader b
      singletonHeader := c.beginsAt_singletonHeader b
      constant _ _ := c.beginsAt_constant b
      method := c.beginsAt_method b _ _
      attributes _ := c.beginsAt_attributes b _ _ _
      visibility _ := beginsAt_nothing ..
      -- A declaration with a visibility word begins at the word.
      visibleMethod _ _ _ _ := (beginsAt_method ..).afterVisibility
      visibleAttributes _ _ _ _ _ _ := (beginsAt_attributes ..).afterVisibility
      signatureLine := beginsAt_nothing ..
      mixins _ := c.beginsAt_mixins b _
      requiredAncestor := c.beginsAt_requiredAncestor b
      structField _ _ := c.beginsAt_structField b _
      enumBlock := beginsAt_declares ..
      helperCall _ _ := beginsAt_declares ..
      call _ := beginsAt_declares ..
      noDeclaration := beginsAt_nothing .. }

end Cursor

/-! ## Declarations -/

namespace Location

/-- The line and the column at which a part of a file begins. -/
def begins (l : Location) : ℕ ×ₗ ℕ := toLex (l.beginLine, l.beginColumn)

/-- The line and the column at which a part of a file ends. -/
def ends (l : Location) : ℕ ×ₗ ℕ := toLex (l.endLine, l.endColumn)

/-- A part of a file, from the start of a token to the end of a token. -/
structure IsPart (file : Option String) (ts : List Token) (l : Location) : Prop where
  file_eq : l.file = file
  begins_eq : ∃ t ∈ ts, l.begins = t.start.place
  ends_eq : ∃ t ∈ ts, l.ends = t.stop.place
  begins_le_ends : l.begins ≤ l.ends

end Location

namespace Outline

/-- None of the declarations begins before an earlier one ends. -/
def InTurn (os : List Outline) : Prop :=
  os.Pairwise fun o o' => ∀ l ∈ o.entry.location, ∀ l' ∈ o'.entry.location, l.ends ≤ l'.begins

/-- A declaration is from a part of a file, which encloses the parts that its members are from, and
the members are declared in turn. -/
inductive IsPlaced (file : Option String) (ts : List Token) : Outline → Prop where
  | node {e : Entry} {os : List Outline} {l : Location} (location_eq : e.location = some l)
    (isPart : l.IsPart file ts)
    (within : ∀ o ∈ os, ∀ l' ∈ o.entry.location, l.begins ≤ l'.begins ∧ l'.ends ≤ l.ends)
    (inTurn : InTurn os) (below : ∀ o ∈ os, IsPlaced file ts o) : IsPlaced file ts (.node e os)

variable {file : Option String} {ts : List Token}

/-- Declarations that stand one behind the other between two points. -/
structure AreBetween (file : Option String) (ts : List Token) (p q : Position)
    (os : List Outline) : Prop where
  placed : ∀ o ∈ os, o.IsPlaced file ts
  inTurn : InTurn os
  within : ∀ o ∈ os, ∀ l ∈ o.entry.location, p.place ≤ l.begins ∧ l.ends ≤ q.place

/-- A declaration that is from one point to another. -/
structure IsFrom (file : Option String) (ts : List Token) (p q : Position) (o : Outline) :
    Prop where
  placed : o.IsPlaced file ts
  location : ∀ l ∈ o.entry.location, l.begins = p.place ∧ l.ends = q.place

namespace AreBetween

variable {p q p' q' : Position} {o : Outline} {os : List Outline}

theorem nil (p q : Position) : AreBetween file ts p q [] := ⟨by simp, .nil, by simp⟩

theorem mono (h : AreBetween file ts p q os) (hq : q ≤ q') : AreBetween file ts p q' os :=
  ⟨h.placed, h.inTurn, fun o ho l hl => ⟨(h.within o ho l hl).1, (h.within o ho l hl).2.trans hq.2⟩⟩

/-- A declaration more, behind the others. -/
theorem append (h : AreBetween file ts p q os) (ho : o.IsFrom file ts p' q') (hp : p ≤ q)
    (hq : q ≤ p') (hq' : q ≤ q') : AreBetween file ts p q' (os ++ [o]) := by
  refine ⟨List.forall_mem_append.2 ⟨h.placed, List.forall_mem_singleton.2 ho.placed⟩, ?_,
    List.forall_mem_append.2 ⟨(h.mono hq').within, List.forall_mem_singleton.2 fun l hl => ?_⟩⟩
  · refine List.pairwise_append.2 ⟨h.inTurn, List.pairwise_singleton _ _, ?_⟩
    intro o₁ ho₁ o₂ ho₂ l hl l' hl'
    rw [List.mem_singleton.1 ho₂] at hl'
    calc l.ends ≤ q.place := (h.within o₁ ho₁ l hl).2
      _ ≤ p'.place := hq.2
      _ = l'.begins := (ho.location l' hl').1.symm
  · obtain ⟨hbegins, hends⟩ := ho.location l hl
    exact ⟨hbegins ▸ (hp.trans hq).2, hends.le⟩

end AreBetween

namespace IsFrom

variable {p q : Position} {o : Outline}

/-- What is declared from a point on, with its members, up to the last token that was read. -/
theorem node {e : Entry} {os : List Outline} {c : Cursor} (he : e.location = some (c.location p))
    (hp : ∃ t ∈ ts, p = t.start) (hstop : ∃ t ∈ ts, c.consumed = t.stop) (hle : p ≤ c.consumed)
    (hos : AreBetween c.file ts p c.consumed os) :
    (Outline.node e os).IsFrom c.file ts p c.consumed := by
  obtain ⟨t, ht, rfl⟩ := hp
  obtain ⟨u, hu, hstop⟩ := hstop
  have hpart : (c.location t.start).IsPart c.file ts :=
    ⟨rfl, ⟨t, ht, rfl⟩, ⟨u, hu, hstop ▸ rfl⟩, hle.2⟩
  refine ⟨.node he hpart hos.within hos.inTurn hos.placed, fun l hl => ?_⟩
  obtain rfl : c.location t.start = l := Option.some.inj (he.symm.trans hl)
  exact ⟨rfl, rfl⟩

theorem addComments (h : o.IsFrom file ts p q) (comments : List String) :
    (o.addComments comments).IsFrom file ts p q := by
  obtain ⟨hplaced, hlocation⟩ := h
  cases hplaced with
  | node he hpart hwithin hturn hbelow =>
    exact ⟨.node he hpart hwithin hturn hbelow, hlocation⟩

theorem trailingComment (h : o.IsFrom file ts p q) (c : Cursor) :
    (c.trailingComment o).1.IsFrom file ts p q := by
  unfold Cursor.trailingComment
  split
  · exact h.addComments _
  · exact h

end IsFrom

end Outline

/-! ## Drafts -/

open Outline (AreBetween IsFrom)

/-- The scopes that are open at a point, the innermost first, around them a file with the members
`top`. What a scope has so far is between its header and the point, and what the scopes around it
have is before its header. -/
inductive OpenAt (file : Option String) (ts : List Token) (top : List Outline) :
    Position → List (Opening × Level) → Prop where
  | nil {p q : Position} (hp : p ≤ q) (members : AreBetween file ts p q top) :
    OpenAt file ts top q []
  | cons {q : Position} {opening : Opening} {level : Level} {outer : List (Opening × Level)}
    (start_eq : ∃ t ∈ ts, opening.start = t.start) (start_le : opening.start ≤ q)
    (members : AreBetween file ts opening.start q level.members.toList)
    (around : OpenAt file ts top opening.start outer) :
    OpenAt file ts top q ((opening, level) :: outer)

namespace OpenAt

variable {file : Option String} {ts : List Token} {top : List Outline} {q q' : Position}
  {inner : List (Opening × Level)}

theorem mono (h : OpenAt file ts top q inner) (hq : q ≤ q') : OpenAt file ts top q' inner := by
  cases h with
  | nil hp members => exact .nil (hp.trans hq) (members.mono hq)
  | cons start_eq start_le members around =>
    exact .cons start_eq (start_le.trans hq) (members.mono hq) around

theorem exists_areBetween (h : OpenAt file ts top q inner) : ∃ p q, AreBetween file ts p q top := by
  induction h with
  | nil hp members => exact ⟨_, _, members⟩
  | cons _ _ _ _ ih => exact ih

end OpenAt

namespace Draft

variable {file : Option String} {ts : List Token} {d d' : Draft} {c c' : Cursor}

theorem openAt_add {p q q' : Position} {o : Outline}
    (h : OpenAt file ts d.root.members.toList q d.inner) (ho : o.IsFrom file ts p q')
    (hp : q ≤ p) (hq : q ≤ q') :
    OpenAt file ts (d.add o).root.members.toList q' (d.add o).inner := by
  unfold add setCurrent current
  cases hinner : d.inner with
  | nil =>
    rw [hinner] at h
    cases h with
    | nil hle members =>
      refine .nil (hle.trans hq) ?_
      rw [Array.toList_push]
      exact members.append ho hle hp hq
  | cons x outer =>
    rw [hinner] at h
    cases h with
    | cons start_eq start_le members around =>
      refine .cons start_eq (start_le.trans hq) ?_ around
      rw [Array.toList_push]
      exact members.append ho start_le hp hq

/-- The reader is in order, and its scopes are open at the end of the last token that was passed. -/
structure IsInOrder (file : Option String) (ts : List Token) (d : Draft) (c : Cursor) : Prop where
  cursor : c.IsInOrder ts
  file_eq : c.file = file
  openAt : OpenAt file ts d.root.members.toList c.consumed d.inner
  /-- There is such a token, if there are such scopes. -/
  stop_eq : d.inner ≠ [] → ∃ t ∈ ts, c.consumed = t.stop

namespace IsInOrder

theorem walk (h : d.IsInOrder file ts c) (hwalk : c.Walk c') : d.IsInOrder file ts c' := by
  refine ⟨h.cursor.walk hwalk, hwalk.file_eq.trans h.file_eq,
    h.openAt.mono (h.cursor.consumed_le_walk hwalk), fun hinner => ?_⟩
  rcases h.cursor.consumed_eq_or hwalk with ⟨-, heq⟩ | ⟨t, ht, heq, -⟩
  · rw [heq]
    exact h.stop_eq hinner
  · exact ⟨t, ht, heq⟩

theorem setBreak (h : d.IsInOrder file ts c) (afterBreak : Bool) :
    ({ d with afterBreak } : Draft).IsInOrder file ts c :=
  ⟨h.cursor, h.file_eq, h.openAt, h.stop_eq⟩

theorem setBody (h : d.IsInOrder file ts c) (body : Body) :
    (d.setBody body).IsInOrder file ts c := by
  obtain ⟨hcursor, hfile, hopen, hstop⟩ := h
  unfold Draft.setBody setCurrent current
  cases hinner : d.inner with
  | nil => exact ⟨hcursor, hfile, by rwa [hinner] at hopen, by simp⟩
  | cons x outer =>
    rw [hinner] at hopen hstop
    cases hopen with
    | cons start_eq start_le members around =>
      exact ⟨hcursor, hfile, .cons start_eq start_le members around, fun _ => hstop (by simp)⟩

theorem lineBreak (h : d.IsInOrder file ts c) : d.lineBreak.IsInOrder file ts c := by
  unfold Draft.lineBreak
  split
  · exact ⟨h.cursor, h.file_eq, h.openAt, h.stop_eq⟩
  · exact h.setBreak true

/-- A scope that is closed is from its header to its end, or to the last token before the place
where its end is missed. -/
theorem closeScope {opening : Opening} {level : Level} {outer : List (Opening × Level)}
    (h : d.IsInOrder file ts c) (hinner : d.inner = (opening, level) :: outer) (afterBreak : Bool) :
    (({ d with inner := outer, afterBreak } : Draft).add
      (c.closeScope opening level).1).IsInOrder file ts (c.closeScope opening level).2 := by
  have hafter : c.Walk ((c.endBody level.body).expect .endWord .expectedEnd).2 :=
    (c.walk_reportIf _ _ (by simp)).trans (Cursor.walk_expect _ _ _ (by simp))
  obtain ⟨hcursor, rfl, hopen, hstop⟩ := h.walk hafter
  have hstop := hstop (by simp [hinner])
  rw [hinner] at hopen
  cases hopen with
  | cons start_eq start_le members around =>
    have hnode : (c.closeScope opening level).1.IsFrom _ ts opening.start _ :=
      IsFrom.trailingComment (IsFrom.node rfl start_eq hstop start_le members) _
    exact walk ⟨hcursor, rfl, openAt_add around hnode le_rfl start_le, fun _ => hstop⟩
      (Cursor.walk_trailingComment _)

/-- A declaration that begins at the current token is behind everything that was read before. -/
theorem declare (h : d.IsInOrder file ts c) (hwalk : c.Walk c') (hlt : c'.remaining < c.remaining)
    {e : Entry} (he : e.location = some (c'.location c.peek.start)) :
    (d.add (c'.trailingComment (.node e [])).1).IsInOrder file ts
      (c'.trailingComment (.node e [])).2 := by
  have hconsumed := h.cursor.consumed_le
  obtain ⟨hstop, hle⟩ := h.cursor.stop_of_lt hwalk hlt
  obtain rfl : c'.file = file := (h.walk hwalk).file_eq
  have hnode : (c'.trailingComment (.node e [])).1.IsFrom _ ts c.peek.start c'.consumed :=
    IsFrom.trailingComment (.node he h.cursor.start_peek hstop hle (.nil _ _)) _
  exact walk ⟨h.cursor.walk hwalk, rfl, openAt_add h.openAt hnode hconsumed (hconsumed.trans hle),
    fun _ => hstop⟩ (Cursor.walk_trailingComment _)

/-- So is the header of a scope that begins there. -/
theorem push (h : d.IsInOrder file ts c) (hwalk : c.Walk c') (hlt : c'.remaining < c.remaining)
    {opening : Opening} (hstart : opening.start = c.peek.start) :
    (d.push opening).IsInOrder file ts c' := by
  obtain ⟨hstop, hle⟩ := h.cursor.stop_of_lt hwalk hlt
  refine ⟨h.cursor.walk hwalk, (h.walk hwalk).file_eq, ?_, fun _ => hstop⟩
  rw [← hstart] at hle
  exact .cons (hstart ▸ h.cursor.start_peek) hle (.nil _ _)
    (h.openAt.mono (hstart ▸ h.cursor.consumed_le))

/-- **One statement** keeps the order: what it declares or opens is behind what was read before. -/
theorem step (h : d.IsInOrder file ts c) (hc : c.kind ≠ .eof) (hd : d.step c = .ok (d', c')) :
    d'.IsInOrder file ts c' := by
  have hwalk := c.walk_statement d.current.body
  have hbegins := c.beginsAt_statement d.current.body
  have hbody := (h.setBody (c.statement d.current.body).body).setBreak false
  have hlt : (c.statement d.current.body).cursor.remaining < c.remaining := by
    have hle := c.remaining_statement_le d.current.body
    have hpos := Cursor.remaining_pos hc
    omega
  cases steps_of_step hd with
  | lineBreak => exact h.lineBreak.walk c.walk_advance
  | semicolon => exact (h.setBreak false).walk c.walk_advance
  | comment => exact ((h.setBody _).setBreak false).walk c.walk_advance
  | strayEnd =>
    exact (h.setBreak false).walk ((c.walk_report _ (by simp)).trans (Cursor.walk_advance _))
  | close _ hinner => exact h.closeScope hinner false
  | nothing hs =>
    subst hs
    exact hbody.walk hwalk
  | declares hs ho =>
    subst hs
    exact hbody.declare hwalk hlt (hbegins.declares _ ho)
  | opens hs ho =>
    subst hs
    exact hbody.push hwalk hlt (hbegins.opens _ ho)

theorem closeAll (h : d.IsInOrder file ts c) :
    (d.closeAll c).1.IsInOrder file ts (d.closeAll c).2 := by
  fun_induction Draft.closeAll d c with
  | case1 d c => exact h
  | case2 d c opening level outer hinner closed ih =>
    exact ih (h.closeScope hinner d.afterBreak)

end IsInOrder

end Draft

/-! ## Files -/

/-- What was read of a text is in the order of the text. -/
structure Reading.IsInOrder (text : String) (file : Option String) (r : Reading) : Prop where
  /-- Every declaration below the file is from a part of it, which encloses its members. -/
  placed : ∀ o ∈ r.root.children, o.IsPlaced file (TokenList.ofText text).toList
  inTurn : Outline.InTurn r.root.children
  /-- Problems are told in the order in which they stand in the text. -/
  sorted : r.diagnostics.Pairwise fun d d' => d.start.offset ≤ d'.start.offset
  isAt : ∀ d ∈ r.diagnostics, d.IsAt (TokenList.ofText text).toList

namespace Draft

variable {text : String} {file : Option String} {d : Draft} {c : Cursor} {r : Reading}

theorem IsInOrder.finish (h : d.IsInOrder file (TokenList.ofText text).toList c) :
    (d.finish c).IsInOrder text file := by
  obtain ⟨hcursor, -, hopen, -⟩ := h.closeAll
  obtain ⟨p, q, hmembers⟩ := hopen.exists_areBetween
  have hlast := (hcursor.reportIf (!(d.closeAll c).1.root.body.signatures.isEmpty)
    .danglingSignature).reportIf
      (((d.closeAll c).2.endBody (d.closeAll c).1.root.body).kind != .eof) .expectedEndOfFile
  exact
    { placed := hmembers.placed
      inTurn := hmembers.inTurn
      sorted := hlast.sorted.imp fun hle => hle.1
      isAt := hlast.isAt }

theorem IsInOrder.run (h : d.IsInOrder file (TokenList.ofText text).toList c)
    (hr : d.run c = .ok r) : r.IsInOrder text file := by
  fun_induction Draft.run d c with
  | case1 d c hc =>
    obtain rfl := Except.ok.inj hr
    exact h.finish
  | case2 => cases hr
  | case3 d c hc d' c' hstep ih => exact ih (h.step hc hstep) hr

end Draft

/-- **A text is read in order.** Whatever the text, if it can be read then places and problems come
out in the order of its tokens. -/
theorem read_in_order {text : String} {file : Option String} {reading : Reading}
    (h : read text file = .ok reading) : reading.IsInOrder text file := by
  have hcursor := Cursor.isInOrder_ofText text file
  have hstart : ({} : Draft).IsInOrder file (TokenList.ofText text).toList
      (.ofTokens file (TokenList.ofText text).significant) :=
    ⟨hcursor, rfl, .nil le_rfl (.nil _ _), by simp⟩
  exact hstart.run h

/-- A scope in a scope, a word that declares nothing, and a scope that is not ended. -/
def cornerText : String :=
  "module Street\n  private def cross; end # slowly\n  class Corner\n    )\n  end\nend\n"
    ++ "class Lane\n  CARS = 2\n"

theorem cornerText_in_order : ∃ reading, read cornerText none = .ok reading ∧
    (reading.root.preorder 0).filterMap (fun x => x.2.location.map Location.text) =
      ["1:0-6:3", "2:2-2:24", "3:2-5:5", "7:0-9:0", "8:2-8:10"] ∧
    reading.diagnostics.map (fun d => d.start.offset) = [67, 101] ∧
    reading.IsInOrder cornerText none := by
  have hread : (read cornerText none).toOption.any (fun reading =>
      (reading.root.preorder 0).filterMap (fun x => x.2.location.map Location.text) ==
        ["1:0-6:3", "2:2-2:24", "3:2-5:5", "7:0-9:0", "8:2-8:10"] &&
      reading.diagnostics.map (fun d => d.start.offset) == [67, 101]) = true := by decide +kernel
  cases hr : read cornerText none with
  | error e => simp [hr, Except.toOption] at hread
  | ok reading =>
    simp only [hr, Except.toOption, Option.any_some, Bool.and_eq_true, beq_iff_eq] at hread
    exact ⟨reading, rfl, hread.1, hread.2, read_in_order hr⟩

end StubMerge
