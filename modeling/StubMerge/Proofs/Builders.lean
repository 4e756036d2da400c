import StubMerge.Proofs.Facing
import StubMerge.Proofs.Texts
import StubMerge.Reading.SignatureBlock

/-!
# Signatures are read as they are written

A signature is written as a chain of builder calls. A `Link` is one of them, in pieces, with what
reading it makes of the signature so far; `Links` is the chain. The main result, `exists_signature`,
says that the line of a printable signature is read as that signature.
-/

namespace StubMerge

open Cursor

/-! ## Typed names -/

/-- A name with its type, in pieces. -/
def TypedName.Pieces (p : TypedName) (ps : List Piece) : Prop :=
  isIdentifier p.name = true ∧
    ∃ qs, Phrase stopsAtComma p.type qs ∧ ps = .word p.name :: .mark ":" :: .blank :: qs

theorem identifierKind_ne (text : String) :
    identifierKind text ≠ .rightParen ∧ identifierKind text ≠ .eof := by
  unfold identifierKind wordKind
  split_ifs <;> decide

namespace Cursor.Faces

variable {c : Cursor} {qs : List Piece}

/-- One name with its type. -/
theorem typedName {p : TypedName} {ps : List Piece} (hp : p.Pieces ps)
    (hq : endsCapture stopsAtComma (nextKind qs) = true) (h : c.Faces (ps ++ qs)) :
    ∃ c', c'.Faces qs ∧ c.typedNamesFrom =
      if c'.kind = .comma then (p :: c'.advance.typedNamesFrom.1, c'.advance.typedNamesFrom.2)
      else ([p], c') := by
  obtain ⟨-, ts, hts, rfl⟩ := hp
  obtain ⟨c', hcapture, hc'⟩ := h.advance.advance.blank.capture hts hq
  have hkind : c.kind = identifierKind p.name := h.kind
  have hcolon : c.nthKind 1 = .colon := by
    rw [nthKind_succ]
    exact h.advance.kind
  have htype : c.advance.advance.capture (· == .comma) = (p.type, c') := hcapture
  refine ⟨c', hc', ?_⟩
  conv => lhs; rw [Cursor.typedNamesFrom]
  simp [hkind, identifierKind_ne, hcolon, htype, h.text]

theorem typedNamesFrom {names : List TypedName} {pss : List (List Piece)}
    (hnames : List.Forall₂ TypedName.Pieces names pss)
    (h : c.Faces (commaRow pss ++ .mark ")" :: qs)) :
    ∃ c', c.typedNamesFrom = (names, c') ∧ c'.Faces (.mark ")" :: qs) := by
  induction hnames generalizing c with
  | nil =>
    have hkind : c.kind = .rightParen := h.kind
    refine ⟨c, ?_, h⟩
    rw [Cursor.typedNamesFrom]
    simp [hkind]
  | cons hp hnames ih =>
    cases hnames with
    | nil =>
      rw [commaRow_singleton] at h
      obtain ⟨c', hc', hread⟩ := h.typedName hp rfl
      have hkind : c'.kind = .rightParen := hc'.kind
      exact ⟨c', by simp [hread, hkind], hc'⟩
    | cons hnext hnames =>
      rw [commaRow_cons_cons, List.append_assoc] at h
      obtain ⟨c', hc', hread⟩ := h.typedName hp rfl
      have hkind : c'.kind = .comma := hc'.kind
      obtain ⟨c'', hmore, hc''⟩ := ih hc'.advance.blank
      exact ⟨c'', by simp [hread, hkind, hmore], hc''⟩

theorem typedNames {names : List TypedName} {pss : List (List Piece)}
    (hnames : List.Forall₂ TypedName.Pieces names pss)
    (h : c.Faces (.mark "(" :: (commaRow pss ++ .mark ")" :: qs))) :
    ∃ c', c.typedNames = (names, c') ∧ c'.Faces qs := by
  obtain ⟨c', hread, hc'⟩ := h.advance.typedNamesFrom hnames
  have hopen : c.kind = .leftParen := h.kind
  have hclose : c'.kind = .rightParen := hc'.kind
  have hskip : c'.skipWhile (· != .rightParen) = c' := skipWhile_of_false (by simp [hclose])
  refine ⟨c'.advance, ?_, hc'.advance⟩
  simp [Cursor.typedNames, expect_of_kind hopen, hread, hskip, expect_of_kind hclose]

end Cursor.Faces

theorem TypedName.Pieces.row {p : TypedName} {ps : List Piece} (h : p.Pieces ps) :
    PieceRow (p.name ++ ": " ++ p.type) ps := by
  obtain ⟨hname, qs, hqs, rfl⟩ := h
  exact .keyword hname hqs.toPieceRow

/-! ## Builder calls -/

/-- A builder call that takes a signature from `s` to `s'`, in pieces. -/
structure Link (text : String) (ps : List Piece) (s s' : Signature) : Prop
    extends PieceRow text ps where
  /-- A dot can follow. -/
  cutsDot : ∀ {previous : Char} {ds : List Char}, endsValue previous = false →
    Cuts ('.' :: ds) previous ps
  /-- It starts with a name. -/
  starts : ∃ name qs, ps = .word name :: qs ∧ isVariable name = true
  read : ∀ {c : Cursor} {qs : List Piece}, nextKind qs ≠ .leftParen → c.Faces (ps ++ qs) →
    ∃ c', namedBuilder s c = (s', c') ∧ c'.Faces qs

theorem identifierKind_of_isVariable {text : String} (h : isVariable text = true) :
    identifierKind text = .name := by
  simp only [isVariable, isSmallIdentifier, Bool.and_eq_true, Bool.not_eq_true', beq_iff_eq] at h
  simp [identifierKind, h]

theorem isIdentifier_of_isVariable {text : String} (h : isVariable text = true) :
    isIdentifier text = true := by
  simp only [isVariable, isSmallIdentifier, Bool.and_eq_true] at h
  exact h.1.1

namespace Link

variable {s s' : Signature} {text : String} {ps : List Piece} (name : String)

/-- A builder call without arguments. -/
theorem word (hname : isVariable name = true)
    (hread : ∀ c : Cursor, c.text = name → c.advance.kind ≠ .leftParen →
      namedBuilder s c = (s', c.advance)) : Link name [.word name] s s' where
  toPieceRow := .word (isIdentifier_of_isVariable hname)
  cutsDot _ := .word (isIdentifier_of_isVariable hname) rfl fun _ => .nil
  starts := ⟨name, [], rfl, hname⟩
  read hq h := ⟨_, hread _ h.text (by rwa [h.advance.kind_eq]), h.advance⟩

/-- A builder call with something in parentheses. -/
theorem group (hname : isVariable name = true) (hrow : PieceRow text ps)
    (hread : ∀ {c : Cursor} {qs : List Piece}, c.text = name →
      c.advance.Faces (.mark "(" :: (ps ++ .mark ")" :: qs)) →
      ∃ c', namedBuilder s c = (s', c') ∧ c'.Faces qs) :
    Link (name ++ "(" ++ text ++ ")") (.word name :: .mark "(" :: (ps ++ [.mark ")"])) s s' where
  toPieceRow := (LineRow.parens (.word (isIdentifier_of_isVariable hname)) hrow).toPieceRow
  cutsDot _ := .word (isIdentifier_of_isVariable hname) rfl fun _ =>
    .mark (by decide) ((hrow.cuts rfl (by decide) (by decide)).append (.mark (by decide) .nil))
  starts := ⟨name, _, rfl, hname⟩
  read _ h := by
    simp only [List.cons_append, List.append_assoc, List.nil_append] at h
    exact hread h.text h.advance

/-- A builder call with a text in parentheses. -/
theorem captured (hname : isVariable name = true) (htext : Phrase stopsNever text ps)
    (hread : ∀ c c' : Cursor, c.text = name → c.advance.kind = .leftParen →
      c.advance.captureGroup = (text, c') → namedBuilder s c = (s', c')) :
    Link (name ++ "(" ++ text ++ ")") (.word name :: .mark "(" :: (ps ++ [.mark ")"])) s s' :=
  group name hname htext.toPieceRow fun hc h => by
    obtain ⟨c', hcapture, hc'⟩ := h.captureGroup htext
    exact ⟨c', hread _ _ hc h.kind hcapture, hc'⟩

end Link

/-- Builder calls that take a signature from `s` to `s'` one after the other. -/
inductive Links : List String → List (List Piece) → Signature → Signature → Prop where
  | nil {s : Signature} : Links [] [] s s
  | cons {text : String} {texts : List String} {ps : List Piece} {pss : List (List Piece)}
      {s s' s'' : Signature} (h : Link text ps s s') (hs : Links texts pss s' s'') :
      Links (text :: texts) (ps :: pss) s s''

/-- Rows with dots between them. -/
def dotRow (pss : List (List Piece)) : List Piece := [Piece.mark "."].intercalate pss

theorem dotRow_cons_cons (ps qs : List Piece) (pss : List (List Piece)) :
    dotRow (ps :: qs :: pss) = ps ++ .mark "." :: dotRow (qs :: pss) := by
  simp [dotRow, List.intercalate_cons_cons]

@[simp] theorem dotRow_singleton (ps : List Piece) : dotRow [ps] = ps := by
  simp [dotRow]

namespace Links

variable {s s' s'' : Signature} {text : String} {texts texts' : List String}
  {ps : List Piece} {pss pss' : List (List Piece)}

theorem append (h : Links texts pss s s') (h' : Links texts' pss' s' s'') :
    Links (texts ++ texts') (pss ++ pss') s s'' := by
  induction h with
  | nil => exact h'
  | cons h _ ih => exact .cons h (ih h')

theorem dotRow_starts (h : Links (text :: texts) (ps :: pss) s s') :
    ∃ name qs, dotRow (ps :: pss) = .word name :: qs ∧ isVariable name = true := by
  cases h with
  | cons h hs =>
    obtain ⟨name, qs, rfl, hname⟩ := h.starts
    cases pss with
    | nil => exact ⟨name, qs, by simp, hname⟩
    | cons => exact ⟨name, _, dotRow_cons_cons .., hname⟩

theorem row (h : Links texts pss s s') : PieceRow (".".intercalate texts) (dotRow pss) := by
  induction h with
  | nil => exact .nil
  | @cons text texts ps pss s s' s'' h hs ih =>
    cases hs with
    | nil => simpa using h.toPieceRow
    | @cons next texts qs pss _ _ _ hnext hs =>
      obtain ⟨name, rs, hrs, hname⟩ := (Links.cons hnext hs).dotRow_starts
      obtain ⟨d, ds, hds, hstart, -⟩ :=
        exists_cons_of_isIdentifier (isIdentifier_of_isVariable hname)
      have hdot : d ≠ '.' := fun heq => absurd hstart (heq ▸ by decide)
      rw [String.intercalate_cons_cons, dotRow_cons_cons]
      exact {
        chars := by simp [h.chars, ih.chars]
        cuts := fun hprevious hd hbreak => (h.cutsDot hprevious).append
          (.dot (by simp [hrs, hds, hdot]) (ih.cuts rfl hd hbreak))
        quiet := by simp [h.quiet, ih.quiet, isQuiet_markKind]
        level := fun n => by simp [h.level, ih.level, depthAfter_markKind] }

theorem nextKind_ne_newline (h : Links texts pss s s') (qs : List Piece) :
    nextKind (dotRow pss ++ .blank :: .mark "\x7d" :: qs) ≠ .newline := by
  cases h with
  | nil => simp [dotRow, markKind]
  | cons h hs =>
    obtain ⟨name, rs, hrs, hname⟩ := (Links.cons h hs).dotRow_starts
    rw [hrs, List.cons_append, nextKind_word, identifierKind_of_isVariable hname]
    decide

/-- The chain of builder calls, up to the brace that closes the signature. -/
theorem builders {c : Cursor} {qs : List Piece} (h : Links texts pss s s')
    (hc : c.Faces (dotRow pss ++ .blank :: .mark "\x7d" :: qs)) :
    ∃ c', builders .rightBrace s c = (s', c') ∧ c'.Faces (.mark "\x7d" :: qs) := by
  induction h generalizing c with
  | nil =>
    refine ⟨c, ?_, hc.blank⟩
    have hkind : c.kind = .rightBrace := hc.blank.kind
    rw [Cursor.builders]
    simp [hkind]
  | @cons text texts ps pss s s' s'' h hs ih =>
    obtain ⟨name, rs, hrs, hname⟩ := h.starts
    have hkind {rs' : List Piece} (hc : c.Faces (ps ++ rs')) : c.kind = .name := by
      rw [hc.kind_eq, hrs, List.cons_append, nextKind_word, identifierKind_of_isVariable hname]
    have hbuilder {c' : Cursor} {rs' : List Piece} (hc : c.Faces (ps ++ rs'))
        (hread : namedBuilder s c = (s', c')) : builder .rightBrace s c = (s', c') := by
      simp [builder, hkind hc, hread]
    cases hs with
    | nil =>
      rw [dotRow_singleton] at hc
      obtain ⟨c', hread, hc'⟩ := h.read (by simp [markKind]) hc
      have hline : c'.skipNewlines = c' := skipNewlines_of_ne (by simp [hc'.kind_eq, markKind])
      refine ⟨c', ?_, hc'.blank⟩
      rw [Cursor.builders]
      simp [hkind hc, hbuilder hc hread, hline, hc'.kind_eq, markKind]
    | @cons next texts qs pss _ _ _ hnext hs =>
      rw [dotRow_cons_cons, List.append_assoc, List.cons_append] at hc
      obtain ⟨c', hread, hc'⟩ := h.read (by simp [markKind]) hc
      have hline : c'.skipNewlines = c' := skipNewlines_of_ne (by simp [hc'.kind_eq, markKind])
      obtain ⟨c'', hmore, hc''⟩ := ih hc'.advance
      have hline' : c'.advance.skipNewlines = c'.advance :=
        skipNewlines_of_ne (hc'.advance.kind_eq ▸ (Links.cons hnext hs).nextKind_ne_newline _)
      refine ⟨c'', ?_, hc''⟩
      rw [Cursor.builders]
      simp [hkind hc, hbuilder hc hread, hline, hc'.kind_eq, markKind, hline', hmore]

end Links

/-! ## Signatures -/

/-- A builder call that is written only if there is something to say. -/
theorem exists_links_if {b : Bool} {text : String} {s s' : Signature}
    (ht : b = true → ∃ ps, Link text ps s s') (hf : b = false → s = s') :
    ∃ pss, Links (if b then [text] else []) pss s s' := by
  cases b with
  | true =>
    obtain ⟨ps, h⟩ := ht rfl
    exact ⟨[ps], .cons h .nil⟩
  | false =>
    obtain rfl := hf rfl
    exact ⟨[], .nil⟩

theorem exists_typedNames {names : List TypedName}
    (h : names.all (fun p => isIdentifier p.name && isCaptured stopsAtComma ")" p.type) = true) :
    ∃ pss, List.Forall₂ TypedName.Pieces names pss := by
  induction names with
  | nil => exact ⟨[], .nil⟩
  | cons p names ih =>
    simp only [List.all_cons, Bool.and_eq_true] at h
    obtain ⟨ps, hps⟩ := exists_phrase h.1.2
    obtain ⟨pss, hpss⟩ := ih h.2
    exact ⟨_ :: pss, .cons ⟨h.1.1, ps, hps, rfl⟩ hpss⟩

section Builders

variable (s : Signature)

theorem exists_links_override {overrides allows : Bool} (h : (overrides || !allows) = true) :
    ∃ pss, Links (if overrides then
        [if allows then "override(allow_incompatible: true)" else "override"] else []) pss
      { s with isOverride := false, allowIncompatible := false }
      { s with isOverride := overrides, allowIncompatible := allows } := by
  refine exists_links_if (fun hoverrides => ?_) fun hoverrides => ?_
  · subst hoverrides
    cases allows with
    | true =>
      have hvalue : Phrase stopsNever "true" [.word "true"] := .single rfl (.word rfl)
      have harg := hvalue.keyword "allow_incompatible" rfl rfl rfl (by decide) (by decide)
      have htext : "override(allow_incompatible: true)"
          = "override" ++ "(" ++ ("allow_incompatible" ++ ": " ++ "true") ++ ")" := by decide
      rw [if_pos rfl, htext]
      refine ⟨_, .captured "override" rfl harg fun c c' hc hkind hgroup => ?_⟩
      have hallow : Text.contains "allow_incompatible: true"
          ("allow_incompatible" ++ ": " ++ "true") = true := by decide
      simp only [namedBuilder, hc, hkind, hgroup, hallow, beq_self_eq_true, if_true]
    | false =>
      refine ⟨_, .word "override" rfl fun c hc hkind => ?_⟩
      simp [namedBuilder, hc, hkind]
  · subst hoverrides
    obtain rfl : allows = false := by simpa using h
    rfl

theorem exists_links_typeParams {names : List String} (h : names.all isIdentifier = true) :
    ∃ pss, Links (if names.isEmpty then []
        else ["type_parameters(" ++ Signature.commaSeparated (names.map (":" ++ ·)) ++ ")"]) pss
      { s with typeParams := [] } { s with typeParams := names } := by
  cases names with
  | nil => exact ⟨[], .nil⟩
  | cons name names =>
    refine ⟨[_], .cons (.captured "type_parameters" rfl (.symbols h)
      fun c c' hc hkind hgroup => ?_) .nil⟩
    simp only [namedBuilder, hc, hgroup, typeParameters_commaSeparated h]

theorem exists_links_params {names : List TypedName}
    (h : names.all (fun p => isIdentifier p.name && isCaptured stopsAtComma ")" p.type) = true) :
    ∃ pss, Links (if names.isEmpty then []
        else ["params(" ++ Signature.commaSeparated (names.map fun p => p.name ++ ": " ++ p.type)
          ++ ")"]) pss
      { s with params := [] } { s with params := names } := by
  cases names with
  | nil => exact ⟨[], .nil⟩
  | cons name names =>
    obtain ⟨pss, hpss⟩ := exists_typedNames h
    have hrow : PieceRow (Signature.commaSeparated
        ((name :: names).map fun p => p.name ++ ": " ++ p.type)) (commaRow pss) := by
      refine .list ?_
      rw [List.forall₂_map_left_iff]
      exact hpss.imp fun _ _ => TypedName.Pieces.row
    refine ⟨[_], .cons (.group "params" rfl hrow fun hc hfaces => ?_) .nil⟩
    obtain ⟨c', hread, hc'⟩ := hfaces.typedNames hpss
    exact ⟨c', by simp only [namedBuilder, hc, hread], hc'⟩

theorem exists_links_result {result : Option String}
    (h : result.all (isCaptured stopsNever ")") = true) :
    ∃ pss, Links [match result with
        | some type => "returns(" ++ type ++ ")"
        | none => "void"] pss s { s with result } := by
  cases result with
  | none => exact ⟨[_], .cons (.word "void" rfl fun c hc _ => by simp only [namedBuilder, hc]) .nil⟩
  | some type =>
    obtain ⟨ps, hps⟩ := exists_phrase h
    exact ⟨[_], .cons (.captured "returns" rfl hps fun c c' hc _ hgroup => by
      simp only [namedBuilder, hc, hgroup]) .nil⟩

theorem exists_links_checked {checked : Option String}
    (h : checked.all (isCaptured stopsNever ")") = true) :
    ∃ pss, Links (match checked with
        | some level => ["checked(" ++ level ++ ")"]
        | none => []) pss { s with checked := none } { s with checked } := by
  cases checked with
  | none => exact ⟨[], .nil⟩
  | some level =>
    obtain ⟨ps, hps⟩ := exists_phrase h
    exact ⟨[_], .cons (.captured "checked" rfl hps fun c c' hc _ hgroup => by
      simp only [namedBuilder, hc, hgroup]) .nil⟩

end Builders

/-- Each builder call sets one field, so that in the end all are set. -/
theorem exists_links {s : Signature} (hs : s.isPrintable = true) :
    ∃ pss, Links s.builders pss { isFinal := s.isFinal } s := by
  simp only [Signature.isPrintable, Bool.and_eq_true] at hs
  obtain ⟨⟨⟨⟨hallow, htypes⟩, hparams⟩, hresult⟩, hchecked⟩ := hs
  let s₁ : Signature := { isFinal := s.isFinal, isAbstract := s.isAbstract }
  let s₂ := { s₁ with isOverride := s.isOverride, allowIncompatible := s.allowIncompatible }
  let s₃ := { s₂ with isOverridable := s.isOverridable }
  let s₄ := { s₃ with typeParams := s.typeParams }
  let s₅ := { s₄ with params := s.params }
  obtain ⟨_, h₁⟩ : ∃ pss, Links (if s.isAbstract then ["abstract"] else []) pss
      { isFinal := s.isFinal } s₁ :=
    exists_links_if
      (fun h => ⟨_, .word "abstract" rfl fun c hc _ => by simp only [namedBuilder, hc, s₁, h]⟩)
      fun h => by simp only [s₁, h]
  obtain ⟨_, h₂⟩ := exists_links_override s₁ hallow
  obtain ⟨_, h₃⟩ : ∃ pss, Links (if s.isOverridable then ["overridable"] else []) pss s₂ s₃ :=
    exists_links_if
      (fun h => ⟨_, .word "overridable" rfl fun c hc _ => by simp only [namedBuilder, hc, s₃, h]⟩)
      fun h => by simp only [s₃, h, s₂, s₁]
  obtain ⟨_, h₄⟩ := exists_links_typeParams s₃ htypes
  obtain ⟨_, h₅⟩ := exists_links_params s₄ hparams
  obtain ⟨_, h₆⟩ := exists_links_result s₅ hresult
  obtain ⟨_, h₇⟩ := exists_links_checked s hchecked
  exact ⟨_, ((((((h₁.append h₂).append h₃).append h₄).append h₅).append h₆).append h₇)⟩

/-- The pieces in front of the block of a signature. -/
def signatureHead (isFinal : Bool) : List Piece :=
  .word "sig" :: if isFinal then [.mark "(", .symbol "final", .mark ")"] else []

theorem signatureHead_row (isFinal : Bool) :
    PieceRow ("sig" ++ if isFinal then "(:final)" else "") (signatureHead isFinal) := by
  cases isFinal with
  | true =>
    have hsig : PieceRow "sig" [.word "sig"] := .word rfl
    have hfinal : PieceRow (":" ++ "final") [.symbol "final"] := .symbol rfl
    exact (LineRow.parens hsig hfinal).toPieceRow
  | false => exact .word rfl

theorem Cursor.Faces.signatureArgument {c : Cursor} {qs : List Piece} {isFinal : Bool}
    (hq : nextKind qs ≠ .leftParen) (h : c.Faces (signatureHead isFinal ++ qs)) :
    ∃ c', c.advance.signatureArgument = ({ isFinal }, c') ∧ c'.Faces qs := by
  cases isFinal with
  | true =>
    have hfinal : Phrase stopsNever (":" ++ "final") [.symbol "final"] := .symbol rfl rfl
    have hopen : c.advance.kind = .leftParen := h.advance.kind
    obtain ⟨c', hgroup, hc'⟩ := h.advance.captureGroup hfinal
    exact ⟨c', by simp [Cursor.signatureArgument, hopen, hgroup], hc'⟩
  | false =>
    have hopen : c.advance.kind ≠ .leftParen := by
      rw [h.advance.kind_eq]
      exact hq
    exact ⟨_, by simp [Cursor.signatureArgument, hopen], h.advance⟩

/-- The line of a printable signature is read as that signature. -/
theorem exists_signature {s : Signature} (hs : s.isPrintable = true) :
    ∃ ps, LineRow s.text ps ∧ ∀ {c : Cursor} {qs : List Piece}, c.Faces (ps ++ qs) →
      c.kind = .name ∧ c.text = "sig" ∧ ∃ c', c.signature = (some s, c') ∧ c'.Faces qs := by
  obtain ⟨pss, hlinks⟩ := exists_links hs
  have hrow := LineRow.join (signatureHead_row s.isFinal) .blank (.braces hlinks.row)
  have htext : ("sig" ++ if s.isFinal then "(:final)" else "") ++ " "
      ++ ("\x7b " ++ ".".intercalate s.builders ++ " \x7d") = s.text :=
    String.toList_inj.1 (by simp [Signature.text])
  rw [htext] at hrow
  refine ⟨_, hrow, fun {c qs} h => ?_⟩
  simp only [List.cons_append, List.append_assoc, List.nil_append] at h
  refine ⟨h.kind, h.text, ?_⟩
  obtain ⟨c₁, hargument, hc₁⟩ := h.signatureArgument (by simp [markKind])
  have hopen : c₁.kind = .leftBrace := hc₁.blank.kind
  obtain ⟨c₂, hchain, hc₂⟩ := hlinks.builders hc₁.blank.advance.blank
  have hclose : c₂.kind = .rightBrace := hc₂.kind
  have hline : c₁.advance.skipNewlines = c₁.advance :=
    skipNewlines_of_ne (hc₁.blank.advance.blank.kind_eq ▸ hlinks.nextKind_ne_newline _)
  have hline' : c₂.skipNewlines = c₂ := skipNewlines_of_ne (by simp [hclose])
  refine ⟨c₂.advance, ?_, hc₂.advance⟩
  simp [Cursor.signature, hargument, hopen, blockCloser?, hline, hchain, hline',
    expect_of_kind hclose]

end StubMerge
