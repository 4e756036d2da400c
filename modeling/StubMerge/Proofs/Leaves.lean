import StubMerge.Proofs.Headers

/-!
# Leaves are read as they are written

A leaf is one line, or several for enumerated values, and each kind of leaf has its own words in
front. Which word it is decides how the line is read, so calls of other words have to be told apart
from declarations.
-/

namespace StubMerge

open Cursor

/-! ## Arguments in a line -/

theorem exists_argument {arg : String}
    (h : (!arg.isEmpty && isCaptured endsArgument ")" arg) = true) : ∃ ps, Argument arg ps := by
  simp only [Bool.and_eq_true, Bool.not_eq_true', String.isEmpty_eq_false_iff] at h
  obtain ⟨ps, hps⟩ := exists_phrase h.2
  exact ⟨ps, hps, h.1⟩

theorem nextKind_commaRow {arg : String} {args : List String} {pss : List (List Piece)}
    (hargs : List.Forall₂ Argument (arg :: args) pss) (hparen : arg.toList.head? ≠ some '(')
    (qs : List Piece) : nextKind (commaRow pss ++ qs) ≠ .leftParen := by
  cases hargs with
  | @cons _ ps _ pss harg _ =>
    obtain ⟨more, hmore⟩ := commaRow_cons ps pss
    rw [hmore, List.append_assoc, nextKind_append (harg.kindsOf_ne_nil harg.nonempty)]
    exact fun h => hparen (harg.head?_eq h)

/-- Arguments that can be written without parentheses. -/
theorem exists_arguments {arg : String} {args : List String}
    (h : areArguments (arg :: args) = true) :
    ∃ pss, List.Forall₂ Argument (arg :: args) pss ∧
      LineRow (Signature.commaSeparated (arg :: args)) (commaRow pss) ∧
      ∀ qs, nextKind (commaRow pss ++ qs) ≠ .leftParen := by
  simp only [areArguments, Bool.and_eq_true] at h
  obtain ⟨⟨hall, hlast⟩, hhead⟩ := h
  obtain ⟨init, last, heq⟩ : ∃ init last, arg :: args = init ++ [last] :=
    ⟨_, _, (List.dropLast_append_getLast (List.cons_ne_nil arg args)).symm⟩
  rw [heq, List.getLast?_concat, Option.all_some] at hlast
  rw [heq] at hall
  simp only [List.all_append, List.all_cons, List.all_nil, Bool.and_true, Bool.and_eq_true,
    Bool.not_eq_true', String.isEmpty_eq_false_iff] at hall
  obtain ⟨pss, hpss⟩ := exists_forall₂ exists_argument hall.1
  obtain ⟨ps, hphrase, hline⟩ := exists_line_phrase hall.2.1 hlast
  have hargs : List.Forall₂ Argument (init ++ [last]) (pss ++ [ps]) :=
    List.rel_append hpss (.cons ⟨hphrase, hall.2.1⟩ .nil)
  rw [heq]
  refine ⟨pss ++ [ps], hargs, .list (hpss.imp fun _ _ h => h.toPieceRow) hline, ?_⟩
  exact nextKind_commaRow (heq ▸ hargs) (by simpa using hhead)

/-! ## Mixins and attributes -/

section Statements

variable {c : Cursor} {qs : List Piece}

theorem statement_of_name (h : c.kind = .name) (b : Body) :
    startsStatement c.kind = true ∧ c.statement b = c.nameStatement b :=
  ⟨by rw [h]; rfl, by simp [statement, h]⟩

/-- A word with arguments behind it, up to the end of the line. -/
theorem callArguments_of_word {k : TokenKind} {word : String} {args : List String}
    {pss : List (List Piece)}
    (hargs : List.Forall₂ Argument args pss)
    (hparen : ∀ qs, nextKind (commaRow pss ++ qs) ≠ .leftParen)
    (h : c.Faces (.token k word :: .blank :: (commaRow pss ++ .mark "\n" :: qs))) :
    ∃ c', c.advance.callArguments = (args, c') ∧ c'.endStatement = c' ∧
      c'.Faces (.mark "\n" :: qs) := by
  have hc := h.advance.blank
  obtain ⟨c', hread, hc'⟩ := hc.callArguments hargs rfl (by simp [markKind])
    (hc.kind_eq ▸ hparen _)
  exact ⟨c', hread, endStatement_of_kind (by rw [hc'.kind_eq]; rfl), hc'⟩

end Statements

theorem exists_mixin {names : List String} (kind : MixinKind) (hne : names ≠ [])
    (h : areArguments names = true) :
    ∃ ps, LineRow (kind.word ++ " " ++ Signature.commaSeparated names) ps ∧
      Declares (.leaf (.mixin kind names)) [] ps := by
  obtain ⟨name, names, rfl⟩ := List.exists_cons_of_ne_nil hne
  obtain ⟨pss, hargs, hline, hparen⟩ := exists_arguments h
  have hword : isVariable kind.word = true := by cases kind <;> rfl
  refine ⟨_, .join (.word (isIdentifier_of_isVariable hword)) .blank hline,
    fun {c qs} comments hc => ?_⟩
  have hkind : c.kind = .name := hc.kind.trans (identifierKind_of_isVariable hword)
  simp only [List.cons_append, List.nil_append] at hc
  obtain ⟨hstart, hname⟩ := statement_of_name hkind { comments }
  obtain ⟨c', hread, hend, hc'⟩ := callArguments_of_word hargs hparen hc
  refine ⟨hstart, c.peek.start, c', ?_, hc'⟩
  have hmixins : c.nameStatement { comments } = c.mixins kind { comments } := by
    cases kind <;> simp [nameStatement, hc.text, MixinKind.word]
  rw [hname, hmixins]
  simp [mixins, hread, hend]

/-! ## Methods and attributes -/

/-- A declaration with the word for its visibility in front, if it needs one. -/
theorem exists_visible (kind : Visibility → Kind) {text : String} {ps : List Piece}
    {signatures : List Signature} (hline : LineRow text ps)
    (hplain : Declares (kind .everyone) signatures ps)
    (hmarked : ∀ {c : Cursor} {qs : List Piece} (v : Visibility) (comments : List String),
      c.advance.Faces (ps ++ .mark "\n" :: qs) → ∃ start c', c'.Faces (.mark "\n" :: qs) ∧
        c.visibilityWord v { comments, signatures } = .declares (kind v) start { comments } c')
    (v : Visibility) :
    ∃ ps', LineRow (Print.visibilityMark v ++ text) ps' ∧ Declares (kind v) signatures ps' := by
  have hprefixed : ∃ ps', LineRow (v.word ++ " " ++ text) ps' ∧ Declares (kind v) signatures ps' := by
    have hword : isVariable v.word = true := by cases v <;> rfl
    refine ⟨_, .join (.word (isIdentifier_of_isVariable hword)) .blank hline,
      fun {c qs} comments hc => ?_⟩
    have hkind : c.kind = .name := hc.kind.trans (identifierKind_of_isVariable hword)
    simp only [List.cons_append, List.nil_append] at hc
    obtain ⟨hstart, hname⟩ := statement_of_name hkind { comments, signatures }
    obtain ⟨start, c', hc', hread⟩ := hmarked v comments hc.advance.blank
    refine ⟨hstart, start, c', ?_, hc'⟩
    rw [hname, ← hread]
    cases v <;> simp [nameStatement, hc.text, Visibility.word]
  cases v with
  | everyone => exact ⟨ps, by simpa [Print.visibilityMark] using hline, hplain⟩
  | family => exact hprefixed
  | owner => exact hprefixed

theorem exists_methodLine {m : Method} (h : m.isPrintable = true) (hdot : m.runsTogether = false) :
    ∃ ps, LineRow (Print.visibilityMark m.visibility ++ ("def "
        ++ (if m.isSingleton then "self." else "") ++ m.name
        ++ Print.argumentList (m.params.map Parameter.text) ++ "; end")) ps ∧
      Declares (.leaf (.method m)) m.signatures ps := by
  obtain ⟨ps, hline, hread⟩ := exists_method h hdot
  refine exists_visible (fun visibility => .leaf (.method { m with visibility })) hline
    (fun {c qs} comments hc => ?_) (fun {c qs} v comments hc => ?_) m.visibility
  · obtain ⟨hdef, c', hc', hmethod⟩ :=
      hread c.peek.start .everyone ⟨.everyone, comments, m.signatures⟩ hc
    refine ⟨by rw [hdef]; rfl, c.peek.start, c', ?_, hc'⟩
    rw [statement, hdef]
    exact hmethod
  · obtain ⟨hdef, c', hc', hmethod⟩ := hread c.peek.start v ⟨.everyone, comments, m.signatures⟩ hc
    have hsecond : c.nthKind 1 = .defWord := (nthKind_succ c 0).trans hdef
    refine ⟨c.peek.start, c', hc', ?_⟩
    simp [visibilityWord, hsecond, TokenKind.endsStatement, hmethod, Statement.afterVisibility,
      Statement.declares]

theorem attributes_of_symbols {c : Cursor} {qs : List Piece} {name : String} {names : List String}
    (hnames : (name :: names).all isIdentifier = true) {kind : AttributeKind}
    (h : c.Faces (.word kind.word :: .blank ::
      (commaRow ((name :: names).map fun name => [.symbol name]) ++ .mark "\n" :: qs)))
    (start : Position) (visibility : Visibility) (b : Body) :
    ∃ c', c'.Faces (.mark "\n" :: qs) ∧ c.attributes kind start visibility b = .declares
      (.leaf (.attr { kind, names := name :: names, visibility, signatures := b.signatures })) start
      { b with signatures := [] } c' := by
  have hparen (qs : List Piece) : nextKind
      (commaRow ((name :: names).map fun name => [.symbol name]) ++ qs) ≠ .leftParen :=
    nextKind_commaRow (Argument.symbols hnames) (by simp) qs
  obtain ⟨c', hread, hend, hc'⟩ := callArguments_of_word (Argument.symbols hnames) hparen h
  refine ⟨c', hc', ?_⟩
  have hfound : (((name :: names).map (":" ++ ·)).filter isSymbol).map symbolName
      = name :: names := by
    rw [List.filter_eq_self.2 (by simp [isSymbol_colon]), List.map_map]
    exact map_symbolName hnames
  have hproblems : symbolProblems ((name :: names).map (":" ++ ·)) = [] := by
    simp [symbolProblems, isSymbol_colon]
  simp only [attributes, hread, hfound, hproblems, reportAll, List.foldl_nil, List.isEmpty_cons,
    Bool.false_eq_true, if_false, hend]

theorem exists_attributes {a : Attribute} (h : a.isPrintable = true) :
    ∃ ps, LineRow (Print.visibilityMark a.visibility ++ (a.kind.word ++ " "
        ++ Signature.commaSeparated (a.names.map (":" ++ ·)))) ps ∧
      Declares (.leaf (.attr a)) a.signatures ps := by
  obtain ⟨kind, names, visibility, signatures⟩ := a
  simp only [Attribute.isPrintable, Bool.and_eq_true, Bool.not_eq_true'] at h
  obtain ⟨⟨hne, hnames⟩, -⟩ := h
  obtain ⟨name, names, rfl⟩ := List.exists_cons_of_ne_nil (List.isEmpty_eq_false_iff.1 hne)
  have hword : isVariable kind.word = true := by cases kind <;> rfl
  have hline := LineRow.join (.word (isIdentifier_of_isVariable hword)) .blank (.symbols hnames)
  refine exists_visible
    (fun visibility => .leaf (.attr { kind, names := name :: names, visibility, signatures })) hline
    (fun {c qs} comments hc => ?_) (fun {c qs} v comments hc => ?_) visibility
  · have hkind : c.kind = .name := hc.kind.trans (identifierKind_of_isVariable hword)
    obtain ⟨hstart, hname⟩ := statement_of_name hkind { comments, signatures }
    obtain ⟨c', hc', hread⟩ := attributes_of_symbols hnames hc c.peek.start .everyone
      ⟨.everyone, comments, signatures⟩
    refine ⟨hstart, c.peek.start, c', ?_, hc'⟩
    rw [hname, ← hread]
    cases kind <;> simp [nameStatement, hc.text, AttributeKind.word]
  · have hkind : c.nthKind 1 = .name :=
      (nthKind_succ c 0).trans (hc.kind.trans (identifierKind_of_isVariable hword))
    have htext : (c.nth 1).text = kind.word := by
      rw [nth_succ]
      exact hc.text
    have hofWord : AttributeKind.ofWord? kind.word = some kind := by cases kind <;> rfl
    obtain ⟨c', hc', hread⟩ := attributes_of_symbols hnames hc c.peek.start v
      ⟨.everyone, comments, signatures⟩
    refine ⟨c.peek.start, c', hc', ?_⟩
    simp [visibilityWord, hkind, TokenKind.endsStatement, htext, hofWord, hread,
      Statement.afterVisibility, Statement.declares]

/-! ## Helpers, ancestors and fields -/

/-- The words that can start a declaration. -/
def declarationWords : List String :=
  ["sig", "public", "protected", "private", "attr_reader", "attr_writer", "attr_accessor",
    "include", "extend", "mixes_in_class_methods", "requires_ancestor", "const", "prop", "enums"]

theorem nameStatement_of_notMem {c : Cursor} (h : c.text ∉ declarationWords) (b : Body) :
    c.nameStatement b = c.otherCall b := by
  unfold nameStatement
  split
  all_goals simp_all [declarationWords]

theorem exists_helper {name : String} (h : isSmallIdentifier name = true) :
    ∃ ps, LineRow (name ++ "!") ps ∧ Declares (.leaf (.helper name)) [] ps := by
  refine ⟨[.helper name], ⟨⟨by simp [Piece.helper], fun _ hd _ => .helper h ?_ fun _ => .nil, rfl,
    fun _ => rfl⟩, fun _ => .helper h rfl fun _ => .nil, rfl⟩, fun {c qs} comments hc => ?_⟩
  · simpa [meetsDelimiter] using hd
  · have hkind : c.kind = .name := hc.kind
    obtain ⟨hstart, hname⟩ := statement_of_name hkind { comments }
    refine ⟨hstart, c.peek.start, c.advance, ?_, hc.advance⟩
    have htext : c.text = name ++ "!" := hc.text
    have hlast : c.text.toList.getLast? = some '!' := by simp [htext]
    have hword : c.text ∉ declarationWords := fun hmem =>
      (by decide : ∀ word ∈ declarationWords, word.toList.getLast? ≠ some '!') _ hmem hlast
    have hnext : c.nthKind 1 = .newline := (nthKind_succ c 0).trans hc.advance.kind
    have hsmall : ∀ d ∈ name.toList, (d == '!') = false := fun d hd => by
      simp only [isSmallIdentifier, Bool.and_eq_true] at h
      refine beq_false_of_ne fun heq => ?_
      exact absurd (heq ▸ isIdentifierRest_of_mem h.1 hd) (by decide)
    have htrim : Text.trimEndWhere (· == '!') c.text = name := by
      rw [htext, Text.trimEndWhere_append hsmall (by simp)]
    rw [hname, nameStatement_of_notMem hword]
    simp [otherCall, atHelper, hlast, hnext, TokenKind.endsStatement, helperCall, htrim]

theorem exists_requiredAncestor {name : String} (h : isCaptured stopsNever ")" name = true) :
    ∃ ps, LineRow ("requires_ancestor \x7b " ++ name ++ " \x7d") ps ∧
      Declares (.leaf (.requiresAncestor name)) [] ps := by
  obtain ⟨ps, hps⟩ := exists_phrase h
  have hword : PieceRow "requires_ancestor" [.word "requires_ancestor"] := .word rfl
  have hline := LineRow.join hword .blank (.braces hps.toPieceRow)
  have htext : "requires_ancestor" ++ " " ++ ("\x7b " ++ name ++ " \x7d")
      = "requires_ancestor \x7b " ++ name ++ " \x7d" := String.toList_inj.1 (by simp)
  rw [htext] at hline
  refine ⟨_, hline, fun {c qs} comments hc => ?_⟩
  simp only [List.cons_append, List.append_assoc, List.nil_append] at hc
  obtain ⟨hstart, hname⟩ := statement_of_name hc.kind { comments }
  have hopen : c.advance.kind = .leftBrace := hc.advance.blank.kind
  obtain ⟨c', hcapture, hc'⟩ := hc.advance.blank.advance.blank.capture hps rfl
  have hall : c.advance.advance.captureAll = (name, c') := hcapture
  have hclose : c'.kind = .rightBrace := hc'.blank.kind
  have hend : c'.advance.endStatement = c'.advance :=
    endStatement_of_kind (by rw [hc'.blank.advance.kind_eq]; rfl)
  refine ⟨hstart, c.peek.start, c'.advance, ?_, hc'.blank.advance⟩
  rw [hname, nameStatement, hc.text]
  simp [requiredAncestor, expect_of_kind hopen, hall, expect_of_kind hclose, hend]

/-- A field, by what it is given. -/
theorem declares_field {kind : FieldKind} {name type : String} {options : List String}
    {default : Option String} {pss : List (List Piece)} (hname : isIdentifier name = true)
    (hargs : List.Forall₂ Argument ((":" ++ name) :: type :: options) pss)
    (hsymbol : ∀ qs, nextKind (commaRow pss ++ qs) = .symbol)
    (hdefault : (options.filterMap defaultOption?).getLast? = default)
    (hoptions : optionProblems kind options = []) :
    Declares (.leaf (.field { kind, name, type, default })) []
      (.word kind.word :: .blank :: commaRow pss) := by
  intro c qs comments hc
  have hword : isVariable kind.word = true := by cases kind <;> rfl
  have hkind : c.kind = .name := hc.kind.trans (identifierKind_of_isVariable hword)
  have hsecond : c.nthKind 1 = .symbol :=
    (nthKind_succ c 0).trans (hc.advance.blank.kind_eq.trans (hsymbol _))
  obtain ⟨hstart, hstatement⟩ := statement_of_name hkind { comments }
  obtain ⟨c', hread, hend, hc'⟩ := callArguments_of_word hargs (by simp [hsymbol]) hc
  refine ⟨hstart, c.peek.start, c', ?_, hc'⟩
  have hfield : c.nameStatement { comments } = c.structField kind { comments } := by
    cases kind <;> simp [nameStatement, hc.text, FieldKind.word, hsecond]
  rw [hstatement, hfield]
  simp [structField, hread, hdefault, hoptions, reportAll, hend, symbolName_colon hname]

/-- The option that gives a field its default value. -/
theorem exists_defaultOption {value : String} (hvalue : value ≠ "") (htrim : Text.trim value = value)
    (h : isCaptured endsArgument "\n" value = true) :
    ∃ ps, Argument ("default: " ++ value) ps ∧ LineRow ("default: " ++ value) ps ∧
      defaultOption? ("default: " ++ value) = some value := by
  obtain ⟨vs, hphrase, hline⟩ := exists_line_phrase hvalue h
  have hcomma := hphrase.endsCapture_nextKind (hphrase.kindsOf_ne_nil hvalue) []
  rw [List.append_nil] at hcomma
  have hoption := hphrase.keyword "default" rfl rfl rfl hvalue (ne_of_endsCapture hcomma rfl)
  refine ⟨_, ⟨hoption, by simp⟩, .keyword (rfl : isIdentifier "default" = true) hline, ?_⟩
  have htext : "default: " ++ value = "default:" ++ (" " ++ value) :=
    String.toList_inj.1 (by simp)
  rw [defaultOption?, htext, Text.after?_append, Option.map_some, Text.trim_blank_append, htrim]

theorem exists_field {f : Field} (h : f.isPrintable = true) :
    ∃ ps, LineRow (f.kind.word ++ " :" ++ f.name ++ ", " ++ f.type ++ (match f.default with
        | some value => ", default: " ++ value
        | none => "")) ps ∧ Declares (.leaf (.field f)) [] ps := by
  obtain ⟨kind, name, type, default⟩ := f
  simp only [Field.isPrintable, Bool.and_eq_true, Bool.not_eq_true', String.isEmpty_eq_false_iff] at h
  obtain ⟨⟨⟨hname, htype⟩, hcaptured⟩, hdefault⟩ := h
  have hword : isVariable kind.word = true := by cases kind <;> rfl
  have hrow := PieceRow.word (isIdentifier_of_isVariable hword)
  have hsymbol := Argument.symbol hname
  cases default with
  | none =>
    obtain ⟨ps, hphrase, hline⟩ := exists_line_phrase htype hdefault
    have hargs : List.Forall₂ Argument [":" ++ name, type] [[.symbol name], ps] :=
      .cons hsymbol (.cons ⟨hphrase, htype⟩ .nil)
    have hargsLine := LineRow.list (.cons hsymbol.toPieceRow .nil) hline
    have htext : kind.word ++ " " ++ Signature.commaSeparated ([":" ++ name] ++ [type])
        = kind.word ++ " :" ++ name ++ ", " ++ type ++ "" :=
      String.toList_inj.1 (by simp [Signature.commaSeparated])
    refine ⟨_, htext ▸ LineRow.join hrow .blank hargsLine, ?_⟩
    exact declares_field hname hargs (by simp [commaRow_cons_cons]) rfl rfl
  | some value =>
    simp only [Bool.and_eq_true, Bool.not_eq_true', String.isEmpty_eq_false_iff, beq_iff_eq]
      at hdefault
    obtain ⟨ps, hps⟩ := exists_phrase hcaptured
    obtain ⟨vs, hoption, hline, hread⟩ :=
      exists_defaultOption hdefault.1.1 hdefault.1.2 hdefault.2
    have hargs : List.Forall₂ Argument [":" ++ name, type, "default: " ++ value]
        [[.symbol name], ps, vs] := .cons hsymbol (.cons ⟨hps, htype⟩ (.cons hoption .nil))
    have hargsLine := LineRow.list (.cons hsymbol.toPieceRow (.cons hps.toPieceRow .nil)) hline
    have htext : kind.word ++ " "
        ++ Signature.commaSeparated ([":" ++ name, type] ++ ["default: " ++ value])
        = kind.word ++ " :" ++ name ++ ", " ++ type ++ (", default: " ++ value) :=
      String.toList_inj.1 (by simp [Signature.commaSeparated])
    refine ⟨_, htext ▸ LineRow.join hrow .blank hargsLine, ?_⟩
    exact declares_field hname hargs (by simp [commaRow_cons_cons]) (by simp [hread])
      (by simp [optionProblems, hread])

end StubMerge
