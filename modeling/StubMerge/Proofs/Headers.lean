import StubMerge.Proofs.Methods

/-!
# Headers of scopes are read as they are written

The header of a module or a class has a path of constants, and a class may have a superclass behind
it. A struct class is a constant that is set to a call; what it is given says which members it has.
-/

namespace StubMerge

open Cursor

/-! ## Paths -/

theorem pathParts_ne_nil (cs : List Char) : pathParts cs ≠ [] := by
  unfold pathParts
  split
  · simp
  · simp
  · split <;> simp

/-- Putting the separator back between the parts gives the path back. -/
theorem intercalate_pathParts (cs : List Char) :
    pathSeparator.toList.intercalate (pathParts cs) = cs := by
  fun_induction pathParts cs with
  | case1 => rfl
  | case2 cs ih =>
    cases hparts : pathParts cs with
    | nil => exact absurd hparts (pathParts_ne_nil cs)
    | cons part parts =>
      rw [List.intercalate_cons_cons, ← hparts, ih]
      simp [pathSeparator]
  | case3 c cs _ hnil => exact absurd hnil (pathParts_ne_nil cs)
  | case4 c cs _ part parts hparts ih =>
    rw [hparts] at ih
    cases parts with
    | nil => simpa using ih
    | cons next parts =>
      rw [List.intercalate_cons_cons] at ih ⊢
      rw [← ih]
      simp

/-- Constants with double colons between them, in pieces. -/
def pathRow : List String → List Piece
  | [] => []
  | [part] => [.word part]
  | part :: next :: parts => .word part :: .mark "::" :: pathRow (next :: parts)

/-- A path, perhaps from the top level, in pieces. -/
def pathPieces (rooted : Bool) (parts : List String) : List Piece :=
  if rooted then .mark "::" :: pathRow parts else pathRow parts

theorem exists_path {text : String} (h : isConstantPath text = true) :
    ∃ (rooted : Bool) (part : String) (parts : List String),
      text = (if rooted then "::" else "") ++ "::".intercalate (part :: parts) ∧
        (part :: parts).all isConstant = true := by
  have hparts (rest : String) (hrest : (pathParts rest.toList).all
      (fun part => isConstant (String.ofList part)) = true) : ∃ part parts,
      rest = "::".intercalate (part :: parts) ∧ (part :: parts).all isConstant = true := by
    have hjoin := intercalate_pathParts rest.toList
    cases hp : pathParts rest.toList with
    | nil => exact absurd hp (pathParts_ne_nil _)
    | cons part parts =>
      rw [hp] at hjoin hrest
      refine ⟨String.ofList part, parts.map String.ofList, ?_, ?_⟩
      · rw [← String.toList_inj, String.toList_intercalate, ← hjoin]
        simp [pathSeparator, Function.comp_def]
      · simpa using hrest
  unfold isConstantPath Text.afterOrAll at h
  cases hafter : Text.after? pathSeparator text with
  | none =>
    rw [hafter] at h
    obtain ⟨part, parts, heq, hall⟩ := hparts text h
    exact ⟨false, part, parts, by simpa using heq, hall⟩
  | some rest =>
    rw [hafter] at h
    obtain ⟨part, parts, heq, hall⟩ := hparts rest h
    refine ⟨true, part, parts, ?_, hall⟩
    rw [if_pos rfl, ← heq]
    obtain ⟨cs, hcs, rfl⟩ := Option.map_eq_some_iff.1 hafter
    rw [← String.toList_inj, ← List.isPrefixOf?_eq_some_iff_append_eq.1 hcs]
    simp [pathSeparator]

theorem identifierKind_of_isConstant {text : String} (h : isConstant text = true) :
    identifierKind text = .const := by
  simp only [isConstant, Bool.and_eq_true] at h
  simp [identifierKind, h.2]

theorem isIdentifier_of_isConstant {text : String} (h : isConstant text = true) :
    isIdentifier text = true := by
  simp only [isConstant, Bool.and_eq_true] at h
  exact h.1

theorem pathRow_line {part : String} {parts : List String}
    (h : (part :: parts).all isConstant = true) :
    LineRow ("::".intercalate (part :: parts)) (pathRow (part :: parts)) := by
  induction parts generalizing part with
  | nil =>
    rw [List.all_cons, Bool.and_eq_true] at h
    simpa [pathRow] using LineRow.word (isIdentifier_of_isConstant h.1)
  | cons next parts ih =>
    rw [List.all_cons, Bool.and_eq_true] at h
    have hpart := isIdentifier_of_isConstant h.1
    have hmore := ih h.2
    rw [String.intercalate_cons_cons, pathRow]
    exact {
      chars := by simp [hmore.chars]
      cuts := fun _ hd hbreak => .word hpart rfl fun _ =>
        .mark (by decide) (hmore.cuts rfl hd hbreak)
      quiet := by simp [hmore.quiet, isQuiet_markKind]
      level := fun n => by simp [hmore.level, depthAfter_markKind]
      cutsLine := fun _ => .word hpart rfl fun _ => .mark (by decide) (hmore.cutsLine rfl)
      settled := LineRow.settled_append hmore.settled [identifierKind part, markKind "::"] }

theorem pathPieces_line (rooted : Bool) {part : String} {parts : List String}
    (h : (part :: parts).all isConstant = true) :
    LineRow ((if rooted then "::" else "") ++ "::".intercalate (part :: parts))
      (pathPieces rooted (part :: parts)) := by
  have hpath := pathRow_line h
  cases rooted with
  | false => simpa [pathPieces] using hpath
  | true =>
    exact {
      chars := by simp [pathPieces, hpath.chars]
      cuts := fun _ hd hbreak => .mark (by decide) (hpath.cuts rfl hd hbreak)
      quiet := by simp [pathPieces, hpath.quiet, isQuiet_markKind]
      level := fun n => by simp [pathPieces, hpath.level, depthAfter_markKind]
      cutsLine := fun _ => .mark (by decide) (hpath.cutsLine rfl)
      settled := LineRow.settled_append hpath.settled [markKind "::"] }

namespace Cursor.Faces

variable {c : Cursor} {qs : List Piece}

theorem pathSegments {part : String} {parts : List String}
    (hparts : (part :: parts).all isConstant = true) (hq : nextKind qs ≠ .pathSeparator)
    (h : c.Faces (pathRow (part :: parts) ++ qs)) :
    c.kind = .const ∧
      ∃ c', c.pathSegments = ("::".intercalate (part :: parts), c') ∧ c'.Faces qs := by
  induction parts generalizing part c with
  | nil =>
    rw [List.all_cons, Bool.and_eq_true] at hparts
    have hnext : c.advance.kind ≠ .pathSeparator := h.advance.kind_eq ▸ hq
    refine ⟨h.kind.trans (identifierKind_of_isConstant hparts.1), c.advance, ?_, h.advance⟩
    rw [Cursor.pathSegments]
    simp [hnext, h.text]
  | cons next parts ih =>
    rw [List.all_cons, Bool.and_eq_true] at hparts
    obtain ⟨hconst, c', hread, hc'⟩ := ih hparts.2 h.advance.advance
    have hnext : c.advance.kind = .pathSeparator := h.advance.kind
    refine ⟨h.kind.trans (identifierKind_of_isConstant hparts.1), c', ?_, hc'⟩
    rw [Cursor.pathSegments]
    have hsecond : c.advance.nthKind 1 = .const := by
      rw [nthKind_succ]
      exact hconst
    simp [hnext, hsecond, hread, h.text]

theorem constantPath {rooted : Bool} {part : String} {parts : List String}
    (hparts : (part :: parts).all isConstant = true) (hq : nextKind qs ≠ .pathSeparator)
    (h : c.Faces (pathPieces rooted (part :: parts) ++ qs)) :
    ∃ c', c.constantPath
        = (some ((if rooted then "::" else "") ++ "::".intercalate (part :: parts)), c') ∧
      c'.Faces qs := by
  cases rooted with
  | false =>
    obtain ⟨hconst, c', hread, hc'⟩ := h.pathSegments hparts hq
    refine ⟨c', ?_, hc'⟩
    simp [Cursor.constantPath, eat, hconst, hread]
  | true =>
    obtain ⟨hconst, c', hread, hc'⟩ := h.advance.pathSegments hparts hq
    have hmark : c.kind = .pathSeparator := h.kind
    refine ⟨c', ?_, hc'⟩
    simp [Cursor.constantPath, eat, hmark, hconst, hread]

end Cursor.Faces

/-! ## Modules and classes -/

/-- The kinds of tokens that a statement with something to say can start with. What starts with a dot
would belong to the line above it. -/
def startsStatement : TokenKind → Bool
  | .newline | .semicolon | .comment | .endWord | .eof | .dot => false
  | _ => true

/-- In front of what ends a statement, the pieces open the scope. -/
def Opens (s : Scope) (ps : List Piece) : Prop :=
  ∀ {c : Cursor} {qs : List Piece} (b : Body), (nextKind qs).endsStatement = true →
    c.Faces (ps ++ qs) → startsStatement c.kind = true ∧
      ∃ start c', c.statement b = .opens s start b c' ∧ c'.Faces qs

/-- In front of a line break and below the signatures, the pieces declare what `kind` says. -/
def Declares (kind : Kind) (signatures : List Signature) (ps : List Piece) : Prop :=
  ∀ {c : Cursor} {qs : List Piece} (comments : List String), c.Faces (ps ++ .mark "\n" :: qs) →
    startsStatement c.kind = true ∧ ∃ start c',
      c.statement { comments, signatures } = .declares kind start { comments } c' ∧
        c'.Faces (.mark "\n" :: qs)

theorem ne_of_endsStatement {k k' : TokenKind} (h : k.endsStatement = true)
    (h' : k'.endsStatement = false) : k ≠ k' := by
  rintro rfl
  simp [h'] at h

theorem exists_module {name : String} (h : isConstantPath name = true) :
    ∃ ps, LineRow ("module " ++ name) ps ∧ Opens (.moduleOf name) ps := by
  obtain ⟨rooted, part, parts, rfl, hparts⟩ := exists_path h
  have hword : PieceRow "module" [.word "module"] := .word rfl
  refine ⟨_, .join hword .blank (pathPieces_line rooted hparts), fun {c qs} b hq hc => ?_⟩
  have hkind : c.kind = .moduleWord := hc.kind
  simp only [List.cons_append, List.nil_append] at hc
  obtain ⟨c', hread, hc'⟩ := hc.advance.blank.constantPath hparts (ne_of_endsStatement hq rfl)
  refine ⟨by rw [hkind]; rfl, c.peek.start, c', ?_, hc'⟩
  have hend : c'.endStatement = c' := endStatement_of_kind (hc'.kind_eq ▸ hq)
  simp [statement, hkind, moduleHeader, hread, hend]

theorem kindsOf_pathPieces {rooted : Bool} {part : String} {parts : List String}
    (h : (part :: parts).all isConstant = true) (qs : List Piece) :
    nextKind (pathPieces rooted (part :: parts) ++ qs) ≠ .shiftLeft := by
  rw [List.all_cons, Bool.and_eq_true] at h
  cases rooted with
  | true => simp [pathPieces, markKind]
  | false => cases parts <;> simp [pathPieces, pathRow, identifierKind_of_isConstant h.1]

theorem classHeader_of_path {c : Cursor} {qs : List Piece} {rooted : Bool} {part : String}
    {parts : List String} (hparts : (part :: parts).all isConstant = true)
    (hq : nextKind qs ≠ .pathSeparator) (b : Body)
    (hc : c.Faces (.word "class" :: .blank :: (pathPieces rooted (part :: parts) ++ qs))) :
    startsStatement c.kind = true ∧ ∃ c' : Cursor, c'.Faces qs ∧ c.statement b = .opens
      (.classOf ((if rooted then "::" else "") ++ "::".intercalate (part :: parts))
        c'.superclass.1) c.peek.start b c'.superclass.2.endStatement := by
  have hkind : c.kind = .classWord := hc.kind
  have hsecond : c.nthKind 1 ≠ .shiftLeft := by
    rw [nthKind_succ, show c.advance.nthKind 0 = _ from hc.advance.blank.kind_eq]
    exact kindsOf_pathPieces hparts qs
  obtain ⟨c', hread, hc'⟩ := hc.advance.blank.constantPath hparts hq
  refine ⟨by rw [hkind]; rfl, c', hc', ?_⟩
  simp [statement, hkind, hsecond, classHeader, hread]

theorem exists_class {name : String} (h : isConstantPath name = true) :
    ∃ ps, LineRow ("class " ++ name) ps ∧ Opens (.classOf name none) ps := by
  obtain ⟨rooted, part, parts, rfl, hparts⟩ := exists_path h
  have hword : PieceRow "class" [.word "class"] := .word rfl
  refine ⟨_, .join hword .blank (pathPieces_line rooted hparts), fun {c qs} b hq hc => ?_⟩
  obtain ⟨hstart, c', hc', hread⟩ := classHeader_of_path hparts (ne_of_endsStatement hq rfl) b hc
  have hless : c'.kind ≠ .less := hc'.kind_eq ▸ ne_of_endsStatement hq rfl
  have hend : c'.endStatement = c' := endStatement_of_kind (hc'.kind_eq ▸ hq)
  exact ⟨hstart, c.peek.start, c', by simp [hread, superclass, hless, hend], hc'⟩

/-- A class with a superclass. The header can end the line if the superclass can. -/
theorem exists_subclass {name parent : String} {ps : List Piece} (h : isConstantPath name = true)
    (hparent : Phrase stopsNever parent ps) (hne : parent ≠ "") :
    ∃ qs, PieceRow ("class " ++ name ++ (" < " ++ parent)) qs ∧
      (LineRow parent ps → LineRow ("class " ++ name ++ (" < " ++ parent)) qs) ∧
      Opens (.classOf name (some parent)) qs := by
  obtain ⟨rooted, part, parts, rfl, hparts⟩ := exists_path h
  have hword : PieceRow "class" [.word "class"] := .word rfl
  have hpath := hword.join .blank (pathPieces_line rooted hparts).toPieceRow
  rw [← String.append_assoc]
  refine ⟨_, hpath.join .less hparent.toPieceRow, fun hline => .join hpath .less hline,
    fun {c qs} b hq hc => ?_⟩
  simp only [List.cons_append, List.append_assoc, List.nil_append] at hc
  obtain ⟨hstart, c', hc', hread⟩ := classHeader_of_path hparts (by simp [markKind]) b hc
  have hless : c'.kind = .less := hc'.blank.kind
  obtain ⟨c'', hcapture, hc''⟩ := hc'.blank.advance.blank.capture hparent
    (by rw [endsCapture, hq]; rfl)
  have hall : c'.advance.captureAll = (parent, c'') := hcapture
  have hend : c''.endStatement = c'' := endStatement_of_kind (hc''.kind_eq ▸ hq)
  exact ⟨hstart, c.peek.start, c'', by simp [hread, superclass, hless, hall, reportIf, hne, hend],
    hc''⟩

theorem exists_singleton : ∃ ps, LineRow "class << self" ps ∧ Opens .singleton ps := by
  have hword : PieceRow "class" [.word "class"] := .word rfl
  have hmark : PieceRow "<<" [.mark "<<"] :=
    ⟨rfl, fun _ _ _ => .mark (by decide) .nil, rfl, fun _ => rfl⟩
  have hself : LineRow "self" [.word "self"] := .word rfl
  refine ⟨_, .join hword .blank (.join hmark .blank hself), fun {c qs} b hq hc => ?_⟩
  simp only [List.cons_append, List.nil_append] at hc
  have hkind : c.kind = .classWord := hc.kind
  have hsecond : c.nthKind 1 = .shiftLeft := by
    rw [nthKind_succ]
    exact hc.advance.blank.kind
  have hself : c.advance.advance.kind = .selfWord := hc.advance.blank.advance.blank.kind
  have hc' := hc.advance.blank.advance.blank.advance
  have hend : c.advance.advance.advance.endStatement = c.advance.advance.advance :=
    endStatement_of_kind (hc'.kind_eq ▸ hq)
  refine ⟨by rw [hkind]; rfl, c.peek.start, _, ?_, hc'⟩
  simp [statement, hkind, hsecond, singletonHeader, expect_of_kind hself, hend]

/-! ## Struct classes -/

theorem Argument.symbol {name : String} (h : isIdentifier name = true) :
    Argument (":" ++ name) [.symbol name] where
  toPhrase := .symbol h rfl
  nonempty := by simp

theorem Argument.symbols {names : List String} (h : names.all isIdentifier = true) :
    List.Forall₂ Argument (names.map (":" ++ ·)) (names.map fun name => [.symbol name]) := by
  rw [List.forall₂_map_left_iff, List.forall₂_map_right_iff, List.forall₂_same]
  exact fun name hname => .symbol (List.all_eq_true.1 h name hname)

theorem isSymbol_colon (name : String) : isSymbol (":" ++ name) = true := by
  simp [isSymbol]

/-- The names that symbols stand for. -/
theorem map_symbolName {names : List String} (h : names.all isIdentifier = true) :
    names.map (fun name => symbolName (":" ++ name)) = names := by
  refine (List.map_congr_left fun name hname => ?_).trans (List.map_id names)
  exact symbolName_colon (List.all_eq_true.1 h name hname)

/-- What a struct class is given. -/
def structArguments (members : List String) (keywordInit : Bool) : List String :=
  members.map (":" ++ ·) ++ if keywordInit then ["keyword_init: true"] else []

theorem exists_structArguments {members : List String} (h : members.all isIdentifier = true)
    (keywordInit : Bool) :
    ∃ pss, List.Forall₂ Argument (structArguments members keywordInit) pss := by
  have hmembers := Argument.symbols h
  cases keywordInit with
  | false => exact ⟨_, List.rel_append hmembers .nil⟩
  | true =>
    have hvalue : Phrase endsArgument "true" [.word "true"] := .single rfl (.word rfl)
    have hinit : Argument "keyword_init: true" _ :=
      ⟨hvalue.keyword "keyword_init" rfl rfl rfl (by decide) (by decide), by decide⟩
    exact ⟨_, List.rel_append hmembers (.cons hinit .nil)⟩

theorem keywordInit?_colon (name : String) : keywordInit? (":" ++ name) = none := by
  simp [keywordInit?, Text.after?, List.isPrefixOf?]

theorem keywordInit?_true : keywordInit? "keyword_init: true" = some true := by decide

theorem isSymbol_keywordInit : isSymbol "keyword_init: true" = false := by decide

theorem structProblems_structArguments (members : List String) (keywordInit : Bool) :
    structProblems (structArguments members keywordInit) = [] := by
  cases keywordInit <;>
    simp [structProblems, structArguments, List.filter_map, Function.comp_def, isSymbol_colon,
      keywordInit?_true]

theorem structOfArguments_structArguments {members : List String}
    (h : members.all isIdentifier = true) (name : String) (keywordInit : Bool) :
    structOfArguments name (structArguments members keywordInit)
      = .structOf name members keywordInit := by
  cases keywordInit <;>
    simp [structOfArguments, structArguments, List.filter_map, List.filterMap_map,
      Function.comp_def, isSymbol_colon, isSymbol_keywordInit, keywordInit?_colon,
      keywordInit?_true, map_symbolName h]

/-- The call that makes a struct class, without its arguments. -/
def structCall : List Piece := [.mark "::", .word "Struct", .mark ".", .word "new"]

theorem structCall_line : LineRow "::Struct.new" structCall where
  chars := rfl
  cuts _ hd _ := .mark (by decide) (.word rfl rfl fun _ => .dot (by simp) (.word rfl
    (endsName_of_meetsDelimiter (by simpa [meetsDelimiter] using hd)) fun _ => .nil))
  quiet := rfl
  level _ := rfl
  cutsLine _ := .mark (by decide) (.word rfl rfl fun _ => .dot (by simp) (.word rfl rfl
    fun _ => .nil))
  settled := rfl

namespace Cursor.Faces

variable {c : Cursor} {qs : List Piece}

theorem argumentGroup {args : List String} {pss : List (List Piece)}
    (hargs : List.Forall₂ Argument args pss) (hq : nextKind qs ≠ .leftParen)
    (h : c.Faces (argumentPieces pss ++ qs)) :
    ∃ c', c.argumentGroup = (args, c') ∧ c'.Faces qs := by
  cases hargs with
  | nil =>
    have hkind : c.kind ≠ .leftParen := h.kind_eq ▸ hq
    exact ⟨c, by simp [Cursor.argumentGroup, hkind], h⟩
  | cons harg hargs =>
    simp only [argumentPieces, List.isEmpty_cons, Bool.false_eq_true, if_false, List.cons_append,
      List.append_assoc, List.nil_append] at h
    have hkind : c.kind = .leftParen := h.kind
    obtain ⟨c', hread, hc'⟩ := h.callArguments_parens (.cons harg hargs)
    exact ⟨c', by simp [Cursor.argumentGroup, hkind, hread], hc'⟩

theorem atStructClass (h : c.Faces (structCall ++ qs)) : c.atStructClass = true := by
  have hmark : c.kind = .pathSeparator := h.kind
  have hconst : c.advance.kind = .const := h.advance.kind
  have hdot : c.advance.nthKind 1 = .dot := by
    rw [nthKind_succ]
    exact h.advance.advance.kind
  have hnew : (c.advance.nth 2).text = "new" := by
    rw [nth_succ, nth_succ]
    exact h.advance.advance.advance.text
  have hstruct : c.advance.text = "Struct" := h.advance.text
  simp [Cursor.atStructClass, eat_of_kind hmark, hconst, hstruct, hdot, hnew]

/-- A struct class, up to the word that opens its body or the end of the statement. -/
theorem structHeader {members : List String} (hmembers : members.all isIdentifier = true)
    {keywordInit : Bool} {pss : List (List Piece)}
    (hargs : List.Forall₂ Argument (structArguments members keywordInit) pss)
    (hq : nextKind qs ≠ .leftParen) (h : c.Faces (structCall ++ (argumentPieces pss ++ qs)))
    (name : String) (start : Position) (b : Body) :
    ∃ c' : Cursor, c'.Faces qs ∧ c.structHeader name start b =
      if c'.kind == .doWord then
        .opens (.structOf name members keywordInit) start b c'.advance.endStatement
      else .declares (.scope (.structOf name members keywordInit)) start b c' := by
  have hmark : c.kind = .pathSeparator := h.kind
  have hconst : c.advance.kind = .const := h.advance.kind
  have hdot : c.advance.advance.kind = .dot := h.advance.advance.kind
  have hskip : c.advance.skip 3 = c.advance.advance.advance.advance := by
    rw [skip_succ (by simp [hconst]), skip_succ (by simp [hdot])]
    rfl
  obtain ⟨c', hread, hc'⟩ := h.advance.advance.advance.advance.argumentGroup hargs hq
  refine ⟨c', hc', ?_⟩
  simp [Cursor.structHeader, eat_of_kind hmark, hskip, hread, structProblems_structArguments,
    reportAll, structOfArguments_structArguments hmembers]

end Cursor.Faces

theorem statement_of_constant {c : Cursor} {qs : List Piece} {name : String}
    (hname : isConstant name = true)
    (h : c.Faces (.word name :: .blank :: .mark "=" :: .blank :: qs)) (b : Body) :
    startsStatement c.kind = true ∧ c.statement b = c.constant b ∧ c.text = name ∧
      c.advance.advance.Faces qs := by
  have hkind : c.kind = .const := h.kind.trans (identifierKind_of_isConstant hname)
  have hsecond : c.nthKind 1 = .equals := by
    rw [nthKind_succ]
    exact h.advance.blank.kind
  refine ⟨by rw [hkind]; rfl, by simp [statement, hkind, hsecond], h.text, ?_⟩
  exact h.advance.blank.advance.blank

theorem exists_struct {name : String} {members : List String} (hname : isConstant name = true)
    (hmembers : members.all isIdentifier = true) (keywordInit : Bool) :
    ∃ ps, LineRow (Print.header (.structOf name members keywordInit)) ps ∧
      Opens (.structOf name members keywordInit) (ps ++ [.blank, .word "do"]) ∧
      Declares (.scope (.structOf name members keywordInit)) [] ps := by
  obtain ⟨pss, hpss⟩ := exists_structArguments hmembers keywordInit
  have hrows : List.Forall₂ PieceRow (structArguments members keywordInit) pss :=
    hpss.imp fun _ _ h => h.toPieceRow
  have hline := LineRow.join (.word (isIdentifier_of_isConstant hname)) .equals
    (structCall_line.argumentList hrows)
  have htext : name ++ " = " ++ ("::Struct.new"
      ++ Print.argumentList (structArguments members keywordInit))
      = Print.header (.structOf name members keywordInit) :=
    String.toList_inj.1 (by simp [Print.header, structArguments])
  rw [htext] at hline
  refine ⟨_, hline, fun {c qs} b hq hc => ?_, fun {c qs} comments hc => ?_⟩
  · simp only [List.cons_append, List.append_assoc, List.nil_append] at hc
    obtain ⟨hstart, hconstant, hcname, hvalue⟩ := statement_of_constant hname hc b
    obtain ⟨c', hc', hread⟩ := hvalue.structHeader hmembers hpss (by simp; decide) name
      c.peek.start b
    have hdo : c'.kind = .doWord := hc'.blank.kind
    have hend : c'.advance.endStatement = c'.advance :=
      endStatement_of_kind (hc'.blank.advance.kind_eq ▸ hq)
    refine ⟨hstart, c.peek.start, c'.advance, ?_, hc'.blank.advance⟩
    rw [hconstant, constant, hcname, hvalue.atStructClass]
    simp [hread, hdo, hend]
  · simp only [List.cons_append, List.append_assoc, List.nil_append] at hc
    obtain ⟨hstart, hconstant, hcname, hvalue⟩ := statement_of_constant hname hc { comments }
    obtain ⟨c', hc', hread⟩ := hvalue.structHeader hmembers hpss (by simp [markKind]) name
      c.peek.start { comments }
    have hline : c'.kind = .newline := hc'.kind
    refine ⟨hstart, c.peek.start, c', ?_, hc'⟩
    rw [hconstant, constant, hcname, hvalue.atStructClass]
    simp [hread, hline]

/-! ## All scopes -/

/-- The header of a printable scope opens it. -/
theorem exists_opening {s : Scope} (h : s.isPrintable false = true) :
    ∃ ps, LineRow (Print.openingHeader s) ps ∧ Opens s ps := by
  cases s with
  | moduleOf name => exact exists_module h
  | classOf name superclass =>
    simp only [Scope.isPrintable, Bool.and_eq_true] at h
    obtain ⟨hname, hsuper⟩ := h
    cases superclass with
    | none => simpa [Print.openingHeader, Print.header] using exists_class hname
    | some parent =>
      simp only [Option.all_some, Bool.and_eq_true, Bool.not_eq_true', String.isEmpty_eq_false_iff]
        at hsuper
      obtain ⟨ps, hphrase, hline⟩ := exists_line_phrase hsuper.1 hsuper.2
      obtain ⟨qs, -, hrow, hopens⟩ := exists_subclass hname hphrase hsuper.1
      exact ⟨qs, hrow hline, hopens⟩
  | structOf name members keywordInit =>
    simp only [Scope.isPrintable, Bool.and_eq_true] at h
    obtain ⟨ps, hrow, hopens, -⟩ := exists_struct h.1 h.2 keywordInit
    have hdo : LineRow "do" [.word "do"] := .word rfl
    have hline := LineRow.join hrow.toPieceRow .blank hdo
    rw [String.append_assoc, show " " ++ "do" = " do" from rfl] at hline
    exact ⟨_, hline, hopens⟩
  | singleton => exact exists_singleton

/-- A printable scope without a body, apart from struct classes, is opened and closed in one line. -/
theorem exists_closed {s : Scope} (h : s.isPrintable true = true)
    (hs : ∀ name members keywordInit, s ≠ .structOf name members keywordInit) :
    ∃ ps, LineRow (Print.closedHeader s) (ps ++ [.mark ";", .blank, .word "end"]) ∧ Opens s ps := by
  have hend : LineRow "end" [.word "end"] := .word rfl
  have hclose {ps : List Piece} (h : PieceRow (Print.header s) ps) :
      LineRow (Print.header s ++ "; end") (ps ++ [.mark ";", .blank, .word "end"]) := by
    have hline := LineRow.join h .semicolon hend
    rwa [String.append_assoc, show "; " ++ "end" = "; end" from rfl] at hline
  cases s with
  | moduleOf name =>
    obtain ⟨ps, hrow, hopens⟩ := exists_module h
    exact ⟨ps, hclose hrow.toPieceRow, hopens⟩
  | classOf name superclass =>
    simp only [Scope.isPrintable, Bool.and_eq_true] at h
    obtain ⟨hname, hsuper⟩ := h
    cases superclass with
    | none =>
      obtain ⟨ps, hrow, hopens⟩ := exists_class hname
      exact ⟨ps, hclose (by simpa [Print.header] using hrow.toPieceRow), hopens⟩
    | some parent =>
      simp only [Option.all_some, Bool.and_eq_true, Bool.not_eq_true', String.isEmpty_eq_false_iff]
        at hsuper
      obtain ⟨ps, hphrase⟩ := exists_phrase hsuper.2
      obtain ⟨qs, hrow, -, hopens⟩ := exists_subclass hname hphrase hsuper.1
      exact ⟨qs, hclose hrow, hopens⟩
  | structOf name members keywordInit => exact absurd rfl (hs name members keywordInit)
  | singleton =>
    obtain ⟨ps, hrow, hopens⟩ := exists_singleton
    exact ⟨ps, hclose hrow.toPieceRow, hopens⟩

end StubMerge
