import StubMerge.Proofs.Builders
import StubMerge.Reading.Statement

/-!
# Methods are read as they are written

The line of a method has its name, its parameters and nothing else that says something. What can be
a name is decided by reading it alone, so the first part of this module moves a name from there to
its place in the line; the second does the seven kinds of parameters.
-/

namespace StubMerge

open Cursor

/-! ## Names -/

/-- The name of a method, in pieces. -/
structure NameRow (text : String) (ps : List Piece) : Prop extends PieceRow text ps where
  /-- It is taken for a name where no equals sign follows. -/
  read : ∀ {c : Cursor} {qs : List Piece}, nextKind qs ≠ .equals → c.Faces (ps ++ qs) →
    ∃ c', c.methodName = (some text, c') ∧ c'.Faces qs
  /-- It does not look like a receiver. -/
  plain : ∀ {qs : List Piece}, nextKind qs ≠ .dot → (kindsOf (ps ++ qs))[1]?.getD .eof ≠ .dot

/-- The pieces of a text that is nothing but a few tokens. -/
theorem row_of_tokens {text closer : String} {d : Char} (ts : List Token) {x : Token}
    (hd : d ∈ delimiters) (hcloser : closer.toList = [d])
    (hts : (TokenList.ofText (text ++ closer)).tokens = ts ++ [x]) (hx : x.text = closer)
    (hlength : text.toList.length ≤ (ts.flatMap (·.text.toList)).length)
    (hquiet : (ts.map Token.kind).all TokenKind.isQuiet = true)
    (hlevel : ∀ n, (ts.map Token.kind).foldl depthAfter n = n) :
    PieceRow text (ts.map Token.piece) := by
  obtain ⟨hchars, hcuts⟩ := cuts_of_tokens hcloser hts hx hlength
  rw [← kindsOf_map_piece] at hquiet hlevel
  refine ⟨hchars, fun hprevious he hbreak => ?_, hquiet, hlevel⟩
  refine hcuts.swap hd he (fun h => absurd h hbreak) (hprevious.trans (by decide)) fun hmem => ?_
  simpa [TokenKind.isQuiet] using List.all_eq_true.1 hquiet _ hmem

/-- The kinds of tokens, apart from names, that name a method by themselves. -/
def namesMethod : TokenKind → Bool
  | .operator | .less | .shiftLeft | .star | .doubleStar | .ampersand
  | .classWord | .moduleWord | .defWord | .endWord | .selfWord | .doWord => true
  | _ => false

/-- Whether an equals sign follows the current token at once. -/
def Cursor.atSetter (c : Cursor) : Bool :=
  c.nthKind 1 == .equals && c.peek.stop.offset == (c.nth 1).start.offset

theorem methodName_of_name {c : Cursor} (h : c.kind = .name ∨ c.kind = .const) :
    c.methodName = (some (c.advance.setterMark c.text c.atSetter).1,
      (c.advance.setterMark c.text c.atSetter).2) := by
  unfold methodName
  obtain h | h := h <;> simp only [h, atSetter]

theorem methodName_of_bracket {c : Cursor} (h : c.kind = .leftBracket) :
    c.methodName = if c.nthKind 1 == .rightBracket then
        (some (c.advance.advance.setterMark "[]" (c.advance.advance.kind == .equals)).1,
          (c.advance.advance.setterMark "[]" (c.advance.advance.kind == .equals)).2)
      else (none, c) := by
  simp only [methodName, h]

theorem methodName_of_namesMethod {c : Cursor} (h : namesMethod c.kind = true) :
    c.methodName = (some c.text, c.advance) := by
  unfold methodName
  revert h
  cases c.kind <;> simp [namesMethod]

theorem kind_of_methodName {c : Cursor} {text : String} (h : c.methodName.1 = some text) :
    (c.kind = .name ∨ c.kind = .const) ∨ c.kind = .leftBracket ∨ namesMethod c.kind = true := by
  unfold methodName at h
  revert h
  cases c.kind <;> simp [namesMethod]

theorem Cursor.exists_rest {c : Cursor} (h : c.kind ≠ .eof) : ∃ t ts,
    c.rest = t :: ts ∧ c.kind = t.kind ∧ c.text = t.text ∧ c.advance.rest = ts := by
  cases hrest : c.rest with
  | nil => simp [Cursor.kind, nthKind, hrest] at h
  | cons t ts =>
    exact ⟨t, ts, rfl, by simp [Cursor.kind, nthKind, hrest],
      by simp [Cursor.text, peek, nth, hrest], by simp [advance, skip, hrest]⟩

/-- A name without an equals sign, or another token that names a method. -/
theorem nameRow_single {text : String} {t x : Token}
    (hts : (TokenList.ofText (text ++ ";")).tokens = [t, x]) (hx : x.text = ";")
    (htext : t.text = text)
    (hkind : (t.kind = .name ∨ t.kind = .const) ∨ namesMethod t.kind = true) :
    NameRow text [t.piece] where
  toPieceRow := by
    have hplain : t.kind.isQuiet = true ∧ ∀ n, depthAfter n t.kind = n := by
      obtain (hk | hk) | hk := hkind
      · simp [hk, TokenKind.isQuiet, depthAfter, TokenKind.opensGroup, TokenKind.closesGroup]
      · simp [hk, TokenKind.isQuiet, depthAfter, TokenKind.opensGroup, TokenKind.closesGroup]
      · revert hk
        cases t.kind <;>
          simp [namesMethod, TokenKind.isQuiet, depthAfter, TokenKind.opensGroup,
            TokenKind.closesGroup]
    exact row_of_tokens [t] (by decide) rfl hts hx (by simp [htext]) (by simp [hplain])
      (by simp [hplain])
  read {c qs} hq h := by
    have hc : c.Faces (.token t.kind t.text :: qs) := h
    refine ⟨c.advance, ?_, hc.advance⟩
    obtain hk | hk := hkind
    · have hsetter : c.atSetter = false := by
        rw [atSetter, nthKind_succ, show c.advance.nthKind 0 = nextKind qs from hc.advance.kind_eq,
          beq_false_of_ne hq, Bool.false_and]
      rw [methodName_of_name (hc.kind ▸ hk), hsetter, hc.text, htext]
      rfl
    · rw [methodName_of_namesMethod (hc.kind ▸ hk), hc.text, htext]
  plain {qs} hq := by
    have hsecond : (kindsOf ([t.piece] ++ qs))[1]?.getD .eof = nextKind qs := by
      simp [Token.piece, nextKind, List.head?_eq_getElem?]
    rwa [hsecond]

/-- A name with an equals sign. -/
theorem nameRow_setter {t e x : Token} {text : String}
    (hts : (TokenList.ofText (text ++ ";")).tokens = [t, e, x]) (hx : x.text = ";")
    (htext : text = t.text ++ "=") (hkind : t.kind = .name ∨ t.kind = .const)
    (he : e.kind = .equals) : NameRow text [t.piece, e.piece] where
  toPieceRow := by
    have hpos := length_text_pos (t := e) (by rw [hts]; simp)
    refine row_of_tokens [t, e] (by decide) rfl hts hx ?_ ?_ ?_
    · simp only [htext, String.toList_append, List.length_append, List.flatMap_cons,
        List.flatMap_nil, List.append_nil]
      exact Nat.add_le_add_left hpos _
    · obtain hk | hk := hkind <;> simp [hk, he, TokenKind.isQuiet]
    · obtain hk | hk := hkind <;>
        simp [hk, he, depthAfter, TokenKind.opensGroup, TokenKind.closesGroup]
  read {c qs} hq h := by
    have hc : c.Faces (.token t.kind t.text :: .token e.kind e.text :: qs) := h
    refine ⟨c.advance.advance, ?_, hc.advance.advance⟩
    have hsetter : c.atSetter = true := by
      rw [atSetter, nthKind_succ, show c.advance.nthKind 0 = e.kind from hc.advance.kind_eq, he,
        hc.adjacent]
      simp
    rw [methodName_of_name (hc.kind ▸ hkind), hsetter, hc.text, htext]
    rfl
  plain _ := by simp [Token.piece, he]

/-- Two brackets. -/
def bracketPieces : List Piece := [.token .leftBracket "[", .token .rightBracket "]"]

theorem cuts_brackets {rest : List Char} {previous : Char} {ps : List Piece} (h : Cuts rest ']' ps) :
    Cuts rest previous (bracketPieces ++ ps) :=
  .token (c := '[') rfl (Cuts.gapLength_of_notMem (by decide) _) rfl (by decide)
    (.token (c := ']') rfl (Cuts.gapLength_of_notMem (by decide) _) rfl (by decide) h)

theorem methodName_brackets {c : Cursor} {qs : List Piece} (h : c.Faces (bracketPieces ++ qs)) :
    c.methodName = (some (c.advance.advance.setterMark "[]" (nextKind qs == .equals)).1,
      (c.advance.advance.setterMark "[]" (nextKind qs == .equals)).2) := by
  have hsecond : c.nthKind 1 = .rightBracket := by
    rw [nthKind_succ]
    exact h.advance.kind
  rw [methodName_of_bracket h.kind, hsecond, h.advance.advance.kind_eq]
  rfl

theorem nameRow_brackets : NameRow "[]" bracketPieces where
  chars := rfl
  cuts _ _ _ := cuts_brackets .nil
  quiet := rfl
  level _ := rfl
  read hq h := ⟨_, by rw [methodName_brackets h, beq_false_of_ne hq]; rfl, h.advance.advance⟩
  plain _ := by simp [bracketPieces]

theorem nameRow_bracketSetter : NameRow "[]=" (bracketPieces ++ [.mark "="]) where
  chars := rfl
  cuts _ hd _ := cuts_brackets (.separator (by decide) (by simpa [meetsDelimiter] using hd) .nil)
  quiet := rfl
  level _ := rfl
  read _ h := ⟨_, methodName_brackets h, h.advance.advance.advance⟩
  plain _ := by simp [bracketPieces]

/-- A name that is read alone can be read in its line. -/
theorem exists_nameRow {text : String} (h : isMethodName text = true) :
    ∃ ps, NameRow text ps := by
  simp only [isMethodName, Bool.and_eq_true, beq_iff_eq] at h
  obtain ⟨hname, hlast⟩ := h
  generalize hc : Cursor.ofTokens none (TokenList.ofText (text ++ ";")) = c at hname hlast
  have htokens : (TokenList.ofText (text ++ ";")).tokens = c.rest := by rw [← hc]; rfl
  -- Behind the name there is nothing but the semicolon.
  have hend {ts : List Token} (h : ts.map Token.text = [";"]) : ∃ x, ts = [x] ∧ x.text = ";" := by
    obtain ⟨x, rfl⟩ := List.length_eq_one_iff.1 (by simpa using congrArg List.length h)
    exact ⟨x, rfl, by simpa using h⟩
  have hsingle (hne : c.kind ≠ .eof) (hname : c.text = text)
      (hlast : c.advance.rest.map Token.text = [";"])
      (hkind : (c.kind = .name ∨ c.kind = .const) ∨ namesMethod c.kind = true) :
      ∃ ps, NameRow text ps := by
    obtain ⟨t, ts, hrest, htkind, httext, hnext⟩ := exists_rest hne
    obtain ⟨x, hx, hclose⟩ := hend hlast
    rw [hrest, ← hnext, hx] at htokens
    exact ⟨_, nameRow_single htokens hclose (httext ▸ hname) (htkind ▸ hkind)⟩
  obtain hk | hk | hk := kind_of_methodName hname
  · have hne : c.kind ≠ .eof := by obtain hk | hk := hk <;> simp [hk]
    rw [methodName_of_name hk] at hname hlast
    cases hsetter : c.atSetter with
    | false =>
      rw [hsetter] at hname hlast
      exact hsingle hne (Option.some.inj hname) hlast (.inl hk)
    | true =>
      rw [hsetter] at hname hlast
      rw [atSetter, Bool.and_eq_true, beq_iff_eq, nthKind_succ] at hsetter
      obtain ⟨t, ts, hrest, htkind, httext, hnext⟩ := exists_rest hne
      have hequals : c.advance.kind = .equals := hsetter.1
      obtain ⟨e, es, hrest', hekind, -, hnext'⟩ := exists_rest (c := c.advance) (by simp [hequals])
      obtain ⟨x, hx, hclose⟩ := hend hlast
      rw [show (c.advance.setterMark c.text true).2.rest = es from hnext'] at hx
      rw [hrest, ← hnext, hrest', hx] at htokens
      have htext : text = t.text ++ "=" := by
        rw [← httext]
        exact (Option.some.inj hname).symm
      exact ⟨_, nameRow_setter htokens hclose htext (htkind ▸ hk) (hekind ▸ hequals)⟩
  · rw [methodName_of_bracket hk] at hname
    split at hname
    · cases hequals : c.advance.advance.kind == .equals with
      | false =>
        rw [hequals] at hname
        obtain rfl : "[]" = text := Option.some.inj hname
        exact ⟨_, nameRow_brackets⟩
      | true =>
        rw [hequals] at hname
        obtain rfl : "[]=" = text := Option.some.inj hname
        exact ⟨_, nameRow_bracketSetter⟩
    · cases hname
  · have hne : c.kind ≠ .eof := fun h => by simp [h, namesMethod] at hk
    rw [methodName_of_namesMethod hk] at hname hlast
    exact hsingle hne (Option.some.inj hname) hlast (.inr hk)

/-! ## Parameters -/

/-- The kinds of tokens that follow a parameter. -/
def followsParameter (k : TokenKind) : Bool := k == .comma || k == .rightParen

/-- A parameter, in pieces. -/
structure ParameterRow (p : Parameter) (ps : List Piece) : Prop extends PieceRow p.text ps where
  starts : ∀ qs, nextKind (ps ++ qs) ≠ .rightParen ∧ nextKind (ps ++ qs) ≠ .eof
  read : ∀ {c : Cursor} {qs : List Piece}, followsParameter (nextKind qs) = true →
    c.Faces (ps ++ qs) → ∃ c', c.parameter = (some p, c') ∧ c'.Faces qs

namespace ParameterRow

variable {name value mark : String} {ps : List Piece}

theorem plain_of_markedParameter {k : TokenKind} {kind : ParameterKind}
    (h : markedParameter? k = some kind) :
    k.isQuiet = true ∧ (∀ n, depthAfter n k = n) ∧ k ≠ .rightParen ∧ k ≠ .eof := by
  revert h
  cases k <;> simp [markedParameter?, TokenKind.isQuiet, depthAfter, TokenKind.opensGroup,
    TokenKind.closesGroup]

/-- A mark is cut off in front of a name or a delimiter. -/
theorem cuts_sign {rest : List Char} {previous : Char} (hmark : mark ∈ ["*", "**", "&"])
    (hnext : (charsOf ps ++ rest).head?.all (fun c => !(['*', '&', '.'].contains c)) = true)
    (h : ∀ c, Cuts rest c ps) : Cuts rest previous (.mark mark :: ps) := by
  obtain rfl | hsign : mark = "**" ∨ mark ∈ ["*", "&"] := by
    simp only [List.mem_cons] at hmark ⊢
    tauto
  · exact .mark (by decide) (h _)
  · exact .sign hsign hnext (h _)

/-- A mark alone. -/
theorem unnamed {kind : ParameterKind} (hmark : mark ∈ ["*", "**", "&"])
    (hkind : markedParameter? (markKind mark) = some kind)
    (htext : ({ kind, name := "" } : Parameter).text = mark) :
    ParameterRow { kind, name := "" } [.mark mark] where
  chars := by simp [htext]
  cuts {_ d _} _ hd _ := by
    have hnext : (!(['*', '&', '.'].contains d)) = true := of_mem_of_all hd (by decide)
    exact cuts_sign hmark hnext fun _ => .nil
  quiet := by simp [plain_of_markedParameter hkind]
  level n := by simp [plain_of_markedParameter hkind]
  starts qs := by simp [plain_of_markedParameter hkind]
  read {c qs} hq h := by
    have hnext : nextKind qs ≠ .name := fun heq => by simp [heq, followsParameter] at hq
    have hword : c.advance.kind ≠ .name := h.advance.kind_eq ▸ hnext
    refine ⟨c.advance, ?_, h.advance⟩
    simp [Cursor.parameter, h.kind, hkind, hword]

/-- A mark in front of a name. -/
theorem marked {kind : ParameterKind} (hmark : mark ∈ ["*", "**", "&"])
    (hkind : markedParameter? (markKind mark) = some kind)
    (htext : ({ kind, name } : Parameter).text = mark ++ name) (hname : isVariable name = true) :
    ParameterRow { kind, name } [.mark mark, .word name] where
  chars := by simp [htext]
  cuts {_ d _} _ hd _ := by
    have hid := isIdentifier_of_isVariable hname
    obtain ⟨c, cs, hcs, hstart, -⟩ := exists_cons_of_isIdentifier hid
    refine cuts_sign hmark ?_ fun _ => .word hid
      (endsName_of_meetsDelimiter (by simpa [meetsDelimiter] using hd)) fun _ => .nil
    have hne : c ∉ ['*', '&', '.'] := by
      intro hc
      have hnot : ¬isIdentifierStart c = true := of_mem_of_all hc (by decide)
      exact hnot hstart
    simpa [hcs] using hne
  quiet := by simp [plain_of_markedParameter hkind]
  level n := by simp [plain_of_markedParameter hkind]
  starts qs := by simp [plain_of_markedParameter hkind]
  read {c qs} hq h := by
    have hword : c.advance.kind = .name :=
      h.advance.kind.trans (identifierKind_of_isVariable hname)
    refine ⟨c.advance.advance, ?_, h.advance.advance⟩
    simp [Cursor.parameter, h.kind, hkind, hword, h.advance.text]

/-- A parameter that starts with its name. -/
theorem parameter_of_name {c : Cursor} (h : c.kind = .name) :
    c.parameter = (some (c.advance.namedParameter c.text).1, (c.advance.namedParameter c.text).2) := by
  simp [Cursor.parameter, h, markedParameter?]

theorem required (hname : isVariable name = true) : ParameterRow { name } [.word name] where
  toPieceRow := .word (isIdentifier_of_isVariable hname)
  starts qs := by simp [identifierKind_of_isVariable hname]
  read {c qs} hq h := by
    have hkind : c.kind = .name := h.kind.trans (identifierKind_of_isVariable hname)
    have hnext : nextKind qs ≠ .colon ∧ nextKind qs ≠ .equals := by
      constructor <;> intro heq <;> simp [heq, followsParameter] at hq
    refine ⟨c.advance, ?_, h.advance⟩
    rw [parameter_of_name hkind, h.text]
    simp [namedParameter, h.advance.kind_eq, hnext]

theorem keyword (hname : isVariable name = true) :
    ParameterRow { kind := .keyword, name } [.word name, .mark ":"] where
  chars := by simp [Parameter.text]
  cuts _ hd _ := .word (isIdentifier_of_isVariable hname) rfl fun _ =>
    .separator (by decide) (by simpa [meetsDelimiter] using hd) .nil
  quiet := by simp [isQuiet_markKind]
  level n := by simp [depthAfter_markKind]
  starts qs := by simp [identifierKind_of_isVariable hname]
  read {c qs} hq h := by
    have hkind : c.kind = .name := h.kind.trans (identifierKind_of_isVariable hname)
    have hcolon : c.advance.kind = .colon := h.advance.kind
    have hend : c.advance.advance.atKeywordEnd = true := by
      rw [atKeywordEnd, h.advance.advance.kind_eq]
      exact Bool.or_eq_true_iff.2 (.inl hq)
    refine ⟨c.advance.advance, ?_, h.advance.advance⟩
    rw [parameter_of_name hkind, h.text]
    simp [namedParameter, hcolon, hend]

theorem endsCapture_of_followsParameter {k : TokenKind} (h : followsParameter k = true) :
    endsCapture stopsAtComma k = true := by
  revert h
  cases k <;> simp [followsParameter, endsCapture, stopsAtComma, TokenKind.closesGroup]

theorem optionalKeyword (hname : isVariable name = true) (hvalue : Phrase stopsAtComma value ps)
    (hne : value ≠ "") :
    ParameterRow { kind := .optionalKeyword, name, default := some value }
      (.word name :: .mark ":" :: .blank :: ps) where
  toPieceRow := .keyword (isIdentifier_of_isVariable hname) hvalue.toPieceRow
  starts qs := by simp [identifierKind_of_isVariable hname]
  read {c qs} hq h := by
    have hkind : c.kind = .name := h.kind.trans (identifierKind_of_isVariable hname)
    have hcolon : c.advance.kind = .colon := h.advance.kind
    have hstart := hvalue.endsCapture_nextKind (hvalue.kindsOf_ne_nil hne) qs
    have hend : c.advance.advance.atKeywordEnd = false := by
      rw [atKeywordEnd, h.advance.advance.blank.kind_eq]
      revert hstart
      cases nextKind (ps ++ qs) <;>
        simp [endsCapture, stopsAtComma, TokenKind.closesGroup, TokenKind.endsStatement]
    obtain ⟨c', hcapture, hc'⟩ := h.advance.advance.blank.capture hvalue
      (endsCapture_of_followsParameter hq)
    have hread : c.advance.advance.capture (· == .comma) = (value, c') := hcapture
    refine ⟨c', ?_, hc'⟩
    rw [parameter_of_name hkind, h.text]
    simp [namedParameter, hcolon, hend, hread]

theorem optional (hname : isVariable name = true) (hvalue : Phrase stopsAtComma value ps) :
    ParameterRow { kind := .optional, name, default := some value }
      (.word name :: .blank :: .mark "=" :: .blank :: ps) where
  toPieceRow := (PieceRow.word (isIdentifier_of_isVariable hname)).join .equals hvalue.toPieceRow
  starts qs := by simp [identifierKind_of_isVariable hname]
  read {c qs} hq h := by
    have hkind : c.kind = .name := h.kind.trans (identifierKind_of_isVariable hname)
    have hequals : c.advance.kind = .equals := h.advance.blank.kind
    obtain ⟨c', hcapture, hc'⟩ := h.advance.blank.advance.blank.capture hvalue
      (endsCapture_of_followsParameter hq)
    have hread : c.advance.advance.capture (· == .comma) = (value, c') := hcapture
    refine ⟨c', ?_, hc'⟩
    rw [parameter_of_name hkind, h.text]
    simp [namedParameter, hequals, hread]

end ParameterRow

theorem exists_marked {kind : ParameterKind} {name : String} {default : Option String}
    (mark : String) (hmark : mark ∈ ["*", "**", "&"])
    (hkind : markedParameter? (markKind mark) = some kind)
    (htext : ∀ name, ({ kind, name } : Parameter).text = mark ++ name)
    (h : ((name.isEmpty || isVariable name) && default.isNone) = true) :
    ∃ ps, ParameterRow { kind, name, default } ps := by
  simp only [Bool.and_eq_true, Bool.or_eq_true, String.isEmpty_iff, Option.isNone_iff_eq_none] at h
  obtain ⟨rfl | hname, rfl⟩ := h
  · exact ⟨_, .unnamed hmark hkind ((htext "").trans (by simp))⟩
  · exact ⟨_, .marked hmark hkind (htext name) hname⟩

theorem exists_default {default : Option String}
    (h : default.any (fun value => !value.isEmpty && isCaptured stopsAtComma ")" value) = true) :
    ∃ value ps, default = some value ∧ value ≠ "" ∧ Phrase stopsAtComma value ps := by
  cases default with
  | none => cases h
  | some value =>
    simp only [Option.any_some, Bool.and_eq_true, Bool.not_eq_true', String.isEmpty_eq_false_iff] at h
    obtain ⟨ps, hps⟩ := exists_phrase h.2
    exact ⟨value, ps, rfl, h.1, hps⟩

theorem exists_parameterRow {p : Parameter} (h : p.isPrintable = true) :
    ∃ ps, ParameterRow p ps := by
  obtain ⟨kind, name, default⟩ := p
  cases kind with
  | required =>
    simp only [Parameter.isPrintable, Bool.and_eq_true, Option.isNone_iff_eq_none] at h
    obtain ⟨hname, rfl⟩ := h
    exact ⟨_, .required hname⟩
  | keyword =>
    simp only [Parameter.isPrintable, Bool.and_eq_true, Option.isNone_iff_eq_none] at h
    obtain ⟨hname, rfl⟩ := h
    exact ⟨_, .keyword hname⟩
  | optional =>
    simp only [Parameter.isPrintable, Bool.and_eq_true] at h
    obtain ⟨value, ps, rfl, -, hvalue⟩ := exists_default h.2
    exact ⟨_, .optional h.1 hvalue⟩
  | optionalKeyword =>
    simp only [Parameter.isPrintable, Bool.and_eq_true] at h
    obtain ⟨value, ps, rfl, hne, hvalue⟩ := exists_default h.2
    exact ⟨_, .optionalKeyword h.1 hvalue hne⟩
  | rest => exact exists_marked "*" (by decide) rfl (fun _ => rfl) h
  | keywordRest => exact exists_marked "**" (by decide) rfl (fun _ => rfl) h
  | block => exact exists_marked "&" (by decide) rfl (fun _ => rfl) h

theorem exists_forall₂ {α β : Type} {p : α → Bool} {R : α → β → Prop}
    (hR : ∀ {a}, p a = true → ∃ b, R a b) {as : List α} (h : as.all p = true) :
    ∃ bs, List.Forall₂ R as bs := by
  induction as with
  | nil => exact ⟨[], .nil⟩
  | cons a as ih =>
    rw [List.all_cons, Bool.and_eq_true] at h
    obtain ⟨b, hb⟩ := hR h.1
    obtain ⟨bs, hbs⟩ := ih h.2
    exact ⟨b :: bs, .cons hb hbs⟩

namespace Cursor.Faces

variable {c : Cursor} {qs : List Piece}

theorem parametersFrom {params : List Parameter} {pss : List (List Piece)}
    (hparams : List.Forall₂ ParameterRow params pss)
    (h : c.Faces (commaRow pss ++ .mark ")" :: qs)) :
    ∃ c', c.parametersFrom = (params, c') ∧ c'.Faces (.mark ")" :: qs) := by
  induction hparams generalizing c with
  | nil =>
    have hkind : c.kind = .rightParen := h.kind
    refine ⟨c, ?_, h⟩
    rw [Cursor.parametersFrom]
    simp [hkind]
  | @cons p ps params pss hp hparams ih =>
    cases hparams with
    | nil =>
      rw [commaRow_singleton] at h
      obtain ⟨c', hread, hc'⟩ := hp.read rfl h
      have hkind : c'.kind = .rightParen := hc'.kind
      refine ⟨c', ?_, hc'⟩
      rw [Cursor.parametersFrom]
      simp [h.kind_eq, hp.starts, hread, hkind]
    | cons hnext hparams =>
      rw [commaRow_cons_cons, List.append_assoc] at h
      obtain ⟨c', hread, hc'⟩ := hp.read rfl h
      have hkind : c'.kind = .comma := hc'.kind
      obtain ⟨c'', hmore, hc''⟩ := ih hc'.advance.blank
      refine ⟨c'', ?_, hc''⟩
      rw [Cursor.parametersFrom]
      simp [h.kind_eq, hp.starts, hread, hkind, hmore]

theorem parameters {params : List Parameter} {pss : List (List Piece)}
    (hparams : List.Forall₂ ParameterRow params pss)
    (h : c.Faces (argumentPieces pss ++ .mark ";" :: qs)) :
    ∃ c', c.parameters = (params, c') ∧ c'.Faces (.mark ";" :: qs) := by
  cases hparams with
  | nil =>
    have hkind : c.kind = .semicolon := h.kind
    refine ⟨c, ?_, h⟩
    rw [Cursor.parameters, Cursor.bareParameters]
    simp [hkind, atStatementEnd, TokenKind.endsStatement]
  | cons hp hparams =>
    simp only [argumentPieces, List.isEmpty_cons, Bool.false_eq_true, if_false, List.cons_append,
      List.append_assoc, List.nil_append] at h
    have hopen : c.kind = .leftParen := h.kind
    obtain ⟨c', hread, hc'⟩ := h.advance.parametersFrom (.cons hp hparams)
    have hclose : c'.kind = .rightParen := hc'.kind
    refine ⟨c'.advance, ?_, hc'.advance⟩
    simp [Cursor.parameters, hopen, parenthesizedParameters, hread, expect_of_kind hclose]

/-- A body that has nothing in it. -/
theorem methodEnd (h : c.Faces (.mark ";" :: .blank :: .word "end" :: qs)) :
    ∃ c', c.methodEnd = c' ∧ c'.Faces qs := by
  have hkind : c.kind = .semicolon := h.kind
  have hend : c.advance.kind = .endWord := h.advance.blank.kind
  have hskip : c.skipWhile (fun k => k == .newline || k == .semicolon || k == .comment)
      = c.advance := by
    rw [skipWhile_of_true (by simp [hkind]) (by simp [hkind]), skipWhile_of_false (by simp [hend])]
  have hblock : blockLength 0 c.advance.rest = 0 := by
    obtain ⟨t, ts, hrest, htkind, -⟩ := exists_rest (c := c.advance) (by simp [hend])
    rw [hrest, blockLength, ← htkind, hend]
    rfl
  refine ⟨c.advance.advance, ?_, h.advance.blank.advance⟩
  simp [Cursor.methodEnd, hkind, endStatement_of_kind, TokenKind.endsStatement, skipBlock, hskip,
    hend, reportIf, hblock, skip_zero, expect_of_kind hend]

end Cursor.Faces

/-! ## Methods -/

/-- The name of a method, behind its receiver if it belongs to the scope itself. -/
def receiverPieces (isSingleton : Bool) (ps : List Piece) : List Piece :=
  if isSingleton then .word "self" :: .mark "." :: ps else ps

theorem receiver_row {text : String} {ps : List Piece} {isSingleton : Bool} (h : PieceRow text ps)
    (hdot : (isSingleton && text.toList.head? == some '.') = false) :
    PieceRow ((if isSingleton then "self." else "") ++ text) (receiverPieces isSingleton ps) := by
  cases isSingleton with
  | false => simpa [receiverPieces] using h
  | true =>
    have hself : isIdentifier "self" = true := by decide
    have hne {d : Char} {ds : List Char} (hd : d ∈ delimiters) :
        (charsOf ps ++ d :: ds).head? ≠ some '.' := by
      rw [h.chars]
      cases hchars : text.toList with
      | nil =>
        have hd' : d ≠ '.' := of_mem_of_all hd (by decide)
        simpa using hd'
      | cons => simpa [hchars] using hdot
    exact {
      chars := by simp [receiverPieces, h.chars]
      cuts := fun _ hd hbreak => .word hself rfl fun _ => .dot (hne hd) (h.cuts rfl hd hbreak)
      quiet := by simp [receiverPieces, h.quiet, isQuiet_markKind]
      level := fun n => by simp [receiverPieces, h.level, depthAfter_markKind] }

theorem Cursor.Faces.receiver {c : Cursor} {text : String} {ps qs : List Piece} {isSingleton : Bool}
    (hname : NameRow text ps) (hequals : nextKind qs ≠ .equals) (hdot : nextKind qs ≠ .dot)
    (h : c.Faces (receiverPieces isSingleton ps ++ qs)) :
    (c.kind == .selfWord && c.nthKind 1 == .dot) = isSingleton ∧
      ∃ c', (if isSingleton then c.skip 2 else c).methodName = (some text, c') ∧ c'.Faces qs := by
  cases isSingleton with
  | false =>
    refine ⟨?_, hname.read hequals h⟩
    have hsecond : c.nthKind 1 ≠ .dot := by
      rw [h.nthKind]
      exact hname.plain hdot
    simp [hsecond]
  | true =>
    have hself : c.kind = .selfWord := h.kind
    have hsecond : c.nthKind 1 = .dot := by
      rw [nthKind_succ]
      exact h.advance.kind
    refine ⟨by simp [hself, hsecond], hname.read hequals ?_⟩
    rw [if_pos rfl, skip_succ (by simp [hself])]
    exact h.advance.advance

/-- The line of a method, its visibility apart, is read as that method. -/
theorem exists_method {m : Method} (h : m.isPrintable = true) (hdot : m.runsTogether = false) :
    ∃ ps, LineRow ("def " ++ (if m.isSingleton then "self." else "") ++ m.name
        ++ Print.argumentList (m.params.map Parameter.text) ++ "; end") ps ∧
      ∀ {c : Cursor} {qs : List Piece} (start : Position) (visibility : Visibility) (b : Body),
        c.Faces (ps ++ qs) → c.kind = .defWord ∧ ∃ c', c'.Faces qs ∧
          c.method start visibility b = .declares
            (.leaf (.method { m with visibility, signatures := b.signatures })) start
            { b with signatures := [] } c' := by
  simp only [Method.isPrintable, Bool.and_eq_true] at h
  obtain ⟨⟨hname, hparams⟩, -⟩ := h
  obtain ⟨ps, hps⟩ := exists_nameRow hname
  obtain ⟨pss, hpss⟩ := exists_forall₂ exists_parameterRow hparams
  have hrows : List.Forall₂ PieceRow (m.params.map Parameter.text) pss := by
    rw [List.forall₂_map_left_iff]
    exact hpss.imp fun _ _ => ParameterRow.toPieceRow
  have hdef : PieceRow "def" [.word "def"] := .word rfl
  have hend : LineRow "end" [.word "end"] := .word rfl
  have hline := LineRow.join hdef .blank
    (.join ((receiver_row hps.toPieceRow hdot).argumentList hrows) .semicolon hend)
  have htext : "def" ++ " " ++ ((if m.isSingleton then "self." else "") ++ m.name
      ++ Print.argumentList (m.params.map Parameter.text) ++ "; " ++ "end")
      = "def " ++ (if m.isSingleton then "self." else "") ++ m.name
        ++ Print.argumentList (m.params.map Parameter.text) ++ "; end" :=
    String.toList_inj.1 (by simp)
  rw [htext] at hline
  refine ⟨_, hline, fun {c qs} start visibility b hc => ⟨hc.kind, ?_⟩⟩
  simp only [List.cons_append, List.append_assoc, List.nil_append] at hc
  have hnext : nextKind (argumentPieces pss ++ .mark ";" :: .blank :: .word "end" :: qs)
      = .leftParen ∨ nextKind (argumentPieces pss ++ .mark ";" :: .blank :: .word "end" :: qs)
      = .semicolon := by
    cases pss <;> simp [argumentPieces, markKind]
  obtain ⟨hsingleton, c₁, hread, hc₁⟩ := hc.advance.blank.receiver hps
    (by obtain h | h := hnext <;> simp [h]) (by obtain h | h := hnext <;> simp [h])
  obtain ⟨c₂, hparams, hc₂⟩ := hc₁.parameters hpss
  obtain ⟨c₃, hbody, hc₃⟩ := hc₂.methodEnd
  refine ⟨c₃, hc₃, ?_⟩
  simp only [Cursor.method, hsingleton, hread, hparams, hbody]

end StubMerge
