import Mathlib.Data.List.DropRight
import StubMerge.Proofs.Captures

/-!
# What tokens look like

A token is cut out of a text because of how it is spelled, so that its spelling can be told from its
kind: the text of a constant is a constant, a comment has no line break, and what names a method can
be read as the name of a method again, wherever it stands.
-/

namespace StubMerge

namespace Text

theorem mem_of_mem_trimEnd {text : String} {c : Char} (h : c ∈ (trimEnd text).toList) :
    c ∈ text.toList := by
  rw [trimEnd, trimEndWhere, String.toList_ofList, List.mem_reverse] at h
  exact List.mem_reverse.1 ((List.dropWhile_sublist _).subset h)

theorem mem_of_mem_afterOrAll {start text : String} {c : Char}
    (h : c ∈ (afterOrAll start text).toList) : c ∈ text.toList := by
  unfold afterOrAll after? at h
  cases hinitial : start.toList.isPrefixOf? text.toList with
  | none => simpa [hinitial] using h
  | some rest =>
    rw [← List.isPrefixOf?_eq_some_iff_append_eq.1 hinitial]
    exact List.mem_append_right _ (by simpa [hinitial] using h)

theorem trimEnd_trimEnd (text : String) : trimEnd (trimEnd text) = trimEnd text := by
  simp only [trimEnd, trimEndWhere, String.toList_ofList, List.reverse_reverse,
    List.dropWhile_idempotent]

/-- What is left of a text starts with no blank, and so does every part of it that stands first. -/
theorem dropWhile_rdropWhile (p : Char → Bool) (cs : List Char) :
    ((cs.dropWhile p).rdropWhile p).dropWhile p = (cs.dropWhile p).rdropWhile p := by
  have hinitial := List.rdropWhile_prefix p (cs.dropWhile p)
  rw [List.dropWhile_eq_self_iff]
  intro hpos
  have hfirst := List.dropWhile_eq_self_iff.1 (List.dropWhile_idempotent p cs)
    (Nat.lt_of_lt_of_le hpos hinitial.length_le)
  simpa [hinitial.getElem hpos] using hfirst

theorem trim_trim (text : String) : trim (trim text) = trim text := by
  have hdrop := dropWhile_rdropWhile isBlank text.toList
  rw [List.rdropWhile] at hdrop
  simp only [trim, trimWhere, trimEndWhere, String.toList_ofList, hdrop, List.reverse_reverse,
    List.dropWhile_idempotent]

end Text

/-! ## What tokens look like -/

section Tokens

variable {previous c : Char} {cs ys : List Char} {n : Nat}

theorem kind_colonLexeme (previous : Char) (cs : List Char) :
    (colonLexeme previous cs).1 = .colon ∨ (colonLexeme previous cs).1 = .pathSeparator ∨
      (colonLexeme previous cs).1 = .symbol := by
  unfold colonLexeme
  split
  · simp
  · split_ifs <;> simp

theorem lexeme_const (h : lexeme previous c cs = (.const, n)) :
    c.isUpper = true ∧ n = runLength isIdentifierRest cs := by
  have hcolon : (colonLexeme previous cs).1 ≠ .const := by
    rcases kind_colonLexeme previous cs with h | h | h <;> simp [h]
  have hword (n : Nat) := (wordKind_ne_const (c :: cs.take n)).1
  have hkind : (lexeme previous c cs).1 = .const →
      c.isUpper = true ∧ (lexeme previous c cs).2 = runLength isIdentifierRest cs := by
    unfold lexeme
    split
    all_goals try split_ifs
    all_goals simp_all
  rw [h] at hkind
  exact hkind rfl

theorem lexeme_name (h : lexeme previous c cs = (.name, n)) :
    (c = '$' ∧ n = runLength isIdentifierRest cs) ∨ (isIdentifierStart c = true ∧
      c.isUpper = false ∧ n = nameLength cs ∧ wordKind (c :: cs.take n) = .name) := by
  have hcolon : (colonLexeme previous cs).1 ≠ .name := by
    rcases kind_colonLexeme previous cs with h | h | h <;> simp [h]
  have hkind : (lexeme previous c cs).1 = .name →
      (c = '$' ∧ (lexeme previous c cs).2 = runLength isIdentifierRest cs) ∨
        (isIdentifierStart c = true ∧ c.isUpper = false ∧ (lexeme previous c cs).2 = nameLength cs ∧
          wordKind (c :: cs.take (lexeme previous c cs).2) = .name) := by
    unfold lexeme
    split
    all_goals try split_ifs
    all_goals simp_all
  rw [h] at hkind
  exact hkind rfl

end Tokens

namespace Token.IsCut

variable {t : Token} {previous : Char} {ys : List Char}

/-- Only what starts with a colon depends on what it stands behind. -/
theorem head?_ne_colon (h : t.IsCut previous ys)
    (hk : t.kind ∉ [.colon, .pathSeparator, .symbol]) : t.text.toList.head? ≠ some ':' := by
  obtain ⟨c, cs, htext, -, hlex, -⟩ := h
  intro heq
  obtain rfl : c = ':' := by simpa [htext] using heq
  have hkind : (colonLexeme previous (cs ++ ys)).1 = t.kind := congrArg Prod.fst hlex
  rcases kind_colonLexeme previous (cs ++ ys) with h | h | h
  all_goals exact hk (by rw [← hkind, h]; decide)

/-- Only a colon is something else behind a blank. -/
theorem behind_blank (h : t.IsCut previous ys) (hk : t.kind ≠ .colon) : t.IsCut ' ' ys := by
  by_cases hprevious : endsValue previous = true
  · obtain ⟨c, cs, htext, hgap, hlex, hkind⟩ := h
    refine ⟨c, cs, htext, hgap, ?_, hkind⟩
    by_cases hc : c = ':'
    · subst hc
      rw [← hlex]
      -- Behind a value only a second colon keeps the first from being a token.
      have hne : (colonLexeme previous (cs ++ ys)).1 ≠ .colon := by
        intro heq
        exact hk ((congrArg Prod.fst hlex).symm.trans heq)
      show colonLexeme ' ' (cs ++ ys) = colonLexeme previous (cs ++ ys)
      unfold colonLexeme at hne ⊢
      split
      · rfl
      · split_ifs <;> simp_all
    · rw [lexeme_behind hc, hlex]
  · exact h.behind (.inl (Bool.eq_false_iff.2 hprevious).symm)

/-- A token can stand at the start of a text, in front of what may replace what follows it. -/
theorem alone {zs : List Char} (h : t.IsCut previous ys)
    (hk : t.kind ∉ [.colon, .pathSeparator, .symbol, .string, .comment, .unknown])
    (hlike : Resembles ys zs) : t.IsCut '\x00' zs := by
  simp only [List.mem_cons, List.not_mem_nil, or_false, not_or] at hk
  have hhead : t.text.toList.head? ≠ some ':' := h.head?_ne_colon (by simp [hk])
  refine (h.resembles hk.2.2.2.2.1 hlike (by simp [hk]) fun hslash => ?_).behind (.inr hhead)
  obtain ⟨c, cs, htext, -, hlex, -⟩ := h
  obtain ⟨rfl, rfl⟩ : c = '\\' ∧ cs = [] := by simpa [hslash, eq_comm] using htext
  have hunknown : t.kind = .unknown := (congrArg Prod.fst hlex).symm
  exact absurd hunknown hk.2.2.2.2.2

/-- The tokens of the text of a token alone. -/
theorem tokens_ofText (h : t.IsCut previous ys)
    (hk : t.kind ∉ [.colon, .pathSeparator, .symbol, .string, .comment, .unknown]) {closer : String}
    {d : Char} (hcloser : closer.toList = [d]) (hmark : closer ∈ loneMarks) (hd : d ∈ delimiters) :
    (TokenList.ofText (t.text ++ closer)).tokens = tokensFrom .origin [t.piece, .mark closer] := by
  have hcut : t.IsCut '\x00' [d] := h.alone hk (.stop (mem_closers hd))
  have hcuts : Cuts [] '\x00' [t.piece, .mark closer] :=
    Token.IsCut.cuts (by simpa [hcloser] using hcut) (.mark hmark .nil)
  exact StubMerge.tokens_ofText (by simp [Token.piece]) hcuts

theorem isConstant (h : t.IsCut previous ys) (hk : t.kind = .const) : isConstant t.text = true := by
  obtain ⟨c, cs, htext, -, hlex, -⟩ := h
  rw [hk] at hlex
  obtain ⟨hupper, hlength⟩ := lexeme_const hlex
  have hrest := (runLength_eq_length_iff.1 hlength.symm).1
  have halpha : (c.isUpper || c.isLower) = true := by simp [hupper]
  have hstart : isIdentifierStart c = true := Bool.or_eq_true_iff.2 (.inl halpha)
  simp [StubMerge.isConstant, isIdentifier, startsUpper, htext, hrest, hstart, hupper]

theorem isCallWord (h : t.IsCut previous ys) (hk : t.kind = .name) : isCallWord t.text = true := by
  rw [StubMerge.isCallWord, h.tokens_ofText (by simp [hk]) rfl (by decide) (by decide)]
  simp [tokensFrom, Token.piece, Piece.mark, hk, markKind]

theorem isVariable (h : t.IsCut previous ys) (hk : t.kind = .name)
    (hname : isIdentifier t.text = true) : isVariable t.text = true := by
  obtain ⟨c, cs, htext, -, hlex, -⟩ := h
  rw [hk] at hlex
  obtain ⟨rfl, -⟩ | ⟨-, hupper, -, hword⟩ := lexeme_name hlex
  · simp [isIdentifier, htext, isIdentifierStart] at hname
  · rw [List.take_left] at hword
    simp [StubMerge.isVariable, isSmallIdentifier, hname, startsUpper, htext, hupper, hword]

/-- What is left of a name that ends in an exclamation mark, without the mark. -/
theorem isSmallIdentifier (h : t.IsCut previous ys) (hk : t.kind = .name)
    (hlast : t.text.toList.getLast? = some '!') :
    isSmallIdentifier (Text.trimEndWhere (· == '!') t.text) = true := by
  obtain ⟨c, cs, htext, -, hlex, -⟩ := h
  rw [hk] at hlex
  have hmark : isIdentifierRest '!' = false := by decide
  have hplain : ∀ as : List Char, as.all isIdentifierRest = true →
      ∀ a ∈ as, (a == '!') = false := by
    intro as has a ha
    refine beq_false_of_ne ?_
    rintro rfl
    simpa [hmark] using List.all_eq_true.1 has _ ha
  -- The mark is neither the first character nor one of an identifier.
  have hsuffix (hc : c ≠ '!') (hcs : cs.all isIdentifierRest = true) : False := by
    rw [htext, List.getLast?_cons] at hlast
    cases hlast' : cs.getLast? with
    | none => exact hc (by simpa [hlast'] using hlast)
    | some a =>
      obtain rfl : a = '!' := by simpa [hlast'] using hlast
      simpa using hplain cs hcs _ (List.mem_of_getLast? hlast')
  obtain ⟨rfl, hrun⟩ | ⟨hstart, hupper, hlength, -⟩ := lexeme_name hlex
  · exact absurd (hsuffix (by decide) (runLength_eq_length_iff.1 hrun.symm).1) id
  · have hc : c ≠ '!' := by
      rintro rfl
      cases hstart
    obtain ⟨hrun, -⟩ | ⟨as, q, rfl, has, -, -⟩ := nameLength_eq_length_iff.1 hlength.symm
    · exact absurd (hsuffix hc (runLength_eq_length_iff.1 hrun).1) id
    · obtain rfl : q = '!' := by
        rw [htext, ← List.cons_append, List.getLast?_concat] at hlast
        exact Option.some.inj hlast
      have hname : Text.trimEndWhere (· == '!') t.text = String.ofList (c :: as) := by
        have happend : t.text = String.ofList (c :: as) ++ "!" :=
          String.toList_inj.1 (by simp [htext])
        rw [happend]
        refine Text.trimEndWhere_append ?_ (by simp)
        simpa [hc] using hplain as has
      simp [hname, StubMerge.isSmallIdentifier, isIdentifier, startsUpper, hstart, has, hupper]

/-- What a comment says is written in one line. -/
theorem isCommentLine (h : t.IsCut previous ys) (hk : t.kind = .comment) :
    isCommentLine (Text.trimEnd (Text.afterOrAll " " (Text.afterOrAll "#" t.text))) = true := by
  obtain ⟨c, cs, htext, -, hlex, -⟩ := h
  rw [hk] at hlex
  obtain ⟨rfl, hbreak, -⟩ := lexeme_comment hlex
  rw [StubMerge.isCommentLine, Text.trimEnd_trimEnd, beq_self_eq_true, Bool.and_true,
    Bool.not_eq_true', List.contains_eq_mem, decide_eq_false_iff_not]
  intro hmem
  have hmem' := Text.mem_of_mem_afterOrAll
    (Text.mem_of_mem_afterOrAll (Text.mem_of_mem_trimEnd hmem))
  rw [htext] at hmem'
  simp [hbreak] at hmem'

end Token.IsCut

/-! ## Names -/

/-- What is read as the name of a method in its line is one. -/
theorem NameRow.isMethodName {text : String} {ps : List Piece} (h : NameRow text ps) :
    isMethodName text = true := by
  have hcuts : Cuts [] '\x00' (ps ++ [.mark ";"]) :=
    (h.cuts rfl (by decide) (by decide)).append (.mark (by decide) .nil)
  have hfaces : (Cursor.ofTokens none (TokenList.ofText (text ++ ";"))).Faces (ps ++ [.mark ";"]) :=
    ⟨rfl, .origin, tokens_ofText (by simp [h.chars]) hcuts⟩
  obtain ⟨c, hread, hc⟩ := h.read (by simp [nextKind, Piece.mark, markKind]) hfaces
  obtain ⟨p, hp⟩ := hc.tokens
  simp [StubMerge.isMethodName, hread, hp, tokensFrom, Piece.mark]

namespace Token.IsCut

variable {t e : Token} {previous : Char} {ys : List Char}

/-- A token that names a method. -/
theorem isMethodName (h : t.IsCut previous ys)
    (hk : (t.kind = .name ∨ t.kind = .const) ∨ namesMethod t.kind = true) :
    isMethodName t.text = true := by
  have hplain : t.kind ∉ [.colon, .pathSeparator, .symbol, .string, .comment, .unknown] := by
    revert hk
    cases t.kind <;> simp [namesMethod]
  have htokens : (TokenList.ofText (t.text ++ ";")).tokens
      = tokensFrom .origin [t.piece, .mark ";"] :=
    h.tokens_ofText hplain rfl (by decide) (by decide)
  exact (nameRow_single (t := ⟨t.kind, t.text, _, _⟩) htokens rfl rfl hk).isMethodName

/-- A name with an equals sign right behind it. -/
theorem isMethodName_setter (h : t.IsCut previous ('=' :: ys))
    (hk : t.kind = .name ∨ t.kind = .const) (hequals : lexeme previous '=' ys = (.equals, 0)) :
    StubMerge.isMethodName (t.text ++ "=") = true := by
  have hplain : t.kind ∉ [.colon, .pathSeparator, .symbol, .string, .comment, .unknown] := by
    obtain hk | hk := hk <;> simp [hk]
  have hlength : (lexeme previous '=' ys).2 = 0 := congrArg Prod.snd hequals
  have hcut : t.IsCut '\x00' ['=', ';'] := h.alone hplain (.near (by decide) hlength)
  have hcuts : Cuts [] '\x00' [t.piece, .mark "=", .mark ";"] :=
    Token.IsCut.cuts hcut (.separator (by decide) (by decide) (.mark (by decide) .nil))
  have htokens : (TokenList.ofText (t.text ++ "=" ++ ";")).tokens
      = tokensFrom .origin [t.piece, .mark "=", .mark ";"] :=
    StubMerge.tokens_ofText (by simp [Token.piece]) hcuts
  exact (nameRow_setter (t := ⟨t.kind, t.text, _, _⟩) htokens rfl rfl hk rfl).isMethodName

end Token.IsCut

theorem pathParts_append {cs : List Char} (h : ':' ∉ cs) (ds : List Char) :
    pathParts (cs ++ ':' :: ':' :: ds) = cs :: pathParts ds := by
  induction cs with
  | nil => rfl
  | cons c cs ih =>
    rw [List.mem_cons, not_or] at h
    rw [List.cons_append, pathParts, ih h.2]
    rintro _ rfl
    exact absurd rfl h.1

theorem pathParts_of_notMem {cs : List Char} (h : ':' ∉ cs) : pathParts cs = [cs] := by
  induction cs with
  | nil => rfl
  | cons c cs ih =>
    rw [List.mem_cons, not_or] at h
    rw [pathParts, ih h.2]
    rintro _ rfl
    exact absurd rfl h.1

theorem notMem_of_isConstant {text : String} (h : isConstant text = true) : ':' ∉ text.toList := by
  intro hmem
  rw [isConstant, Bool.and_eq_true] at h
  exact absurd (isIdentifierRest_of_mem h.1 hmem) (by decide)

end StubMerge
