import StubMerge.Proofs.Captures
import StubMerge.Proofs.Tiling

/-!
# Scanning line by line

A text can be scanned line by line. In front of a line break every token ends just as it ends at the
end of the text, and behind a line break the scanner looks at what follows as it does at the start.

**Theorem (`tokens_append_line`).** The tokens of two texts with a line break between them are those
of the first without its end, one for the line break, and those of the second, moved behind it. The
line break must not be taken by what stands in front of it: the first text does not end in a
backslash, and not in a string or symbol in quotes that is not closed. A NUL character at its end
would mean the end of the text there, and nothing in front of a line break.

Two facts carry the proof. The pieces of the first text are cut in front of a line break as well
(`Cuts.append_line`), since no token sees a difference (`Token.IsCut.append_line`). And where the
scanner stands matters to the places of the tokens only (`Scanner.IsMoved.run`).
-/

namespace StubMerge

/-! ## Strings that are not closed -/

/-- Whether the characters behind an opening quote hold the one that closes it. A backslash takes
the next character with it. -/
def closesQuote (quote : Char) : List Char → Bool
  | [] => false
  | ['\\'] => false
  | '\\' :: _ :: cs => closesQuote quote cs
  | c :: cs => c == quote || closesQuote quote cs

/-- Whether a token of a kind with these characters is a string, or a symbol in quotes, that is not
closed. -/
def leavesOpen : TokenKind → List Char → Bool
  | .string, quote :: cs => !closesQuote quote cs
  | .symbol, _ :: quote :: cs => (quote == '"' || quote == '\'') && !closesQuote quote cs
  | _, _ => false

/-- Whether a token is a string, or a symbol in quotes, that is not closed. -/
def Token.isUnterminated (t : Token) : Bool := leavesOpen t.kind t.text.toList

/-- What follows a closed string does not matter to it. -/
theorem stringLength_of_closesQuote {quote : Char} {cs : List Char}
    (h : closesQuote quote cs = true) (ds : List Char) :
    stringLength quote (cs ++ ds) = stringLength quote cs := by
  fun_induction closesQuote quote cs with
  | case1 => cases h
  | case2 => cases h
  | case3 c cs ih => simp [stringLength, ih h]
  | case4 c cs hnil hcons ih =>
    have hne : c ≠ '\\' := fun heq => by cases cs <;> simp_all
    rw [List.cons_append, stringLength_cons _ hne, stringLength_cons _ hne]
    split_ifs with hc
    · rfl
    · rw [ih (by simpa [hc] using h)]

section Closed

variable {previous first : Char} {cs : List Char} {kind : TokenKind}

theorem colonLexeme_closed (h : colonLexeme previous cs = (kind, cs.length))
    (hclosed : leavesOpen kind (':' :: cs) = false) :
    colonLexeme previous (cs ++ ['\n']) = (kind, cs.length) := by
  obtain hline | hline := colonLexeme_line h
  · exact hline
  -- It does not take the line break: a name cannot, and a closed string does not.
  · exfalso
    cases cs with
    | nil =>
      rw [List.nil_append, colonLexeme] at hline
      split_ifs at hline <;> simp_all [isIdentifierStart]
    | cons c cs =>
      simp only [List.cons_append, colonLexeme] at h hline
      split_ifs at h hline with hpath hvalue hname hquote
      · simp_all
      · simp_all
      · have hlike : Resembles [] ['\n'] := .stop (by decide)
        have hwhole : symbolLength (c :: cs ++ []) = (c :: cs).length := by
          rw [List.append_nil]
          exact congrArg Prod.snd h
        have hsymbol := hlike.symbolLength_eq hwhole
        rw [List.cons_append] at hsymbol
        have hlength := congrArg Prod.snd hline
        dsimp only at hlength
        omega
      · obtain ⟨rfl, hlength⟩ := Prod.mk.inj hline
        have hcloses : closesQuote c cs = true := by simpa [leavesOpen, hquote] using hclosed
        rw [stringLength_of_closesQuote hcloses] at hlength
        have hle := stringLength_le c cs
        rw [List.length_cons] at hlength
        omega
      · simp_all

/-- A string or symbol that is closed ends before a line break as it ends at the end of the text. -/
theorem lexeme_closed (hkind : kind = .string ∨ kind = .symbol)
    (h : lexeme previous first cs = (kind, cs.length))
    (hclosed : leavesOpen kind (first :: cs) = false) :
    lexeme previous first (cs ++ ['\n']) = (kind, cs.length) := by
  have hstring {quote : Char} (hk : TokenKind.string = kind)
      (hopen : leavesOpen kind (quote :: cs) = false)
      (hlength : stringLength quote cs = cs.length) :
      (TokenKind.string, stringLength quote (cs ++ ['\n'])) = (kind, cs.length) := by
    subst hk
    have hcloses : closesQuote quote cs = true := by simpa [leavesOpen] using hopen
    rw [stringLength_of_closesQuote hcloses, hlength]
  obtain rfl | rfl | rfl := first_of_quoted hkind h
  · obtain ⟨hk, hlength⟩ := Prod.mk.inj h
    exact hstring hk hclosed hlength
  · obtain ⟨hk, hlength⟩ := Prod.mk.inj h
    exact hstring hk hclosed hlength
  · exact colonLexeme_closed h hclosed

end Closed

/-! ## Tokens in front of a line break -/

/-- What a token sees is the same if something that starts with a closer is put behind it. -/
theorem Resembles.append (ys : List Char) {d : Char} (hd : d ∈ closers) (ds : List Char) :
    Resembles ys (ys ++ d :: ds) := by
  cases ys with
  | nil => exact .stop hd
  | cons x ys =>
    cases ys with
    | nil =>
      have hlength : (lexeme '\x00' x []).2 = 0 := by simpa using lexeme_le '\x00' x []
      exact .near hd hlength
    | cons y ys => exact .far

namespace Token.IsCut

variable {t : Token} {previous : Char} {ys : List Char}

theorem comment_append_line (h : t.IsCut previous ys) (hkind : t.kind = .comment)
    (ds : List Char) : t.IsCut previous (ys ++ '\n' :: ds) := by
  obtain ⟨c, cs, htext, -, hlex, heof⟩ := h
  rw [hkind] at hlex
  obtain ⟨rfl, -, hys⟩ := lexeme_comment hlex
  obtain ⟨hcs, -⟩ := runLength_eq_length_iff.1 (show runLength (· != '\n') (cs ++ ys) = cs.length
    from congrArg Prod.snd hlex)
  refine ⟨'#', cs, htext, by simp [gapLength], ?_, heof⟩
  rw [hkind]
  refine Prod.ext rfl (runLength_eq_length_iff.2 ⟨hcs, ?_⟩)
  cases ys with
  | nil => rfl
  | cons y ys => simpa [bne] using hys

/-- A token of a text is cut off in the same way if a line follows the text, unless it stands at the
end of the text and takes the line break. -/
theorem append_line (h : t.IsCut previous ys) (hslash : ys = [] → t.text ≠ "\\")
    (hclosed : ys = [] → t.isUnterminated = false) (ds : List Char) :
    t.IsCut previous (ys ++ '\n' :: ds) := by
  have hbreak : '\n' ∈ closers := by decide
  by_cases hcomment : t.kind = .comment
  · exact h.comment_append_line hcomment ds
  have hfold : t.text = "\\" → (ys ++ '\n' :: ds).head? ≠ some '\n' := by
    intro htext
    obtain ⟨c, cs, hcs, hgap, -⟩ := h
    obtain ⟨rfl, rfl⟩ : '\\' = c ∧ [] = cs := by simpa [htext] using hcs
    cases ys with
    | nil => exact absurd htext (hslash rfl)
    | cons y ys => exact fun hy => (gapLength_cons_eq_zero.1 hgap).2 ⟨rfl, hy⟩
  by_cases hopen : ys = [] ∧ (t.kind = .string ∨ t.kind = .symbol)
  · obtain ⟨rfl, hkind⟩ := hopen
    obtain ⟨c, cs, htext, hgap, hlex, heof⟩ := h
    have hquote : leavesOpen t.kind (c :: cs) = false := htext ▸ hclosed rfl
    rw [List.append_nil] at hlex hgap
    have hline : t.IsCut previous ['\n'] := by
      refine ⟨c, cs, htext, ?_, lexeme_closed hkind hlex hquote, heof⟩
      rw [gapLength_cons_eq_zero] at hgap ⊢
      refine ⟨hgap.1, fun hc => ?_⟩
      obtain rfl | rfl | rfl := first_of_quoted hkind hlex <;> simp at hc
    exact hline.resembles hcomment (.stop hbreak) (fun _ => by simp) hfold
  · exact h.resembles hcomment (.append ys hbreak ds) (fun hkind hys => hopen ⟨hys, hkind⟩) hfold

end Token.IsCut

namespace Cuts

variable {rest : List Char} {previous : Char} {ps : List Piece}

theorem eq_nil_of_charsOf (h : Cuts rest previous ps) (hchars : charsOf ps = []) : ps = [] := by
  cases h with
  | nil => rfl
  | @gap _ cs _ hgap =>
    rw [charsOf_gap, List.append_eq_nil_iff] at hchars
    rw [hchars.1] at hgap
    cases hgap
  | token htext => simp [htext] at hchars

/-- The pieces of a text are cut in front of a line as they are at the end of the text. -/
theorem append_line (h : Cuts [] previous ps) (hslash : (charsOf ps).getLast? ≠ some '\\')
    (hclosed : ∀ kind text, ps.getLast? = some (.token kind text) →
      leavesOpen kind text.toList = false) (ds : List Char) :
    Cuts ('\n' :: ds) previous ps := by
  induction h with
  | nil => exact .nil
  | gap hgap _ ih =>
    refine .gap hgap (ih (fun hlast => hslash ?_) fun kind text hlast => hclosed kind text ?_)
    · rw [charsOf_gap, List.getLast?_append, hlast, Option.some_or]
    · rw [List.getLast?_cons, hlast, Option.getD_some]
  | @token previous c cs kind text ps htext hgap hlex hkind hps ih =>
    have hcut : (⟨kind, text, .origin, .origin⟩ : Token).IsCut previous (charsOf ps ++ []) :=
      ⟨c, cs, htext, hgap, hlex, hkind⟩
    rw [List.append_nil] at hcut
    have hline := hcut.append_line (fun hnil htext' => hslash ?_) (fun hnil => ?_) ds
    · obtain ⟨c', cs', htext', hgap', hlex', -⟩ := hline
      obtain ⟨rfl, rfl⟩ := List.cons.inj (htext.symm.trans htext')
      refine .token htext hgap' hlex' hkind (ih (fun hlast => hslash ?_) fun kind' text' hlast =>
        hclosed kind' text' ?_)
      · rw [charsOf_token, List.getLast?_append, hlast, Option.some_or]
      · rw [List.getLast?_cons, hlast, Option.getD_some]
    · rw [charsOf_token, hnil, show text = "\\" from htext']
      rfl
    · rw [hps.eq_nil_of_charsOf hnil] at hclosed
      exact hclosed kind text rfl

end Cuts

namespace Scanner

theorem run_of_eof {s : Scanner} (h : s.next.1.kind = .eof) : s.run = ⟨[], s.next.1⟩ := by
  rw [run, dif_pos h]

theorem run_of_ne_eof {s : Scanner} (h : s.next.1.kind ≠ .eof) :
    s.run = ⟨s.next.1 :: s.next.2.run.tokens, s.next.2.run.close⟩ := by
  rw [run, dif_neg h]

/-- The scanner behind the first characters of a text. -/
theorem skip_ofText {text : String} {cs ds : List Char} (h : text.toList = cs ++ ds) :
    (Scanner.ofText text).skip cs.length = ⟨ds, cs.getLastD '\x00', Position.origin.advance cs⟩ := by
  simp only [skip, ofText, h, List.drop_left, List.take_left]

/-- A text that does not end in a NUL character is nothing but pieces. -/
theorem exists_all_pieces {s : Scanner} (h : s.rest.getLast? ≠ some '\x00') :
    ∃ ps, s.rest = charsOf ps ∧ Cuts [] s.previous ps ∧ s.run.tokens = tokensFrom s.position ps := by
  obtain ⟨ps, rest, hrest, hcuts, htokens⟩ := s.exists_pieces
  -- Behind the last token there is a gap, and then the end.
  have hlater := run_of_cuts hcuts hrest
  rw [htokens, List.self_eq_append_right] at hlater
  generalize hlast : s.skip (charsOf ps).length = last at hlater
  have hlastrest : last.rest = rest := by simp [← hlast, skip, hrest]
  have heof : last.skipGap.cut.1.kind = .eof := by
    by_contra hne
    rw [run_of_ne_eof hne] at hlater
    cases hlater
  obtain ⟨gaps, hgaps, hkinds, hgap⟩ := exists_gaps rest
  have hsplit : rest = charsOf gaps ++ last.skipGap.cut.1.text.toList := by
    have hcut := last.skipGap.cut_spec.1
    rw [(cut_eof heof).1, List.append_nil] at hcut
    have hskip : last.skipGap.rest = rest.drop (gapLength rest) := by rw [← hlastrest]; rfl
    rw [← hcut, hskip, hgaps, List.take_append_drop]
  have hnil : last.skipGap.cut.1.text.toList = [] := by
    rcases (cut_eof heof).2 with htext | htext
    · rw [htext]
      rfl
    · rw [htext] at hsplit
      refine absurd ?_ h
      rw [hrest, hsplit]
      simp
  rw [hnil, List.append_nil] at hsplit
  refine ⟨ps ++ gaps, by rw [hrest, hsplit, charsOf_append], ?_, ?_⟩
  · exact Cuts.append (by rwa [List.append_nil, ← hsplit]) (hgap _ _)
  · rw [htokens, tokensFrom_append, tokensFrom_eq_nil hkinds, List.append_nil]

end Scanner

/-! ## Tokens in another place -/

/-- A place in a text that was moved by whole lines. -/
def Position.shift (bytes lines : Nat) (p : Position) : Position :=
  ⟨p.offset + bytes, p.line + lines, p.column⟩

/-- A token of a text that was moved by whole lines. -/
def Token.shift (bytes lines : Nat) (t : Token) : Token :=
  { t with start := t.start.shift bytes lines, stop := t.stop.shift bytes lines }

theorem Position.advance_shift (bytes lines : Nat) (p : Position) (cs : List Char) :
    (p.shift bytes lines).advance cs = (p.advance cs).shift bytes lines := by
  induction cs generalizing p with
  | nil => rfl
  | cons c cs ih =>
    have hstep : (p.shift bytes lines).step c = (p.step c).shift bytes lines := by
      unfold step
      split_ifs
      all_goals simp only [shift, Nat.add_right_comm]
    rw [advance_cons, advance_cons, hstep, ih]

theorem Position.line_advance (p : Position) (cs : List Char) :
    (p.advance cs).line = p.line + cs.count '\n' := by
  induction cs generalizing p with
  | nil => rfl
  | cons c cs ih =>
    rw [advance_cons, ih, List.count_cons]
    unfold step
    by_cases hc : c = '\n'
    · simp [hc, Nat.add_assoc, Nat.add_comm 1]
    · simp [hc]

/-- Behind a text as many bytes have passed as it has. -/
theorem Position.offset_behind (text : String) :
    (Position.origin.advance text.toList).offset = text.utf8ByteSize := by
  rw [offset_advance, String.ofList_toList]
  exact Nat.zero_add _

namespace Scanner

/-- `t` stands in front of the same characters as `s`, by whole lines further on, and what stands
before the two makes no difference. -/
structure IsMoved (bytes lines : Nat) (s t : Scanner) : Prop where
  rest : t.rest = s.rest
  previous : endsValue t.previous = endsValue s.previous
  position : t.position = s.position.shift bytes lines

namespace IsMoved

variable {bytes lines : Nat} {s t : Scanner}

theorem skip (h : IsMoved bytes lines s t) (n : Nat) :
    IsMoved bytes lines (s.skip n) (t.skip n) where
  rest := by rw [Scanner.skip, Scanner.skip, h.rest]
  previous := by
    simp only [Scanner.skip, h.rest]
    cases s.rest.take n with
    | nil => exact h.previous
    | cons => simp only [List.getLastD_cons]
  position := by
    simp only [Scanner.skip, h.rest, h.position, Position.advance_shift]

theorem cut (h : IsMoved bytes lines s t) :
    t.cut.1 = s.cut.1.shift bytes lines ∧ IsMoved bytes lines s.cut.2 t.cut.2 := by
  cases hs : s.rest with
  | nil =>
    rw [Scanner.cut, Scanner.cut, h.rest, hs]
    exact ⟨by simp only [Token.shift, h.position], h⟩
  | cons c cs =>
    rw [Scanner.cut, Scanner.cut, h.rest, hs]
    simp only [lexeme_previous h.previous]
    have hskip := h.skip ((lexeme s.previous c cs).2 + 1)
    exact ⟨by simp only [Token.shift, h.position, hskip.position], hskip⟩

theorem next (h : IsMoved bytes lines s t) :
    t.next.1 = s.next.1.shift bytes lines ∧ IsMoved bytes lines s.next.2 t.next.2 := by
  have hgap := h.skip (gapLength s.rest)
  rw [Scanner.next, Scanner.next, skipGap, skipGap, h.rest]
  exact hgap.cut

/-- A scanner that was moved gives the same tokens in another place. -/
theorem run (h : IsMoved bytes lines s t) :
    t.run.toList = s.run.toList.map (Token.shift bytes lines) := by
  induction s using Scanner.run.induct generalizing t with
  | case1 s hkind =>
    obtain ⟨htoken, -⟩ := h.next
    rw [run_of_eof (by rw [htoken]; exact hkind), run_of_eof hkind, htoken]
    rfl
  | case2 s hkind ih =>
    obtain ⟨htoken, hnext⟩ := h.next
    rw [run_of_ne_eof (by rw [htoken]; exact hkind), run_of_ne_eof hkind, htoken]
    exact congrArg (s.next.1.shift bytes lines :: ·) (ih hnext)

end IsMoved

/-- Behind a line break the scanner stands as at the start of a text. -/
theorem isMoved_behind_line (a b : String) :
    IsMoved (a.utf8ByteSize + 1) (a.toList.count '\n' + 1) (.ofText b)
      ⟨b.toList, (a.toList ++ ['\n']).getLastD '\x00',
        Position.origin.advance (a.toList ++ ['\n'])⟩ where
  rest := rfl
  previous := by
    rw [getLastD_append]
    rfl
  position := by
    have hline := Position.line_advance .origin a.toList
    rw [Position.advance_append, Position.advance_cons, Position.advance_nil, Position.step,
      if_pos rfl, Position.offset_behind, hline, Nat.add_assoc]
    exact congrArg (Position.mk · _ _) (Nat.zero_add _).symm

end Scanner

/-! ## Two texts with a line break between them -/

/-- The token of a line break. -/
def lineBreakAt (p : Position) : Token := ⟨.newline, "\n", p, p.step '\n'⟩

/-- Scanning goes line by line: the tokens of a text and of another one in the next line are those of
both, with a line break between them. -/
theorem tokens_append_line {a b : String} (hslash : a.toList.getLast? ≠ some '\\')
    (hnul : a.toList.getLast? ≠ some '\x00')
    (hclosed : (TokenList.ofText a).tokens.getLast?.any Token.isUnterminated = false) :
    (TokenList.ofText (a ++ "\n" ++ b)).toList =
        (TokenList.ofText a).tokens ++ lineBreakAt (Position.origin.advance a.toList) ::
          (TokenList.ofText b).toList.map
            (Token.shift (a.utf8ByteSize + 1) (a.toList.count '\n' + 1)) ∧
      (Position.origin.advance a.toList).offset = a.utf8ByteSize := by
  obtain ⟨ps, hchars, hcuts, htokens⟩ := Scanner.exists_all_pieces (s := .ofText a) hnul
  change a.toList = charsOf ps at hchars
  refine ⟨?_, Position.offset_behind a⟩
  -- The pieces of the first text, and the line break behind them.
  have hall : Cuts b.toList '\x00' (ps ++ [.token .newline "\n"]) := by
    have hmark : "\n" ∈ loneMarks := by decide
    refine Cuts.append ?_ (.mark hmark .nil)
    refine hcuts.append_line (hchars ▸ hslash) (fun kind text hlast => ?_) _
    obtain ⟨before, rfl⟩ := List.getLast?_eq_some_iff.1 hlast
    rw [TokenList.ofText, htokens, tokensFrom_append] at hclosed
    simpa [tokensFrom, Token.isUnterminated] using hclosed
  have hfront : charsOf (ps ++ [.token .newline "\n"]) = a.toList ++ ['\n'] := by
    rw [charsOf_append, ← hchars]
    simp
  have htext : (a ++ "\n" ++ b).toList = (a.toList ++ ['\n']) ++ b.toList := by simp
  have hrun := Scanner.run_eq_of_cuts (s := .ofText (a ++ "\n" ++ b)) hall (hfront ▸ htext)
  rw [hfront, Scanner.skip_ofText htext] at hrun
  rw [TokenList.ofText, hrun, TokenList.toList, TokenList.ofText, htokens, tokensFrom_append,
    ← hchars, List.append_assoc, List.append_assoc]
  have hlater := (Scanner.isMoved_behind_line a b).run
  rw [TokenList.toList] at hlater
  rw [hlater]
  rfl

/-- A symbol in quotes ends the first line, and another symbol starts the second. -/
theorem tokens_append_line_of_greeting :
    "greet x:1, :\"it's\"".toList.getLast? = some '"' ∧
      (TokenList.ofText "greet x:1, :\"it's\"").tokens.getLast?.any Token.isUnterminated = false ∧
      (TokenList.ofText ("greet x:1, :\"it's\"" ++ "\n" ++ ":y?=2 ")).toList =
        (TokenList.ofText "greet x:1, :\"it's\"").tokens ++ lineBreakAt ⟨18, 1, 18⟩ ::
          (TokenList.ofText ":y?=2 ").toList.map (Token.shift 19 1) ∧
      (TokenList.ofText ":y?=2 ").toList.map Token.piece =
        [.token .symbol ":y", .token .operator "?=", .token .number "2", .token .eof ""] := by
  have hclosed : (TokenList.ofText "greet x:1, :\"it's\"").tokens.getLast?.any
      Token.isUnterminated = false := by decide +kernel
  refine ⟨by decide +kernel, hclosed, ?_, by decide +kernel⟩
  have hline := (tokens_append_line (a := "greet x:1, :\"it's\"") (b := ":y?=2 ")
    (by decide +kernel) (by decide +kernel) hclosed).1
  exact hline

end StubMerge
