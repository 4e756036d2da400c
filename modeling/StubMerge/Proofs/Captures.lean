import StubMerge.Proofs.Blocks
import StubMerge.Proofs.Lookahead

/-!
# Captured texts can be captured again

The reader sees the tokens of a text without the gaps, line breaks and comments between them.
`Written` says of a row of tokens that they stand in a text like that. What a capture takes out of
such a row is written back with single blanks, some gaps being closed altogether, and the result is
a phrase again: nothing grows together, and a second capture gives the same text.
-/

namespace StubMerge

/-! ## Tokens that stand in a text -/

/-- The scanner cuts off the token behind `previous` in front of `ys`. -/
def Token.IsCut (t : Token) (previous : Char) (ys : List Char) : Prop :=
  ∃ c cs, t.text.toList = c :: cs ∧ gapLength (c :: (cs ++ ys)) = 0 ∧
    lexeme previous c (cs ++ ys) = (t.kind, cs.length) ∧ t.kind ≠ .eof

/-- Where the first of the tokens `ts` stands, in front of `later` and behind `next`, when it is
looked for at `p`, in front of `chars` and behind `previous`: right there, or behind something that
ends no value. -/
def StartsAt (previous : Char) (chars : List Char) (p : Position) (next : Char)
    (later : List Char) (ts : List Token) : Prop :=
  (next = previous ∧ later = chars ∧ ∀ b ∈ ts.head?, b.start.offset = p.offset) ∨
    (chars ≠ [] ∧ endsValue next = false ∧ ∀ b ∈ ts.head?, p.offset < b.start.offset)

/-- The tokens are those that matter in the characters `chars` behind `previous`, where `depth`
brackets are open. -/
inductive Written : Nat → Char → List Char → List Token → Prop where
  | nil {depth : Nat} {previous : Char} {chars : List Char} : Written depth previous chars []
  | cons {depth : Nat} {previous next : Char} {ys later : List Char} {t : Token} {ts : List Token}
      (hcut : t.IsCut previous ys) (hquiet : 0 < depth → t.kind.isQuiet = true)
      (hstart : StartsAt (t.text.toList.getLastD previous) ys t.stop next later ts)
      (h : Written (depthAfter depth t.kind) next later ts) :
      Written depth previous (t.text.toList ++ ys) (t :: ts)

theorem lexeme_newline {previous c : Char} {cs : List Char} {n : Nat}
    (h : lexeme previous c cs = (.newline, n)) : c = '\n' ∧ n = 0 := by
  obtain rfl := (@lexeme_first previous c cs).1 (congrArg Prod.fst h)
  exact ⟨rfl, (congrArg Prod.snd h).symm⟩

/-- A comment goes on to the end of its line. -/
theorem lexeme_comment {previous c : Char} {cs ys : List Char}
    (h : lexeme previous c (cs ++ ys) = (.comment, cs.length)) :
    c = '#' ∧ '\n' ∉ cs ∧ ys.head?.all (· == '\n') = true := by
  obtain rfl := (@lexeme_first previous c (cs ++ ys)).2.1 (congrArg Prod.fst h)
  have hrun : runLength (· != '\n') (cs ++ ys) = cs.length := congrArg Prod.snd h
  obtain ⟨hcs, hys⟩ := runLength_eq_length_iff.1 hrun
  refine ⟨rfl, fun hmem => by simpa using List.all_eq_true.1 hcs _ hmem, ?_⟩
  simpa [bne] using hys

theorem offset_lt_advance (p : Position) {cs : List Char} (h : cs ≠ []) :
    p.offset < (p.advance cs).offset := by
  obtain ⟨c, cs, rfl⟩ := List.exists_cons_of_ne_nil h
  have := offset_le_advance (p.step c) cs
  have := c.utf8Size_pos
  rw [Position.offset_step] at *
  rw [Position.advance_cons]
  omega

theorem Written.chars_ne_nil {depth : Nat} {previous : Char} {chars : List Char} {ts : List Token}
    (h : Written depth previous chars ts) (hts : ts ≠ []) : chars ≠ [] := by
  cases h with
  | nil => exact absurd rfl hts
  | cons hcut =>
    obtain ⟨c, cs, htext, -⟩ := hcut
    simp [htext]

theorem StartsAt.chars_ne_nil {previous next : Char} {chars later : List Char} {p : Position}
    {ts : List Token} {depth : Nat} (h : StartsAt previous chars p next later ts)
    (hts : Written depth next later ts) (hne : ts ≠ []) : chars ≠ [] := by
  obtain ⟨-, rfl, -⟩ | ⟨hchars, -⟩ := h
  · exact hts.chars_ne_nil hne
  · exact hchars

/-- Inside brackets no token that matters stands right behind a comment. -/
theorem Written.eq_nil_of_comment {depth : Nat} {previous : Char} {chars : List Char}
    {ts : List Token} (h : Written depth previous chars ts) (hdepth : 0 < depth)
    (hchars : chars.head?.all (· == '\n') = true) : ts = [] := by
  cases h with
  | nil => rfl
  | @cons _ _ _ _ _ t _ hcut hquiet =>
    obtain ⟨c, cs, htext, -, hlex, -⟩ := hcut
    rw [htext] at hchars
    obtain rfl : c = '\n' := by simpa using hchars
    have hkind : t.kind = .newline := (congrArg Prod.fst hlex).symm
    have := hquiet hdepth
    rw [hkind] at this
    cases this

/-- The tokens of a text that matter to statements stand in it. -/
theorem Cuts.exists_written {rest : List Char} {previous : Char} {ps : List Piece}
    (h : Cuts rest previous ps) (depth : Nat) (last : Option TokenKind) (p : Position) :
    ∃ next later, Written depth next later
        (significantFrom depth last (withDots (tokensFrom p ps))) ∧
      StartsAt previous (charsOf ps ++ rest) p next later
        (significantFrom depth last (withDots (tokensFrom p ps))) := by
  induction h generalizing depth last p with
  | nil => exact ⟨_, _, .nil, .inl ⟨rfl, rfl, by simp [tokensFrom, withDots, significantFrom]⟩⟩
  | @gap previous cs ps hgap _ ih =>
    obtain ⟨next, later, hwritten, hstarts⟩ := ih depth last (p.advance cs)
    have hne : cs ≠ [] := by
      rintro rfl
      cases hgap
    have hlast : endsValue (cs.getLastD previous) = false := by
      simp only [isGap, Bool.or_eq_true, beq_iff_eq] at hgap
      obtain ((rfl | rfl) | rfl) | rfl := hgap <;> rfl
    have hlt := offset_lt_advance p hne
    refine ⟨next, later, hwritten, .inr ⟨by simp [hne], ?_⟩⟩
    obtain ⟨rfl, -, hstart⟩ | ⟨-, hnext, hstart⟩ := hstarts
    · exact ⟨hlast, fun b hb => hstart b hb ▸ hlt⟩
    · exact ⟨hnext, fun b hb => Nat.lt_trans hlt (hstart b hb)⟩
  | @token previous c cs kind text ps htext hgap hlex hkind _ ih =>
    have hlt : p.offset < (p.advance text.toList).offset := offset_lt_advance p (by simp [htext])
    simp only [tokensFrom, withDots_cons, significantFrom]
    split
    · next hidle =>
      -- The token is left out, and becomes a part of the gap.
      obtain ⟨next, later, hwritten, hstarts⟩ := ih depth last (p.advance text.toList)
      have hne : charsOf (.token kind text :: ps) ++ rest ≠ [] := by simp [htext]
      obtain ⟨rfl, rfl, hstart⟩ | ⟨-, hnext, hstart⟩ := hstarts
      · have hoffset := fun b hb => hstart b hb ▸ hlt
        have hidle' : kind = .newline ∨ kind = .comment ∧ 0 < depth := by
          unfold isIdle at hidle
          split at hidle <;> simp_all
        obtain rfl | ⟨rfl, hdepth⟩ := hidle'
        · obtain ⟨rfl, hcs⟩ := lexeme_newline hlex
          obtain rfl := List.length_eq_zero_iff.1 hcs
          exact ⟨_, _, hwritten, .inr ⟨hne, rfl, hoffset⟩⟩
        · have hnil := hwritten.eq_nil_of_comment hdepth (lexeme_comment hlex).2.2
          rw [hnil]
          exact ⟨' ', [], .nil, .inr ⟨hne, rfl, by simp⟩⟩
      · exact ⟨next, later, hwritten, .inr ⟨hne, hnext, fun b hb => Nat.lt_trans hlt (hstart b hb)⟩⟩
    · next hidle =>
      obtain ⟨next, later, hwritten, hstarts⟩ :=
        ih (depthAfter depth kind) (some kind) (p.advance text.toList)
      have hcut : (⟨kind, text, p, p.advance text.toList⟩ : Token).IsCut previous
          (charsOf ps ++ rest) := ⟨c, cs, htext, hgap, hlex, hkind⟩
      have hquiet : 0 < depth → kind.isQuiet = true := by
        intro hdepth
        revert hidle
        cases kind <;> simp [isIdle, hdepth, TokenKind.isQuiet]
      have hlastD : text.toList.getLastD previous = cs.getLastD c := by
        rw [htext, List.getLastD_cons]
      have hchars : charsOf (.token kind text :: ps) ++ rest
          = text.toList ++ (charsOf ps ++ rest) := by simp
      rw [hchars]
      exact ⟨_, _, .cons hcut hquiet (hlastD ▸ hstarts) hwritten, .inl ⟨rfl, rfl, by simp⟩⟩

/-- What is left of tokens that stand in a text stands in it as well. -/
theorem Written.drop {depth : Nat} {previous : Char} {chars : List Char} {ts : List Token}
    (h : Written depth previous chars ts) (n : Nat) :
    ∃ depth' previous' chars', Written depth' previous' chars' (ts.drop n) := by
  induction n generalizing depth previous chars ts with
  | zero => exact ⟨_, _, _, h⟩
  | succ n ih =>
    cases h with
    | nil => exact ⟨0, ' ', [], by simpa using .nil⟩
    | cons _ _ _ h => exact ih h

/-! ## Marks -/

/-- The character of a token that is always the same. -/
def TokenKind.mark? : TokenKind → Option Char
  | leftParen => some '('
  | rightParen => some ')'
  | leftBracket => some '['
  | rightBracket => some ']'
  | leftBrace => some '\x7b'
  | rightBrace => some '\x7d'
  | comma => some ','
  | semicolon => some ';'
  | newline => some '\n'
  | dot => some '.'
  | colon => some ':'
  | equals => some '='
  | less => some '<'
  | _ => none

theorem mark?_wordKind (word : List Char) : (wordKind word).mark? = none := by
  unfold wordKind
  split_ifs <;> rfl

theorem mark?_colonLexeme {previous d : Char} {cs : List Char} :
    (colonLexeme previous cs).1.mark? = some d → ':' = d ∧ (colonLexeme previous cs).2 = 0 := by
  unfold colonLexeme
  split
  · simp [TokenKind.mark?]
  · split_ifs <;> simp [TokenKind.mark?]

/-- A token that is always the same character is that character. -/
theorem lexeme_mark {previous c d : Char} {cs : List Char} {kind : TokenKind} {n : Nat}
    (hkind : kind.mark? = some d) (h : lexeme previous c cs = (kind, n)) : c = d ∧ n = 0 := by
  have hword (n : Nat) := mark?_wordKind (c :: cs.take n)
  have hcolon := @mark?_colonLexeme previous d cs
  have hmark : (lexeme previous c cs).1.mark? = some d → c = d ∧ (lexeme previous c cs).2 = 0 := by
    unfold lexeme
    split
    all_goals try exact hcolon
    all_goals try split_ifs
    all_goals simp_all [TokenKind.mark?]
  rw [h] at hmark
  exact hmark hkind

theorem lexeme_behind {p q c : Char} (hc : c ≠ ':') (cs : List Char) :
    lexeme q c cs = lexeme p c cs := by
  unfold lexeme
  split
  all_goals first | rfl | exact absurd rfl hc

namespace Token.IsCut

variable {t : Token} {previous : Char} {ys zs : List Char}

theorem mark {d : Char} (h : t.IsCut previous ys) (hd : t.kind.mark? = some d) :
    t.text.toList = [d] := by
  obtain ⟨c, cs, htext, -, hlex, -⟩ := h
  obtain ⟨rfl, hcs⟩ := lexeme_mark hd hlex
  rw [htext, List.length_eq_zero_iff.1 hcs]

/-- What follows a token may be replaced, unless it is a comment or a string that is not closed. -/
theorem resembles (h : t.IsCut previous ys) (hcomment : t.kind ≠ .comment)
    (hlike : Resembles ys zs) (hne : t.kind = .string ∨ t.kind = .symbol → ys ≠ [])
    (hbreak : t.text = "\\" → zs.head? ≠ some '\n') : t.IsCut previous zs := by
  obtain ⟨c, cs, htext, hgap, hlex, hkind⟩ := h
  refine ⟨c, cs, htext, ?_, hlike.lexeme_eq hkind hcomment hne hlex, hkind⟩
  rw [gapLength_cons_eq_zero] at hgap ⊢
  refine ⟨hgap.1, ?_⟩
  rintro ⟨rfl, hhead⟩
  cases cs with
  | nil => exact hbreak (String.toList_inj.1 (by simp [htext])) hhead
  | cons => exact hgap.2 ⟨rfl, hhead⟩

/-- Only for a colon it matters what the token stands behind. -/
theorem behind {q : Char} (h : t.IsCut previous ys)
    (hq : endsValue q = endsValue previous ∨ t.text.toList.head? ≠ some ':') : t.IsCut q ys := by
  obtain ⟨c, cs, htext, hgap, hlex, hkind⟩ := h
  refine ⟨c, cs, htext, hgap, ?_, hkind⟩
  obtain hq | hq := hq
  · rw [lexeme_previous hq, hlex]
  · have hc : c ≠ ':' := by simpa [htext] using hq
    rw [lexeme_behind hc, hlex]

theorem cuts {rest : List Char} {ps : List Piece} (h : t.IsCut previous (charsOf ps ++ rest))
    (hps : Cuts rest (t.text.toList.getLastD previous) ps) :
    Cuts rest previous (t.piece :: ps) := by
  obtain ⟨c, cs, htext, hgap, hlex, hkind⟩ := h
  rw [htext, List.getLastD_cons] at hps
  exact .token htext hgap hlex hkind hps

end Token.IsCut

/-! ## Rows of tokens that are written back -/

/-- What is written between two tokens. -/
def between (a b : Token) : List Piece := if Cursor.isSpaced a b then [.blank] else []

/-- The pieces that captured tokens are written as. -/
def rowPieces : List Token → List Piece
  | [] => []
  | [t] => [t.piece]
  | a :: b :: later => a.piece :: (between a b ++ rowPieces (b :: later))

theorem charsOf_rowPieces (ts : List Token) :
    charsOf (rowPieces ts) = (Cursor.render ts).toList := by
  fun_induction rowPieces ts with
  | case1 => rfl
  | case2 t => simp [Token.piece, Cursor.render]
  | case3 a b later ih =>
    rw [Token.piece, charsOf_token, charsOf_append, ih, Cursor.render, between]
    split <;> simp [Piece.blank]

theorem kindsOf_rowPieces (ts : List Token) : kindsOf (rowPieces ts) = ts.map Token.kind := by
  fun_induction rowPieces ts with
  | case1 => rfl
  | case2 t => rfl
  | case3 a b later ih =>
    rw [Token.piece, kindsOf_token, kindsOf_append, ih, between]
    split <;> rfl

theorem tokenPieces_rowPieces (ts : List Token) :
    tokenPieces (rowPieces ts) = ts.map Token.piece := by
  fun_induction rowPieces ts with
  | case1 => rfl
  | case2 t => rfl
  | case3 a b later ih =>
    rw [List.map_cons, ← ih, between]
    split <;> rfl

theorem exists_rowPieces_cons (t : Token) (ts : List Token) :
    ∃ ps, rowPieces (t :: ts) = t.piece :: ps := by
  cases ts with
  | nil => exact ⟨[], rfl⟩
  | cons b later => exact ⟨_, rfl⟩

/-- What was written back once is written back the same way. -/
theorem render_rowPieces (p : Position) (ts : List Token) :
    Cursor.render (tokensFrom p (rowPieces ts)) = Cursor.render ts := by
  fun_induction rowPieces ts generalizing p with
  | case1 => rfl
  | case2 t => rfl
  | case3 a b later ih =>
    obtain ⟨ps, hps⟩ := exists_rowPieces_cons b later
    have hlater := ih ((p.advance a.text.toList).advance (charsOf (between a b)))
    have hblank : tokensFrom (p.advance a.text.toList) (between a b) = [] := by
      unfold between
      split <;> rfl
    rw [Token.piece, tokensFrom, tokensFrom_append, hblank, List.nil_append]
    rw [hps, Token.piece, tokensFrom] at hlater ⊢
    have hspaced : Cursor.isSpaced ⟨a.kind, a.text, p, p.advance a.text.toList⟩
        ⟨b.kind, b.text, (p.advance a.text.toList).advance (charsOf (between a b)),
          ((p.advance a.text.toList).advance (charsOf (between a b))).advance b.text.toList⟩
        = Cursor.isSpaced a b := by
      unfold between
      split
      · next h =>
        have hlt := offset_lt_advance (p.advance a.text.toList) (List.cons_ne_nil ' ' [])
        rw [h]
        simp only [Cursor.isSpaced, Bool.and_eq_true, decide_eq_true_eq] at h ⊢
        exact ⟨⟨⟨⟨⟨hlt, h.1.1.1.1.2⟩, h.1.1.1.2⟩, h.1.1.2⟩, h.1.2⟩, h.2⟩
      · next h =>
        rw [Bool.eq_false_iff.2 h]
        simp [Cursor.isSpaced]
    rw [Cursor.render, hspaced, hlater, Cursor.render]

/-- The first of the tokens `row` and `t`. -/
def firstOf (row : List Token) (t : Token) : Token := row.head?.getD t

/-- The pieces that the tokens of `row` are written as in front of `t`. -/
def leadPieces : List Token → Token → List Piece
  | [], _ => []
  | a :: later, t => a.piece :: (between a (firstOf later t) ++ leadPieces later t)

theorem rowPieces_append (row : List Token) (t : Token) :
    rowPieces (row ++ [t]) = leadPieces row t ++ [t.piece] := by
  induction row with
  | nil => rfl
  | cons a later ih =>
    cases later with
    | nil => simp [rowPieces, leadPieces, firstOf]
    | cons b later =>
      simp only [List.cons_append, rowPieces, leadPieces] at ih ⊢
      rw [ih]
      simp [firstOf]

theorem kindsOf_leadPieces (row : List Token) (t : Token) :
    kindsOf (leadPieces row t) = row.map Token.kind := by
  have h := kindsOf_rowPieces (row ++ [t])
  rw [rowPieces_append, kindsOf_append, List.map_append] at h
  exact List.append_cancel_right h

/-- What is written starts with the first token. -/
theorem exists_lead (row : List Token) (t : Token) (tail : List Char) :
    ∃ zs, charsOf (leadPieces row t) ++ (t.text.toList ++ tail)
      = (firstOf row t).text.toList ++ zs := by
  cases row with
  | nil => exact ⟨tail, rfl⟩
  | cons a later =>
    rw [leadPieces, Token.piece, charsOf_token, List.append_assoc]
    exact ⟨_, rfl⟩

/-- Where a gap is closed, a bracket or a comma makes up for it. -/
theorem mark_of_not_isSpaced {a b : Token} (h : Cursor.isSpaced a b = false)
    (hlt : a.stop.offset < b.start.offset) :
    (a.kind = .leftParen ∨ a.kind = .leftBracket) ∨
      (b.kind = .rightParen ∨ b.kind = .rightBracket ∨ b.kind = .comma) := by
  simp only [Cursor.isSpaced, hlt, decide_true, Bool.true_and, Bool.and_eq_false_iff,
    bne_eq_false_iff_eq] at h
  grind

/-- Opening brackets are cut off wherever they are. -/
theorem Token.IsCut.opens {t : Token} {previous : Char} {ys : List Char} (h : t.IsCut previous ys)
    (hk : t.kind = .leftParen ∨ t.kind = .leftBracket) :
    endsValue (t.text.toList.getLastD previous) = false ∧ ∀ q zs, t.IsCut q zs := by
  obtain hk | hk := hk
  · have htext : t.text.toList = ['('] := h.mark (by rw [hk]; rfl)
    rw [htext]
    exact ⟨rfl, fun q zs => ⟨'(', [], htext, rfl, by rw [hk]; rfl, by simp [hk]⟩⟩
  · have htext : t.text.toList = ['['] := h.mark (by rw [hk]; rfl)
    rw [htext]
    exact ⟨rfl, fun q zs => ⟨'[', [], htext, rfl, by rw [hk]; rfl, by simp [hk]⟩⟩

theorem Token.IsCut.head?_ne {t : Token} {previous : Char} {ys : List Char}
    (h : t.IsCut previous ys) (hquiet : t.kind.isQuiet = true) :
    t.text.toList.head? ≠ some '\n' := by
  obtain ⟨c, cs, htext, -, hlex, -⟩ := h
  intro heq
  obtain rfl : c = '\n' := by simpa [htext] using heq
  have hkind : t.kind = .newline := (congrArg Prod.fst hlex).symm
  rw [hkind] at hquiet
  cases hquiet

/-- These brackets and the comma end every token before them. -/
theorem Token.IsCut.closer {t : Token} {previous : Char} {ys : List Char} (h : t.IsCut previous ys)
    (hk : (t.kind = .leftParen ∨ t.kind = .leftBracket) ∨
      (t.kind = .rightParen ∨ t.kind = .rightBracket ∨ t.kind = .comma)) :
    ∃ d ∈ closers, t.text.toList = [d] := by
  obtain ⟨d, hd, hmem⟩ : ∃ d, t.kind.mark? = some d ∧ d ∈ closers := by
    obtain (hk | hk) | hk | hk | hk := hk <;> rw [hk] <;> exact ⟨_, rfl, by decide⟩
  exact ⟨d, hmem, h.mark hd⟩

section Rows

variable {depth : Nat} {previous : Char} {chars : List Char} {row more : List Token} {t : Token}
  {d : Char} {ds : List Char}

omit t in
theorem head?_row (row more : List Token) (t : Token) :
    (row ++ t :: more).head? = some (firstOf row t) := by
  cases row <;> rfl

theorem Written.first (h : Written depth previous chars (row ++ t :: more)) :
    ∃ ys, (firstOf row t).IsCut previous ys ∧ chars = (firstOf row t).text.toList ++ ys := by
  cases row with
  | nil => cases h with | cons hcut => exact ⟨_, hcut, rfl⟩
  | cons => cases h with | cons hcut => exact ⟨_, hcut, rfl⟩

/-- Where nothing is written between two tokens, there was nothing, or one of them is a mark that
no token goes on with. -/
theorem StartsAt.closed {a : Token} {next : Char} {ys later : List Char}
    (h : StartsAt previous ys a.stop next later (row ++ t :: more))
    (hblank : Cursor.isSpaced a (firstOf row t) = false) :
    (next = previous ∧ later = ys) ∨ ((a.kind = .leftParen ∨ a.kind = .leftBracket) ∧
      endsValue next = false) ∨ ((firstOf row t).kind = .rightParen ∨
        (firstOf row t).kind = .rightBracket ∨ (firstOf row t).kind = .comma) := by
  obtain ⟨hnext, hlater, -⟩ | ⟨-, hnext, hlt⟩ := h
  · exact .inl ⟨hnext, hlater⟩
  · have hlt' := hlt _ (head?_row row more t)
    exact .inr ((mark_of_not_isSpaced hblank hlt').imp_left fun ha => ⟨ha, hnext⟩)

/-- What is written back resembles what it was read from. -/
theorem Written.resembles (h : Written depth previous chars (row ++ t :: more)) (hd : d ∈ closers) :
    Resembles chars (charsOf (leadPieces row t) ++ (t.text.toList ++ d :: ds)) := by
  cases row with
  | nil =>
    cases h with
    | cons hcut =>
      obtain ⟨c, cs, htext, -, hlex, -⟩ := hcut
      rw [htext]
      cases cs with
      | nil => exact .near hd (congrArg Prod.snd hlex)
      | cons => exact .far
  | cons b later =>
    rw [leadPieces, Token.piece, charsOf_token]
    cases h with
    | cons hcut' _ hstart hlater =>
      obtain ⟨c, cs, htext, -, hlex, -⟩ := id hcut'
      rw [htext]
      cases cs with
      | cons => exact .far
      | nil =>
        have hlength : (lexeme previous c _).2 = 0 := congrArg Prod.snd hlex
        obtain ⟨zs, hzs⟩ := exists_lead later t (d :: ds)
        obtain ⟨ys', hfirst, rfl⟩ := hlater.first
        rw [charsOf_append, List.append_assoc, List.append_assoc, hzs, between]
        cases hblank : Cursor.isSpaced b (firstOf later t) with
        | true => exact .near (mem_closers (by decide)) hlength
        | false =>
          obtain ⟨rfl, hjoined⟩ | ⟨hopen, -⟩ | hclose := hstart.closed hblank
          · obtain ⟨x, xs, hx, -⟩ := hfirst
            rw [← hjoined, hx]
            exact .far
          · obtain ⟨d', hd', heq⟩ := hcut'.closer (.inl hopen)
            obtain rfl := (List.cons.inj (htext.symm.trans heq)).1
            exact .stop hd'
          · obtain ⟨d', hd', heq⟩ := hfirst.closer (.inr hclose)
            rw [heq]
            exact .near hd' hlength

section Neighbours

variable {a : Token} {next : Char} {ys later : List Char}

/-- A token is cut off again in front of those that are written behind it. -/
theorem Token.IsCut.again (hcut : a.IsCut previous ys) (hquiet : a.kind.isQuiet = true)
    (hquiet' : (firstOf row t).kind.isQuiet = true)
    (hstart : StartsAt (a.text.toList.getLastD previous) ys a.stop next later (row ++ t :: more))
    (h : Written depth next later (row ++ t :: more)) (hd : d ∈ closers) :
    a.IsCut previous (charsOf (between a (firstOf row t))
      ++ (charsOf (leadPieces row t) ++ (t.text.toList ++ d :: ds))) := by
  have hne : ys ≠ [] := hstart.chars_ne_nil h (by simp)
  have hcomment : a.kind ≠ .comment := by
    intro hk
    simp [hk, TokenKind.isQuiet] at hquiet
  obtain ⟨ys', hfirst, rfl⟩ := h.first
  obtain ⟨zs, hzs⟩ := exists_lead row t (d :: ds)
  have hbreak : ((firstOf row t).text.toList ++ zs).head? ≠ some '\n' := by
    have := hfirst.head?_ne hquiet'
    obtain ⟨c, cs, htext, -⟩ := hfirst
    simpa [htext] using this
  unfold between
  cases hblank : Cursor.isSpaced a (firstOf row t) with
  | true =>
    have hlike : Resembles ys (' ' :: (charsOf (leadPieces row t) ++ (t.text.toList ++ d :: ds))) :=
      .stop (mem_closers (by decide))
    exact hcut.resembles hcomment hlike (fun _ => hne) (by simp)
  | false =>
    obtain ⟨rfl, hjoined⟩ | ⟨hopen, -⟩ | hclose := hstart.closed hblank
    · subst hjoined
      have hlike : Resembles _ (charsOf (leadPieces row t) ++ (t.text.toList ++ d :: ds)) :=
        h.resembles hd
      rw [hzs] at hlike ⊢
      exact hcut.resembles hcomment hlike (fun _ => hne) fun _ => hbreak
    · exact (hcut.opens hopen).2 _ _
    · obtain ⟨d', hd', heq⟩ := hfirst.closer (.inr hclose)
      rw [hzs]
      refine hcut.resembles hcomment ?_ (fun _ => hne) fun _ => hbreak
      rw [heq]
      exact .stop hd'

/-- What is written behind a token stands behind a character like the one it was read behind, or
starts with no colon, so that this does not matter. -/
theorem StartsAt.again {q : Char} {rest : List Char} {ps : List Piece} (hcut : a.IsCut previous ys)
    (hstart : StartsAt (a.text.toList.getLastD previous) ys a.stop next later (row ++ t :: more))
    (h : Written depth next later (row ++ t :: more))
    (hps : ∀ q, endsValue q = endsValue next ∨ (firstOf row t).text.toList.head? ≠ some ':' →
      Cuts rest q ps) :
    Cuts rest (a.text.toList.getLastD q) (between a (firstOf row t) ++ ps) := by
  have hlast : a.text.toList.getLastD q = a.text.toList.getLastD previous := by
    obtain ⟨c, cs, htext, -⟩ := hcut
    rw [htext, List.getLastD_cons, List.getLastD_cons]
  unfold between
  cases hblank : Cursor.isSpaced a (firstOf row t) with
  | true =>
    have hlt : a.stop.offset < (firstOf row t).start.offset := by
      simp only [Cursor.isSpaced, Bool.and_eq_true, decide_eq_true_eq] at hblank
      exact hblank.1.1.1.1.1
    have hnext : endsValue next = false := by
      obtain ⟨-, -, heq⟩ | ⟨-, hnext, -⟩ := hstart
      · have := heq _ (head?_row row more t)
        omega
      · exact hnext
    exact .blank (hps _ (.inl hnext.symm))
  | false =>
    refine hps _ ?_
    rw [hlast]
    obtain ⟨rfl, -⟩ | ⟨hopen, hnext⟩ | hclose := hstart.closed hblank
    · exact .inl rfl
    · exact .inl (by rw [(hcut.opens hopen).1, hnext])
    · obtain ⟨ys', hfirst, -⟩ := h.first
      obtain ⟨d, hd, heq⟩ := hfirst.closer (.inr hclose)
      rw [heq]
      refine .inr fun hcolon => ?_
      obtain rfl := Option.some.inj hcolon
      exact absurd hd (by decide)

end Neighbours

/-- Tokens that were read are cut off again where they are written back. The last of them may be
cut off in another way than before, as long as its characters stay in front of a closer. -/
theorem Written.cuts (h : Written depth previous chars (row ++ t :: more))
    (hquiet : ∀ a ∈ row ++ [t], a.kind.isQuiet = true) :
    ∃ p ys, t.IsCut p ys ∧ (more ≠ [] → ys ≠ []) ∧
      ∀ {fs : List Piece} {rest ds : List Char} {d q : Char}, d ∈ closers →
        charsOf fs ++ rest = t.text.toList ++ d :: ds →
        (∀ q, endsValue q = endsValue p ∨ t.text.toList.head? ≠ some ':' → Cuts rest q fs) →
        endsValue q = endsValue previous ∨ (firstOf row t).text.toList.head? ≠ some ':' →
        Cuts rest q (leadPieces row t ++ fs) := by
  induction row generalizing depth previous chars with
  | nil =>
    cases h with
    | cons hcut _ hstart hmore =>
      exact ⟨_, _, hcut, hstart.chars_ne_nil hmore, fun _ _ hlast hq => hlast _ hq⟩
  | cons a later ih =>
    rw [List.cons_append, List.forall_mem_cons] at hquiet
    cases h with
    | cons hcut _ hstart hlater =>
      obtain ⟨p, ys, hlast, hmore, hcuts⟩ := ih hlater hquiet.2
      refine ⟨p, ys, hlast, hmore, ?_⟩
      intro fs rest ds d q hd hfs hlast hq
      have hchars : charsOf (between a (firstOf later t) ++ (leadPieces later t ++ fs)) ++ rest
          = charsOf (between a (firstOf later t))
            ++ (charsOf (leadPieces later t) ++ (t.text.toList ++ d :: ds)) := by
        rw [charsOf_append, charsOf_append, List.append_assoc, List.append_assoc, hfs]
      have hmem : firstOf later t ∈ later ++ [t] := List.mem_of_head? (head?_row later [] t)
      have hagain : a.IsCut previous (charsOf (between a (firstOf later t))
          ++ (charsOf (leadPieces later t) ++ (t.text.toList ++ d :: ds))) :=
        hcut.again hquiet.1 (hquiet.2 _ hmem) hstart hlater hd
      rw [leadPieces, List.cons_append, List.append_assoc]
      refine Token.IsCut.cuts (hchars ▸ hagain.behind hq) ?_
      exact hstart.again hcut hlater fun q hq => hcuts hd hfs hlast hq

end Rows

/-! ## What a capture takes is a phrase -/

section Captured

variable {stop : TokenKind → Bool} {previous : Char} {chars : List Char}

/-- A capture takes no line breaks and no comments: outside its own brackets it stops at them, and
inside them there are none. -/
theorem Written.quiet {depth base : Nat} {row more : List Token}
    (h : Written (depth + base) previous chars (row ++ more))
    (hcapture : row.length ≤ Cursor.captureLength stop depth (row ++ more)) :
    ∀ a ∈ row, a.kind.isQuiet = true := by
  induction row generalizing depth previous chars with
  | nil => simp
  | cons a row ih =>
    rw [List.cons_append, List.length_cons] at hcapture
    obtain ⟨hends, hcloses, hlength⟩ := captureLength_cons_pos
      (Nat.lt_of_lt_of_le (Nat.succ_pos _) hcapture)
    rw [hlength, Nat.add_le_add_iff_right] at hcapture
    cases h with
    | cons _ hquiet _ hrow =>
      rw [List.forall_mem_cons]
      constructor
      · obtain rfl | hpos := Nat.eq_zero_or_pos depth
        · have := hends rfl
          revert this
          cases a.kind <;> simp [endsCapture, TokenKind.endsStatement, TokenKind.isQuiet]
        · exact hquiet (Nat.lt_add_right base hpos)
      · exact ih (depthAfter_add hcloses base ▸ hrow) hcapture

/-- Tokens that are cut off again, and that a capture takes, make a phrase. -/
theorem phrase_of_row {row : List Token} (hquiet : ∀ a ∈ row, a.kind.isQuiet = true)
    (hcuts : ∀ {p d : Char} {ds : List Char}, endsValue p = false → d ∈ delimiters → d ≠ '\n' →
      Cuts (d :: ds) p (rowPieces row))
    (hlevel : ∀ n, (row.map Token.kind).foldl depthAfter n = n)
    (hlength : ∀ us, endsCapture stop (headKind us) = true →
      Cursor.captureLength stop 0 (row ++ us) = row.length) :
    Phrase stop (Cursor.render row) (rowPieces row) where
  chars := charsOf_rowPieces row
  cuts := hcuts
  quiet := by
    rw [kindsOf_rowPieces, List.all_map, List.all_eq_true]
    exact hquiet
  level := by
    rw [kindsOf_rowPieces]
    exact hlevel
  length {p ts} hts := by
    have hkinds : (tokensFrom p (rowPieces row) ++ ts).map Token.kind
        = (row ++ ts).map Token.kind := by
      simp only [List.map_append, map_kind_tokensFrom, kindsOf_rowPieces]
    rw [captureLength_congr hkinds, hlength ts hts, kindsOf_rowPieces, List.length_map]
  render p := render_rowPieces p row

/-- What a capture takes in front of a token is a phrase. -/
theorem Written.phrase {depth : Nat} {row more : List Token} {x : Token}
    (h : Written depth previous chars (row ++ x :: more)) (hprevious : endsValue previous = false)
    (hcapture : Cursor.captureLength stop 0 (row ++ x :: more) = row.length) :
    Phrase stop (Cursor.render row) (rowPieces row) := by
  have hquiet : ∀ a ∈ row, a.kind.isQuiet = true := by
    rw [← Nat.zero_add depth] at h
    exact h.quiet (Nat.le_of_eq hcapture.symm)
  obtain ⟨hlength, hlevel⟩ := captureLength_row hcapture
  refine phrase_of_row hquiet ?_ (fun n => by simpa using hlevel n) hlength
  intro p d ds hp hd hbreak
  obtain rfl | ⟨init, t, rfl⟩ := List.eq_nil_or_concat' row
  · exact .nil
  · rw [List.append_assoc, List.singleton_append] at h
    obtain ⟨p', ys, hcut, hne, hcuts⟩ := h.cuts hquiet
    have hcomment : t.kind ≠ .comment := by
      intro hk
      have := hquiet t (by simp)
      simp [hk, TokenKind.isQuiet] at this
    have hlast : t.IsCut p' (d :: ds) :=
      hcut.resembles hcomment (.stop (mem_closers hd)) (fun _ => hne (by simp))
        fun _ => by simpa using hbreak
    rw [rowPieces_append]
    have hchars : charsOf [t.piece] ++ d :: ds = t.text.toList ++ d :: ds := by simp [Token.piece]
    refine hcuts (mem_closers hd) hchars (fun q hq => ?_) (.inl (hp.trans hprevious.symm))
    exact Token.IsCut.cuts (hlast.behind hq) .nil

end Captured

/-! ## Texts that end a line -/

/-- Whether a line break behind a text ends the statement. -/
def endsLine (text : String) : Bool :=
  (TokenList.ofText (text ++ "\n")).significant.tokens.getLast?.any (·.kind == .newline)

/-- A text that ends a line has a line break behind it, which no token of it takes. -/
theorem newline_mem_of_endsLine {text : String} {ps : List Piece} (h : endsLine text = true)
    (hchars : charsOf ps = (text ++ "\n").toList) (hcuts : Cuts [] '\x00' ps) :
    .newline ∈ kindsOf ps := by
  rw [endsLine, Option.any_eq_true, TokenList.significant, tokens_ofText hchars hcuts] at h
  obtain ⟨t, ht, hkind⟩ := h
  have hsub := significantFrom_sublist 0 none (withDots (tokensFrom .origin ps))
  rw [map_fst_withDots] at hsub
  rw [← map_kind_tokensFrom .origin ps, List.mem_map]
  exact ⟨t, hsub.subset (List.mem_of_getLast? ht), by simpa using hkind⟩

/-- A text that ends a line has all its brackets closed, and its last token does not want more. -/
theorem level_of_endsLine {text : String} {ps : List Piece} (h : endsLine text = true)
    (hchars : charsOf ps = text.toList) (hcuts : Cuts ['\n'] '\x00' ps)
    (hquiet : (kindsOf ps).all TokenKind.isQuiet = true) :
    (kindsOf ps).foldl depthAfter 0 = 0 ∧
      (kindsOf ps).getLast?.any TokenKind.wantsMore = false := by
  have hcuts' : Cuts [] '\x00' (ps ++ [.mark "\n"]) := hcuts.append (.mark (by decide) .nil)
  rw [endsLine, TokenList.significant, tokens_ofText (by simp [hchars]) hcuts', tokensFrom_append,
    Kept.significantFrom_quiet (by rwa [map_kind_tokensFrom]), map_kind_tokensFrom] at h
  by_contra hnot
  have hidle : significantFrom ((kindsOf ps).foldl depthAfter 0) ((kindsOf ps).getLast?.or none)
      (withDots (tokensFrom (Position.origin.advance (charsOf ps)) [.mark "\n"])) = [] := by
    obtain hzero | hpos := Nat.eq_zero_or_pos ((kindsOf ps).foldl depthAfter 0)
    · have hwants : (kindsOf ps).getLast?.any TokenKind.wantsMore = true := by
        simpa [hzero] using hnot
      simp [tokensFrom, Piece.mark, withDots, significantFrom, isIdle, markKind, hzero, hwants]
    · simp [tokensFrom, Piece.mark, withDots, significantFrom, isIdle, markKind, hpos]
  rw [hidle, List.append_nil, Option.any_eq_true] at h
  obtain ⟨t, ht, hkind⟩ := h
  have hmem := List.mem_map_of_mem (f := Token.kind) (List.mem_of_getLast? ht)
  rw [map_kind_tokensFrom] at hmem
  have := List.all_eq_true.1 hquiet _ hmem
  rw [eq_of_beq hkind] at this
  cases this

/-- A token at the end of the text ends before a line break as well, or the line break becomes a
part of it. -/
theorem Token.IsCut.line_cases {t : Token} {previous : Char} {ys : List Char}
    (h : t.IsCut previous ys) (hquiet : t.kind.isQuiet = true) :
    (∀ d ∈ closers, ∀ ds, (d = '\n' → t.text ≠ "\\") → t.IsCut previous (d :: ds)) ∨
      (⟨t.kind, t.text ++ "\n", t.start, t.stop⟩ : Token).IsCut previous [] := by
  have hcomment : t.kind ≠ .comment := by
    intro hk
    simp [hk, TokenKind.isQuiet] at hquiet
  by_cases hopen : t.kind = .string ∨ t.kind = .symbol
  · by_cases hys : ys = []
    · obtain ⟨c, cs, htext, hgap, hlex, hkind⟩ := h
      rw [hys, List.append_nil] at hlex hgap
      obtain ⟨hc, hline⟩ := lexeme_line hopen hlex
      have hgap' : gapLength (c :: (cs ++ ['\n'])) = 0 := by
        rw [gapLength_cons_eq_zero] at hgap ⊢
        exact ⟨hgap.1, fun heq => hc heq.1⟩
      obtain hline | hline := hline
      · have hcut : t.IsCut previous ['\n'] := ⟨c, cs, htext, hgap', hline, hkind⟩
        exact .inl fun d hd ds hbreak =>
          hcut.resembles hcomment (.stop hd) (by simp)
            fun heq => by simpa using fun h => hbreak h heq
      · refine .inr ⟨c, cs ++ ['\n'], by simp [htext], by simpa using hgap', ?_, hkind⟩
        simpa using hline
    · exact .inl fun d hd ds hbreak =>
        h.resembles hcomment (.stop hd) (fun _ => hys)
          fun heq => by simpa using fun h => hbreak h heq
  · exact .inl fun d hd ds hbreak =>
      h.resembles hcomment (.stop hd) (fun hk => absurd hk hopen) fun heq => by
        simpa using fun h => hbreak h heq

section Line

variable {stop : TokenKind → Bool} {previous : Char} {chars : List Char}

/-- What a capture takes is a phrase that can end a line, if a line break ends the statement. -/
theorem Written.line {depth : Nat} {row more : List Token}
    (h : Written depth previous chars (row ++ more)) (hprevious : endsValue previous = false)
    (hcapture : Cursor.captureLength stop 0 (row ++ more) = row.length) (hrow : row ≠ [])
    (hline : endsLine (Cursor.render row) = true) :
    Phrase stop (Cursor.render row) (rowPieces row) ∧
      LineRow (Cursor.render row) (rowPieces row) := by
  have hquiet : ∀ a ∈ row, a.kind.isQuiet = true := by
    rw [← Nat.zero_add depth] at h
    exact h.quiet (Nat.le_of_eq hcapture.symm)
  obtain ⟨init, t, rfl⟩ := (List.eq_nil_or_concat' row).resolve_left hrow
  rw [List.append_assoc, List.singleton_append] at h
  obtain ⟨p', ys, hcut, hne, hcuts⟩ := h.cuts hquiet
  have hchars : charsOf (leadPieces init t) ++ t.text.toList
      = (Cursor.render (init ++ [t])).toList := by
    rw [← charsOf_rowPieces, rowPieces_append]
    simp [Token.piece]
  -- The last token does not take the line break.
  have hfree : ∀ fs, charsOf fs = t.text.toList ++ ['\n'] →
      (∀ q, endsValue q = endsValue p' ∨ t.text.toList.head? ≠ some ':' → Cuts [] q fs) →
      .newline ∈ kindsOf fs := by
    intro fs hfs hlast
    have hbreak : '\n' ∈ closers := by decide
    have hall : Cuts [] '\x00' (leadPieces init t ++ fs) :=
      hcuts hbreak (by rw [List.append_nil, hfs]) hlast (.inl hprevious.symm)
    have hmem := newline_mem_of_endsLine hline (by simp [hfs, ← hchars]) hall
    rw [kindsOf_append, kindsOf_leadPieces, List.mem_append] at hmem
    refine hmem.resolve_left fun hnewline => ?_
    obtain ⟨a, ha, hkind⟩ := List.mem_map.1 hnewline
    have := hquiet a (by simp [ha])
    rw [hkind] at this
    cases this
  have hslash : t.text ≠ "\\" := by
    intro heq
    have := hfree [.gap ['\\', '\n']] (by simp [heq]) fun q _ => .gap rfl .nil
    simp at this
  have hclosed : ∀ d ∈ closers, ∀ ds, t.IsCut p' (d :: ds) := by
    obtain hclosed | hopen := hcut.line_cases (hquiet t (by simp))
    · exact fun d hd ds => hclosed d hd ds fun _ => hslash
    · have hmem := hfree [.token t.kind (t.text ++ "\n")] (by simp) fun q hq => by
        have hhead : (t.text ++ "\n").toList.head? = t.text.toList.head? := by
          obtain ⟨c, cs, htext, -⟩ := hcut
          simp [htext]
        have hcut' := hopen.behind (hq.imp_right fun h => hhead.symm ▸ h)
        exact hcut'.cuts .nil
      have := hquiet t (by simp)
      rw [← List.mem_singleton.1 hmem] at this
      cases this
  have hall : ∀ {q d : Char} {ds : List Char}, endsValue q = false → d ∈ closers →
      Cuts (d :: ds) q (rowPieces (init ++ [t])) := by
    intro q d ds hq hd
    have hfs : charsOf [t.piece] ++ d :: ds = t.text.toList ++ d :: ds := by simp [Token.piece]
    rw [rowPieces_append]
    refine hcuts hd hfs (fun q' hq' => ?_) (.inl (hq.trans hprevious.symm))
    exact ((hclosed d hd ds).behind hq').cuts .nil
  have hquiet' : (kindsOf (rowPieces (init ++ [t]))).all TokenKind.isQuiet = true := by
    rw [kindsOf_rowPieces, List.all_map, List.all_eq_true]
    exact hquiet
  obtain ⟨hlevel, hwants⟩ := level_of_endsLine hline (charsOf_rowPieces _)
    (hall rfl (by decide)) hquiet'
  rw [kindsOf_rowPieces] at hlevel hwants
  obtain ⟨hlength, hdepth⟩ := captureLength_append (Nat.le_of_eq hcapture.symm)
  have hphrase : Phrase stop (Cursor.render (init ++ [t])) (rowPieces (init ++ [t])) := by
    refine phrase_of_row hquiet (fun hq hd _ => hall hq (mem_closers hd)) (fun n => ?_)
      fun us hus => ?_
    · have := hdepth n
      rwa [Nat.zero_add, hlevel, Nat.zero_add] at this
    · rw [hlength, hlevel, captureLength_of_endsCapture hus, Nat.zero_add]
  refine ⟨hphrase, hphrase.toPieceRow, fun hq => hall hq (by decide), ?_⟩
  rw [kindsOf_rowPieces]
  simpa using hwants

end Line

/-! ## Phrases are captured -/

namespace Phrase

variable {stop : TokenKind → Bool} {text : String} {ps : List Piece}

/-- A phrase is captured in front of what ends a capture, if the layout keeps that. -/
theorem isCaptured_of_kept (h : Phrase stop text ps) {closer : String}
    (hcuts : Cuts [] '\x00' (ps ++ [.mark closer]))
    (hends : endsCapture stop (markKind closer) = true)
    (hkept : significantFrom 0 (kindsOf ps).getLast?
      (withDots (tokensFrom (Position.origin.advance (charsOf ps)) [.mark closer]))
        = tokensFrom (Position.origin.advance (charsOf ps)) [.mark closer]) :
    isCaptured stop closer text = true := by
  have htokens : (TokenList.ofText (text ++ closer)).significant.tokens
      = tokensFrom .origin ps
        ++ tokensFrom (Position.origin.advance (charsOf ps)) [.mark closer] := by
    rw [TokenList.significant, tokens_ofText (by simp [h.chars]) hcuts, tokensFrom_append,
      Kept.significantFrom_quiet (by rw [map_kind_tokensFrom]; exact h.quiet), map_kind_tokensFrom,
      h.level, Option.or_none, hkept]
  have hlength : Cursor.captureLength stop 0 (tokensFrom .origin ps
      ++ tokensFrom (Position.origin.advance (charsOf ps)) [.mark closer])
        = (tokensFrom .origin ps).length := by
    rw [length_tokensFrom]
    exact h.length hends
  simp only [isCaptured, Cursor.ofTokens, Cursor.capture, Cursor.skip, htokens, hlength,
    List.take_left, List.drop_left, h.render]
  simp [tokensFrom, Piece.mark]

theorem isCaptured_paren (h : Phrase stop text ps) : isCaptured stop ")" text = true := by
  refine h.isCaptured_of_kept ?_ ?_ ?_
  · exact (h.cuts rfl (by decide) (by decide)).append (.mark (by decide) .nil)
  · simp [endsCapture, markKind, TokenKind.closesGroup]
  · simp [tokensFrom, Piece.mark, withDots, significantFrom, isIdle, markKind]

theorem isCaptured_line (h : Phrase stop text ps) (hline : LineRow text ps) :
    isCaptured stop "\n" text = true := by
  refine h.isCaptured_of_kept ?_ ?_ ?_
  · exact (hline.cutsLine rfl).append (.mark (by decide) .nil)
  · simp [endsCapture, markKind, TokenKind.endsStatement]
  · have hwants : (kindsOf ps).getLast?.any TokenKind.wantsMore = false := by
      have := hline.settled
      cases hk : (kindsOf ps).getLast? <;> simp_all
    simp [tokensFrom, Piece.mark, withDots, significantFrom, isIdle, markKind, hwants]

end Phrase

/-! ## Captures out of a text -/

section Text

variable {stop : TokenKind → Bool} {depth : Nat} {previous : Char} {chars : List Char}
  {ts : List Token}

theorem captureLength_le (stop : TokenKind → Bool) (depth : Nat) (ts : List Token) :
    Cursor.captureLength stop depth ts ≤ ts.length := by
  fun_induction Cursor.captureLength stop depth ts <;> simp_all

/-- A capture takes the tokens in front of those that it leaves. -/
theorem exists_row (stop : TokenKind → Bool) (ts : List Token) :
    ∃ row more, ts = row ++ more ∧ ts.take (Cursor.captureLength stop 0 ts) = row ∧
      ts.drop (Cursor.captureLength stop 0 ts) = more ∧
      Cursor.captureLength stop 0 (row ++ more) = row.length := by
  refine ⟨_, _, (List.take_append_drop (Cursor.captureLength stop 0 ts) ts).symm, rfl, rfl, ?_⟩
  rw [List.take_append_drop, List.length_take, Nat.min_eq_left (captureLength_le stop 0 ts)]

/-- What is captured out of a text, where tokens are left, is captured again. -/
theorem Written.isCaptured (h : Written depth previous chars ts)
    (hprevious : endsValue previous = false)
    (hmore : ts.drop (Cursor.captureLength stop 0 ts) ≠ []) :
    isCaptured stop ")" (Cursor.render (ts.take (Cursor.captureLength stop 0 ts))) = true := by
  obtain ⟨row, more, hts, hrow, hdrop, hlength⟩ := exists_row stop ts
  rw [hdrop] at hmore
  obtain ⟨x, more, rfl⟩ := List.exists_cons_of_ne_nil hmore
  rw [hrow]
  exact (Written.phrase (hts ▸ h) hprevious hlength).isCaptured_paren

/-- What is captured out of a text is captured again, and can end a line, if a line break behind it
ends the statement. -/
theorem Written.exists_line (h : Written depth previous chars ts)
    (hprevious : endsValue previous = false)
    (hne : Cursor.render (ts.take (Cursor.captureLength stop 0 ts)) ≠ "")
    (hline : endsLine (Cursor.render (ts.take (Cursor.captureLength stop 0 ts))) = true) :
    ∃ ps, tokenPieces ps = (ts.take (Cursor.captureLength stop 0 ts)).map Token.piece ∧
      Phrase stop (Cursor.render (ts.take (Cursor.captureLength stop 0 ts))) ps ∧
      LineRow (Cursor.render (ts.take (Cursor.captureLength stop 0 ts))) ps := by
  obtain ⟨row, more, hts, hrow, hdrop, hlength⟩ := exists_row stop ts
  rw [hrow] at hne hline ⊢
  have hrow' : row ≠ [] := by
    rintro rfl
    exact hne rfl
  exact ⟨rowPieces row, tokenPieces_rowPieces row,
    Written.line (hts ▸ h) hprevious hlength hrow' hline⟩

end Text

end StubMerge
