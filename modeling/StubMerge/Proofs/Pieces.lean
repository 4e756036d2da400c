import StubMerge.Proofs.Lexemes

/-!
# A text in pieces

A text is a row of pieces, gaps and tokens. `Cuts rest previous ps` says that in front of `rest`
the pieces `ps` are the ones that the scanner cuts: every token is looked at together with all the
characters that really follow it, so that rows of pieces can be put one behind the other without a
token growing into the next. Pieces have no place; `tokensFrom` gives them one.

* `run_eq_of_cuts`: the scanner gives back the tokens of the pieces that a text is made of.
* `exists_pieces`: every text is made of the pieces that the scanner cuts.
-/

namespace StubMerge

/-- A piece of a text: some of the characters between two tokens, or a token. -/
inductive Piece where
  | gap (chars : List Char)
  | token (kind : TokenKind) (text : String)
deriving DecidableEq, Repr

namespace Piece

/-- The characters of a piece. -/
def chars : Piece → List Char
  | gap cs => cs
  | token _ text => text.toList

/-- The kind of a piece that is a token. -/
def kind? : Piece → Option TokenKind
  | gap _ => none
  | token kind _ => some kind

/-- A single blank. -/
def blank : Piece := gap [' ']

end Piece

/-- The characters of pieces. -/
def charsOf (ps : List Piece) : List Char := ps.flatMap Piece.chars

/-- The kinds of the tokens among pieces. -/
def kindsOf (ps : List Piece) : List TokenKind := ps.filterMap Piece.kind?

/-- The tokens among pieces, where the first piece stands at `p`. -/
def tokensFrom (p : Position) : List Piece → List Token
  | [] => []
  | .gap cs :: ps => tokensFrom (p.advance cs) ps
  | .token kind text :: ps =>
    ⟨kind, text, p, p.advance text.toList⟩ :: tokensFrom (p.advance text.toList) ps

@[simp] theorem charsOf_nil : charsOf [] = [] := rfl

@[simp] theorem charsOf_gap (cs : List Char) (ps : List Piece) :
    charsOf (.gap cs :: ps) = cs ++ charsOf ps := rfl

@[simp] theorem charsOf_token (kind : TokenKind) (text : String) (ps : List Piece) :
    charsOf (.token kind text :: ps) = text.toList ++ charsOf ps := rfl

@[simp] theorem charsOf_append (ps qs : List Piece) :
    charsOf (ps ++ qs) = charsOf ps ++ charsOf qs := List.flatMap_append

@[simp] theorem kindsOf_nil : kindsOf [] = [] := rfl

@[simp] theorem kindsOf_gap (cs : List Char) (ps : List Piece) :
    kindsOf (.gap cs :: ps) = kindsOf ps := rfl

@[simp] theorem kindsOf_token (kind : TokenKind) (text : String) (ps : List Piece) :
    kindsOf (.token kind text :: ps) = kind :: kindsOf ps := rfl

@[simp] theorem kindsOf_append (ps qs : List Piece) :
    kindsOf (ps ++ qs) = kindsOf ps ++ kindsOf qs := List.filterMap_append

/-- The kind of the first token among pieces; the end of the text if there is none. -/
def nextKind (ps : List Piece) : TokenKind := (kindsOf ps).head?.getD .eof

@[simp] theorem nextKind_gap (cs : List Char) (ps : List Piece) :
    nextKind (.gap cs :: ps) = nextKind ps := rfl

@[simp] theorem nextKind_token (kind : TokenKind) (text : String) (ps : List Piece) :
    nextKind (.token kind text :: ps) = kind := rfl

theorem nextKind_append {ps : List Piece} (h : kindsOf ps ≠ []) (qs : List Piece) :
    nextKind (ps ++ qs) = nextKind ps := by
  unfold nextKind
  cases hps : kindsOf ps with
  | nil => exact absurd hps h
  | cons k ks => simp [hps]

@[simp] theorem tokensFrom_append (p : Position) (ps qs : List Piece) :
    tokensFrom p (ps ++ qs) = tokensFrom p ps ++ tokensFrom (p.advance (charsOf ps)) qs := by
  induction ps generalizing p with
  | nil => rfl
  | cons piece ps ih => cases piece <;> simp [tokensFrom, ih, Position.advance_append]

theorem map_kind_tokensFrom (p : Position) (ps : List Piece) :
    (tokensFrom p ps).map Token.kind = kindsOf ps := by
  induction ps generalizing p with
  | nil => rfl
  | cons piece ps ih => cases piece <;> simp [tokensFrom, ih]

@[simp] theorem length_tokensFrom (p : Position) (ps : List Piece) :
    (tokensFrom p ps).length = (kindsOf ps).length := by
  rw [← map_kind_tokensFrom p ps, List.length_map]

/-! ## What the scanner cuts -/

/-- The smallest gaps: one blank, or a line break behind a backslash. -/
def isGap (cs : List Char) : Bool :=
  cs == [' '] || cs == ['\t'] || cs == ['\r'] || cs == ['\\', '\n']

/-- The pieces are the ones that the scanner cuts in front of `rest`, behind the character
`previous`. -/
inductive Cuts (rest : List Char) : Char → List Piece → Prop where
  | nil {previous : Char} : Cuts rest previous []
  | gap {previous : Char} {cs : List Char} {ps : List Piece} (hgap : isGap cs = true)
      (h : Cuts rest (cs.getLastD previous) ps) : Cuts rest previous (.gap cs :: ps)
  | token {previous c : Char} {cs : List Char} {kind : TokenKind} {text : String}
      {ps : List Piece} (htext : text.toList = c :: cs)
      (hgap : gapLength (c :: (cs ++ (charsOf ps ++ rest))) = 0)
      (hlex : lexeme previous c (cs ++ (charsOf ps ++ rest)) = (kind, cs.length))
      (hkind : kind ≠ .eof) (h : Cuts rest (cs.getLastD c) ps) :
      Cuts rest previous (.token kind text :: ps)

/-- The character before what follows the pieces, where `previous` is the one before them. -/
def lastOf (previous : Char) (ps : List Piece) : Char := (charsOf ps).getLastD previous

theorem getLastD_append (cs ds : List Char) (c : Char) :
    (cs ++ ds).getLastD c = ds.getLastD (cs.getLastD c) := by
  induction cs generalizing c with
  | nil => rfl
  | cons d cs ih => simp only [List.cons_append, List.getLastD_cons, ih]

theorem lastOf_gap (previous : Char) (cs : List Char) (ps : List Piece) :
    lastOf previous (.gap cs :: ps) = lastOf (cs.getLastD previous) ps := by
  rw [lastOf, charsOf_gap, getLastD_append, lastOf]

theorem lastOf_token {text : String} {c : Char} {cs : List Char} (h : text.toList = c :: cs)
    (previous : Char) (kind : TokenKind) (ps : List Piece) :
    lastOf previous (.token kind text :: ps) = lastOf (cs.getLastD c) ps := by
  rw [lastOf, charsOf_token, getLastD_append, h, List.getLastD_cons, lastOf]

namespace Cuts

variable {rest : List Char} {previous : Char} {ps qs : List Piece}

theorem append (hp : Cuts (charsOf qs ++ rest) previous ps)
    (hq : Cuts rest (lastOf previous ps) qs) : Cuts rest previous (ps ++ qs) := by
  induction hp with
  | nil => exact hq
  | gap hgap _ ih => exact .gap hgap (ih (by rwa [lastOf_gap] at hq))
  | token htext hgap hlex hkind _ ih =>
    rw [lastOf_token htext] at hq
    exact .token htext (by simpa using hgap) (by simpa using hlex) hkind (ih hq)

theorem left (h : Cuts rest previous (ps ++ qs)) : Cuts (charsOf qs ++ rest) previous ps := by
  induction ps generalizing previous with
  | nil => exact .nil
  | cons piece ps ih =>
    cases h with
    | gap hgap h => exact .gap hgap (ih h)
    | token htext hgap hlex hkind h =>
      exact .token htext (by simpa using hgap) (by simpa using hlex) hkind (ih h)

theorem right (h : Cuts rest previous (ps ++ qs)) : Cuts rest (lastOf previous ps) qs := by
  induction ps generalizing previous with
  | nil => exact h
  | cons piece ps ih =>
    cases h with
    | gap _ h => exact lastOf_gap .. ▸ ih h
    | token htext _ _ _ h => exact lastOf_token htext .. ▸ ih h

end Cuts

/-! ## Pieces in another place -/

theorem gapLength_cons_eq_zero {c : Char} {cs : List Char} : gapLength (c :: cs) = 0 ↔
    (c == ' ' || c == '\t' || c == '\r') = false ∧ ¬(c = '\\' ∧ cs.head? = some '\n') := by
  unfold gapLength
  split
  · next heq =>
    obtain ⟨rfl, rfl⟩ := List.cons.inj heq
    simp
  · next hne heq =>
    obtain ⟨rfl, rfl⟩ := List.cons.inj heq
    have hfold : ¬(c = '\\' ∧ cs.head? = some '\n') := by
      rintro ⟨rfl, hhead⟩
      obtain ⟨later, rfl⟩ := List.head?_eq_some_iff.1 hhead
      exact hne later rfl rfl
    split
    · next hc => simp [hc]
    · next hc => exact ⟨fun _ => ⟨Bool.eq_false_iff.2 hc, hfold⟩, fun _ => rfl⟩
  · simp_all

theorem lexeme_previous {p q : Char} (h : endsValue p = endsValue q) (c : Char) (cs : List Char) :
    lexeme p c cs = lexeme q c cs := by
  simp [lexeme, colonLexeme, h]

/-- Pieces without a comment that are cut in front of a delimiter are cut in front of any other.
Only a line break may be joined to the last of them. -/
theorem Cuts.swap {ps : List Piece} {p q d e : Char} {ds es : List Char} (hd : d ∈ delimiters)
    (he : e ∈ delimiters) (hbreak : e = '\n' → d = '\n') (hprev : endsValue q = endsValue p)
    (hcomment : .comment ∉ kindsOf ps) (h : Cuts (d :: ds) p ps) : Cuts (e :: es) q ps := by
  induction h generalizing q with
  | nil => exact .nil
  | @gap p cs ps hgap _ ih =>
    refine .gap hgap (ih ?_ hcomment)
    cases cs with
    | nil => cases hgap
    | cons => simp only [List.getLastD_cons]
  | @token p c cs kind text ps htext hgap hlex hkind _ ih =>
    have hne : kind ≠ .comment := fun h => hcomment (by simp [h])
    simp only [← List.append_assoc] at hgap hlex
    refine .token htext ?_ ?_ hkind (ih rfl fun h => hcomment (by simp [h]))
    · rw [gapLength_cons_eq_zero] at hgap ⊢
      rw [← List.append_assoc]
      refine ⟨hgap.1, fun h => hgap.2 ⟨h.1, ?_⟩⟩
      obtain ⟨-, h⟩ := h
      revert h
      cases cs ++ charsOf ps with
      | nil => simpa using hbreak
      | cons => exact id
    · rw [← List.append_assoc, lexeme_previous hprev, lexeme_swap _ ds es hd he (by rwa [hlex])
        (by rw [hlex, List.length_append]; exact Nat.le_add_right _ _), hlex]

/-! ## Scanning pieces -/

theorem gapLength_append {cs : List Char} (h : isGap cs = true) (ds : List Char) :
    gapLength (cs ++ ds) = cs.length + gapLength ds := by
  simp only [isGap, Bool.or_eq_true, beq_iff_eq] at h
  obtain ((rfl | rfl) | rfl) | rfl := h <;> simp [gapLength, Nat.add_comm]

namespace Scanner

theorem skip_zero (s : Scanner) : s.skip 0 = s := by simp [skip]

theorem skip_skip (s : Scanner) (m n : Nat) : (s.skip m).skip n = s.skip (m + n) := by
  simp [skip, List.take_add, Position.advance_append]

theorem run_congr {s t : Scanner} (h : s.next = t.next) : s.run = t.run := by
  conv => lhs; rw [run, h]
  conv => rhs; rw [run]

theorem run_skip_gap {s : Scanner} {cs ds : List Char} (hcs : isGap cs = true)
    (hs : s.rest = cs ++ ds) : s.run = (s.skip cs.length).run := by
  refine run_congr ?_
  have hrest : (s.skip cs.length).rest = ds := by simp [skip, hs]
  rw [next, next, skipGap, skipGap, skip_skip, hrest, hs, gapLength_append hcs]

theorem cut_of_lexeme {s : Scanner} {c : Char} {cs ds : List Char} {kind : TokenKind}
    (hs : s.rest = c :: (cs ++ ds))
    (hlex : lexeme s.previous c (cs ++ ds) = (kind, cs.length)) :
    s.cut = (⟨kind, String.ofList (c :: cs), s.position, s.position.advance (c :: cs)⟩,
      s.skip (cs.length + 1)) := by
  rw [cut, hs]
  simp [hlex, skip, hs]

/-- The scanner gives the tokens of the pieces in front of it, and then those behind them. -/
theorem run_eq_of_cuts {s : Scanner} {rest : List Char} {ps : List Piece}
    (h : Cuts rest s.previous ps) (hs : s.rest = charsOf ps ++ rest) :
    s.run = ⟨tokensFrom s.position ps ++ (s.skip (charsOf ps).length).run.tokens,
      (s.skip (charsOf ps).length).run.close⟩ := by
  induction ps generalizing s with
  | nil => simp [tokensFrom, skip_zero]
  | cons piece ps ih =>
    cases h with
    | @gap _ cs _ hgap h =>
      have hs' : s.rest = cs ++ (charsOf ps ++ rest) := by simpa using hs
      have hprev : (s.skip cs.length).previous = cs.getLastD s.previous := by simp [skip, hs']
      have hpos : (s.skip cs.length).position = s.position.advance cs := by simp [skip, hs']
      rw [run_skip_gap hgap hs', ih (hprev ▸ h) (by simp [skip, hs']), hpos, skip_skip]
      simp [tokensFrom]
    | @token _ c cs kind text _ htext hgap hlex hkind h =>
      have hs' : s.rest = c :: (cs ++ (charsOf ps ++ rest)) := by simpa [htext] using hs
      have hnext := cut_of_lexeme hs' hlex
      have hskip : s.next = s.cut := by rw [next, skipGap, hs', hgap, skip_zero]
      have hprev : (s.skip (cs.length + 1)).previous = cs.getLastD c := by
        simp [skip, hs', List.getLast?_cons]
      have hpos : (s.skip (cs.length + 1)).position = s.position.advance (c :: cs) := by
        simp [skip, hs']
      have htext' : String.ofList (c :: cs) = text := by rw [← htext, String.ofList_toList]
      rw [run, dif_neg (by simpa [hskip, hnext] using hkind)]
      simp only [hskip, hnext]
      rw [ih (hprev ▸ h) (by simp [skip, hs']), hpos, skip_skip]
      simp [tokensFrom, htext, htext', Nat.add_right_comm]

theorem run_of_cuts {s : Scanner} {rest : List Char} {ps : List Piece}
    (h : Cuts rest s.previous ps) (hs : s.rest = charsOf ps ++ rest) :
    s.run.tokens = tokensFrom s.position ps ++ (s.skip (charsOf ps).length).run.tokens :=
  congrArg TokenList.tokens (run_eq_of_cuts h hs)

/-- Where nothing is left, the scanner gives the end of the text. -/
theorem run_of_rest_eq_nil {s : Scanner} (h : s.rest = []) :
    s.run = ⟨[], ⟨.eof, "", s.position, s.position⟩⟩ := by
  have hnext : s.next.1 = ⟨.eof, "", s.position, s.position⟩ := by
    simp [next, skipGap, h, gapLength, skip_zero, cut]
  rw [run, dif_pos (by rw [hnext]), hnext]

/-! ## The pieces of any text -/

/-- A gap falls into the smallest gaps. -/
theorem exists_gaps (cs : List Char) : ∃ ps : List Piece,
    charsOf ps = cs.take (gapLength cs) ∧ kindsOf ps = [] ∧
      ∀ rest previous, Cuts rest previous ps := by
  fun_induction gapLength cs with
  | case1 cs ih =>
    obtain ⟨ps, hchars, hkinds, hcuts⟩ := ih
    exact ⟨.gap ['\\', '\n'] :: ps, by simp [hchars], hkinds,
      fun rest previous => .gap rfl (hcuts _ _)⟩
  | case2 c cs _ hc ih =>
    obtain ⟨ps, hchars, hkinds, hcuts⟩ := ih
    refine ⟨.gap [c] :: ps, by simp [hchars], hkinds, fun rest previous => .gap ?_ (hcuts _ _)⟩
    simp only [Bool.or_eq_true, beq_iff_eq] at hc
    obtain (rfl | rfl) | rfl := hc <;> rfl
  | case3 c cs => exact ⟨[], by simp, rfl, fun _ _ => .nil⟩
  | case4 => exact ⟨[], by simp, rfl, fun _ _ => .nil⟩

theorem tokensFrom_eq_nil {ps : List Piece} (h : kindsOf ps = []) (p : Position) :
    tokensFrom p ps = [] := by
  rw [← List.length_eq_zero_iff, length_tokensFrom, h, List.length_nil]

theorem gapLength_drop (cs : List Char) : gapLength (cs.drop (gapLength cs)) = 0 := by
  fun_induction gapLength cs with
  | case1 cs ih => simpa using ih
  | case2 c cs _ _ ih => simpa using ih
  | case3 c cs hne hc =>
    rw [List.drop_zero]
    unfold gapLength
    split
    · next h => simp_all
    · simp_all
    · rfl
  | case4 => rfl

/-- A text is made of the pieces that the scanner cuts, up to a last gap. -/
theorem exists_pieces (s : Scanner) : ∃ (ps : List Piece) (rest : List Char),
    s.rest = charsOf ps ++ rest ∧ Cuts rest s.previous ps ∧
      s.run.tokens = tokensFrom s.position ps := by
  fun_induction run s with
  | case1 s => exact ⟨[], s.rest, rfl, .nil, rfl⟩
  | case2 s hkind later ih =>
    obtain ⟨ps, rest, hps, hcuts, htokens⟩ := ih
    obtain ⟨gaps, hgaps, hkinds, hgap⟩ := exists_gaps s.rest
    have hprev : s.skipGap.previous = lastOf s.previous gaps := by rw [lastOf, hgaps]; rfl
    have hpos : s.skipGap.position = s.position.advance (charsOf gaps) := by rw [hgaps]; rfl
    have hnogap : gapLength s.skipGap.rest = 0 := gapLength_drop s.rest
    have hsplit : s.rest = charsOf gaps ++ s.skipGap.rest := by
      rw [hgaps]; exact (List.take_append_drop _ _).symm
    cases hrest : s.skipGap.rest with
    | nil => simp [next, cut, hrest] at hkind
    | cons c cs =>
      obtain ⟨kind, n, hlex⟩ : ∃ kind n, lexeme s.skipGap.previous c cs = (kind, n) :=
        ⟨_, _, rfl⟩
      have hle : n ≤ cs.length := by simpa [hlex] using lexeme_le s.skipGap.previous c cs
      obtain ⟨ds, es, rfl, rfl⟩ : ∃ ds es, cs = ds ++ es ∧ n = ds.length :=
        ⟨cs.take n, cs.drop n, by simp, by simp [hle]⟩
      have hnext := cut_of_lexeme hrest hlex
      have hes : (s.skipGap.skip (ds.length + 1)).rest = es := by simp [skip, hrest]
      have hlast : (s.skipGap.skip (ds.length + 1)).previous = ds.getLastD c := by
        simp [skip, hrest, List.getLast?_cons]
      have hstop : (s.skipGap.skip (ds.length + 1)).position
          = s.skipGap.position.advance (c :: ds) := by simp [skip, hrest]
      simp only [next, hnext] at hkind hps hcuts htokens
      rw [hes] at hps
      rw [hlast] at hcuts
      subst hps
      refine ⟨gaps ++ .token kind (String.ofList (c :: ds)) :: ps, rest, ?_, ?_, ?_⟩
      · simp [hsplit, hrest]
      · refine (hgap _ _).append (.token String.toList_ofList ?_ ?_ hkind hcuts)
        · rw [← hrest, hnogap]
        · rw [← hprev, hlex]
      · rw [tokensFrom_append, tokensFrom_eq_nil hkinds, ← hpos]
        simp only [next, hnext, later, htokens, hstop]
        simp [tokensFrom]

end Scanner

/-! ## Texts without gaps -/

/-- The tokens of pieces, but for the last one, are the tokens of the pieces before it. -/
theorem exists_split_of_tokensFrom {p : Position} {ps : List Piece} {ts : List Token} {x : Token}
    (h : tokensFrom p ps = ts ++ [x]) : ∃ before kind text after,
      ps = before ++ .token kind text :: after ∧ ts = tokensFrom p before ∧
        x.kind = kind ∧ x.text = text := by
  induction ps generalizing p ts with
  | nil => simp [tokensFrom] at h
  | cons piece ps ih =>
    cases piece with
    | gap cs =>
      obtain ⟨before, kind, text, after, rfl, rfl, hkind, htext⟩ := ih h
      exact ⟨.gap cs :: before, kind, text, after, rfl, rfl, hkind, htext⟩
    | token kind text =>
      cases ts with
      | nil =>
        simp only [tokensFrom, List.nil_append, List.cons.injEq] at h
        exact ⟨[], kind, text, ps, rfl, rfl, by simp [← h.1], by simp [← h.1]⟩
      | cons t ts =>
        simp only [tokensFrom, List.cons_append, List.cons.injEq] at h
        obtain ⟨before, kind', text', after, rfl, rfl, hkind, htext⟩ := ih h.2
        exact ⟨.token kind text :: before, kind', text', after, rfl, by simp [tokensFrom, h.1], hkind,
          htext⟩

theorem text_ne_of_cuts {rest : List Char} {previous : Char} {ps : List Piece}
    (h : Cuts rest previous ps) (p : Position) : ∀ t ∈ tokensFrom p ps, t.text.toList ≠ [] := by
  induction h generalizing p with
  | nil => simp [tokensFrom]
  | gap _ _ ih => exact ih _
  | token htext _ _ _ _ ih =>
    simp only [tokensFrom, List.forall_mem_cons]
    exact ⟨by simp [htext], ih _⟩

/-- A token has a character. -/
theorem length_text_pos {text : String} {t : Token} (h : t ∈ (TokenList.ofText text).tokens) :
    0 < t.text.toList.length := by
  obtain ⟨ps, rest, -, hcuts, htokens⟩ := (Scanner.ofText text).exists_pieces
  rw [TokenList.ofText, htokens] at h
  exact List.length_pos_iff.2 (text_ne_of_cuts hcuts _ t h)

/-- The piece that a token is. -/
def Token.piece (t : Token) : Piece := .token t.kind t.text

@[simp] theorem kindsOf_map_piece (ts : List Token) :
    kindsOf (ts.map Token.piece) = ts.map Token.kind := by
  induction ts with
  | nil => rfl
  | cons t ts ih => simp [Token.piece, ih]

/-- The pieces that are tokens. -/
def tokenPieces (ps : List Piece) : List Piece := ps.filter fun p => p.kind?.isSome

/-- Where pieces stand does not change what their tokens are. -/
theorem map_piece_tokensFrom (p : Position) (ps : List Piece) :
    (tokensFrom p ps).map Token.piece = tokenPieces ps := by
  induction ps generalizing p with
  | nil => rfl
  | cons piece ps ih => cases piece with
    | gap cs => exact ih _
    | token kind text => exact congrArg (Piece.token kind text :: ·) (ih _)

/-- A text that is cut into pieces has their tokens, and the end of the text behind them. -/
theorem ofText_of_cuts {text : String} {ps : List Piece} (hchars : charsOf ps = text.toList)
    (h : Cuts [] '\x00' ps) : TokenList.ofText text =
      ⟨tokensFrom .origin ps, ⟨.eof, "", Position.origin.advance text.toList,
        Position.origin.advance text.toList⟩⟩ := by
  have hrest : (Scanner.ofText text).rest = charsOf ps ++ [] := by rw [hchars, List.append_nil]; rfl
  have hend := Scanner.run_of_rest_eq_nil
    (s := (Scanner.ofText text).skip (charsOf ps).length) (by simp [Scanner.skip, hrest])
  rw [TokenList.ofText, Scanner.run_eq_of_cuts h hrest, hend, List.append_nil]
  simp [Scanner.skip, Scanner.ofText, hchars]

theorem tokens_ofText {text : String} {ps : List Piece} (hchars : charsOf ps = text.toList)
    (h : Cuts [] '\x00' ps) : (TokenList.ofText text).tokens = tokensFrom .origin ps :=
  congrArg TokenList.tokens (ofText_of_cuts hchars h)

/-- Pieces whose tokens have all their characters have no gaps. -/
theorem eq_map_piece_of_cuts {rest : List Char} {previous : Char} {ps : List Piece}
    (h : Cuts rest previous ps) (p : Position) :
    ((tokensFrom p ps).flatMap (·.text.toList)).length ≤ (charsOf ps).length ∧
      ((charsOf ps).length ≤ ((tokensFrom p ps).flatMap (·.text.toList)).length →
        ps = (tokensFrom p ps).map Token.piece) := by
  induction h generalizing p with
  | nil => exact ⟨Nat.le_refl _, fun _ => rfl⟩
  | @gap previous cs ps hgap _ ih =>
    obtain ⟨hle, -⟩ := ih (p.advance cs)
    have hpos : 0 < cs.length := by cases cs with
      | nil => cases hgap
      | cons => exact Nat.succ_pos _
    simp only [tokensFrom, charsOf_gap, List.length_append] at hle ⊢
    exact ⟨by omega, fun h => by omega⟩
  | @token previous c cs kind text ps _ _ _ _ _ ih =>
    obtain ⟨hle, heq⟩ := ih (p.advance text.toList)
    simp only [tokensFrom, charsOf_token, List.flatMap_cons, List.length_append, List.map_cons,
      Token.piece]
    exact ⟨by omega, fun h => by rw [← heq (by omega)]⟩

/-- A text that is nothing but tokens is cut into them in front of a closer. -/
theorem cuts_of_tokens {text closer : String} {d : Char} {ts : List Token} {x : Token}
    (hcloser : closer.toList = [d]) (hts : (TokenList.ofText (text ++ closer)).tokens = ts ++ [x])
    (hx : x.text = closer)
    (hlength : text.toList.length ≤ (ts.flatMap (·.text.toList)).length) :
    charsOf (ts.map Token.piece) = text.toList ∧ Cuts [d] '\x00' (ts.map Token.piece) := by
  obtain ⟨all, rest, hall, hcuts, htokens⟩ := (Scanner.ofText (text ++ closer)).exists_pieces
  have hchars : text.toList ++ [d] = charsOf all ++ rest := by
    rw [← hcloser, ← String.toList_append]; exact hall
  have hsplit : tokensFrom .origin all = ts ++ [x] := htokens.symm.trans hts
  obtain ⟨before, kind, closing, after, rfl, rfl, -, hclosing⟩ := exists_split_of_tokensFrom hsplit
  obtain rfl : closing = closer := hclosing.symm.trans hx
  obtain ⟨hle, heq⟩ := eq_map_piece_of_cuts hcuts.left .origin
  simp only [charsOf_append, charsOf_token, hcloser, List.append_assoc] at hchars
  have hsum := congrArg List.length hchars
  simp only [List.length_append, List.length_cons, List.length_nil] at hsum
  have htext : charsOf before = text.toList := (List.append_inj hchars (by omega)).1.symm
  have hafter : charsOf after ++ rest = [] := by
    rw [← List.length_eq_zero_iff, List.length_append]
    omega
  have hleft := hcuts.left
  rw [charsOf_token, hcloser, List.append_assoc, hafter] at hleft
  rw [← heq (by omega)]
  exact ⟨htext, hleft⟩

end StubMerge
