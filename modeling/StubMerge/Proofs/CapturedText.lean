import StubMerge.Proofs.InText
import StubMerge.Proofs.LineBreaks

/-!
# What captured text keeps

A capture gives the text of the tokens it takes, with the gaps between them made blanks or left out.
This file shows that nothing else is lost.

**Theorem (`Cursor.capture_stable`).** Wherever a cursor stands in a text, and whatever stops the
capture there, the tokens it takes hold no line break and no comment, and their brackets match as
far as the text goes. The captured text is scanned to the same kinds and texts again, with a line
break behind it that ends it, and a second capture takes all of it and gives the same text. For this
the tokens must be such that nothing in front of them or behind them belongs to them: they do not
start with a colon, they hold no string that is not closed, and do not end in a backslash.

* `depth_add_closings` — a capture counts the brackets that are open, and never below none.
* `Written.cuts_line` — the last token that is taken ends in front of a line break too.
* `scansBack_of_cuts` — what is cut into the same tokens is captured as a whole.
-/

namespace StubMerge

/-! ## Brackets -/

/-- How many of the tokens open a group. -/
def openings (ts : List Token) : Nat := ts.countP (·.kind.opensGroup)

/-- How many of the tokens close a group. -/
def closings (ts : List Token) : Nat := ts.countP (·.kind.closesGroup)

section Brackets

variable {stop : TokenKind → Bool} {depth : Nat} {ts more : List Token}

/-- A token opens a group or closes one that is open. -/
theorem depthAfter_add_closings (t : Token) (h : t.kind.closesGroup = true → 0 < depth) :
    depthAfter depth t.kind + closings [t] = depth + openings [t] := by
  unfold depthAfter closings openings
  rw [List.countP_singleton, List.countP_singleton]
  revert h
  cases t.kind <;> simp [TokenKind.opensGroup, TokenKind.closesGroup] <;> omega

/-- Behind tokens that a capture takes as many groups are open as were opened and not closed. -/
theorem depth_add_closings (h : ts.length ≤ Cursor.captureLength stop depth (ts ++ more)) :
    (ts.map Token.kind).foldl depthAfter depth + closings ts = depth + openings ts := by
  induction ts generalizing depth with
  | nil => rfl
  | cons t ts ih =>
    rw [List.cons_append, List.length_cons] at h
    obtain ⟨-, hcloses, hlength⟩ := captureLength_cons_pos
      (Nat.lt_of_lt_of_le (Nat.succ_pos _) h)
    rw [hlength, Nat.add_le_add_iff_right] at h
    have hfirst := depthAfter_add_closings t hcloses
    have hlater := ih h
    have hclosings : closings (t :: ts) = closings [t] + closings ts :=
      show closings ([t] ++ ts) = _ from List.countP_append
    have hopenings : openings (t :: ts) = openings [t] + openings ts :=
      show openings ([t] ++ ts) = _ from List.countP_append
    rw [List.map_cons, List.foldl_cons]
    omega

/-- Among the first tokens of a capture there are never more that close a group than open one. -/
theorem closings_le_openings (h : ts.length ≤ Cursor.captureLength stop 0 (ts ++ more))
    {us : List Token} (hus : us <+: ts) : closings us ≤ openings us := by
  obtain ⟨vs, rfl⟩ := hus
  rw [List.append_assoc, List.length_append] at h
  have hdepth := depth_add_closings (Nat.le_trans (Nat.le_add_right _ _) h)
  omega

/-- A capture that stops in front of a token has closed all groups. -/
theorem closings_eq_openings (h : Cursor.captureLength stop 0 (ts ++ more) = ts.length)
    (hmore : more ≠ []) : closings ts = openings ts := by
  obtain ⟨x, more, rfl⟩ := List.exists_cons_of_ne_nil hmore
  have hdepth := depth_add_closings (Nat.le_of_eq h.symm)
  have hzero := (captureLength_row h).2 0
  rw [Nat.add_zero] at hzero
  omega

end Brackets

/-! ## The text of a capture is cut into the same tokens -/

/-- A token ends in front of a line break as well, unless it would take the line break. -/
theorem Token.IsCut.line {t : Token} {previous : Char} {ys : List Char} (h : t.IsCut previous ys)
    (hcomment : t.kind ≠ .comment) (hslash : t.text ≠ "\\") (hclosed : t.isUnterminated = false)
    (ds : List Char) : t.IsCut previous ('\n' :: ds) := by
  by_cases hys : ys = []
  · subst hys
    exact h.append_line (fun _ => hslash) (fun _ => hclosed) ds
  · exact h.resembles hcomment (.stop (by decide)) (fun _ => hys) fun htext => absurd htext hslash

/-- Tokens of a text that stand in one line can be cut off a line of their own. -/
theorem Written.cuts_line {depth : Nat} {previous : Char} {chars : List Char}
    {row more : List Token} (h : Written depth previous chars (row ++ more))
    (hprevious : endsValue previous = false) (hquiet : ∀ t ∈ row, t.kind.isQuiet = true)
    (hclosed : ∀ t ∈ row, t.isUnterminated = false)
    (hslash : ∀ t ∈ row.getLast?, t.text ≠ "\\") (ds : List Char) :
    Cuts ('\n' :: ds) '\x00' (rowPieces row) := by
  obtain rfl | ⟨init, t, rfl⟩ := List.eq_nil_or_concat' row
  · exact .nil
  rw [List.append_assoc, List.singleton_append] at h
  obtain ⟨p, ys, hcut, -, hcuts⟩ := h.cuts hquiet
  have hcomment : t.kind ≠ .comment := by
    intro hk
    have := hquiet t (by simp)
    simp [hk, TokenKind.isQuiet] at this
  have hline : t.IsCut p ('\n' :: ds) :=
    hcut.line hcomment (hslash t (by simp)) (hclosed t (by simp)) ds
  have hbreak : '\n' ∈ closers := by decide
  have hchars : charsOf [t.piece] ++ '\n' :: ds = t.text.toList ++ '\n' :: ds := by
    simp [Token.piece]
  rw [rowPieces_append]
  -- A text starts as if a blank stood before it, and so does what is captured.
  refine hcuts hbreak hchars (fun q hq => ?_) (.inl hprevious.symm)
  exact (hline.behind hq).cuts .nil

/-! ## A second capture -/

/-- The cursor at the start of a text. -/
def Cursor.ofText (file : Option String) (text : String) : Cursor :=
  ofTokens file (TokenList.ofText text).significant

/-- A text stands for tokens: with a line break behind it, it is scanned to their kinds and texts,
and a capture from its start takes those tokens, gives the text and leaves at most the line
break. -/
structure ScansBack (stop : TokenKind → Bool) (ts : List Token) (text : String) : Prop where
  tokens : (TokenList.ofText (text ++ "\n")).toList.map Token.piece
    = ts.map Token.piece ++ [.token .newline "\n", .token .eof ""]
  again (file : Option String) : ((Cursor.ofText file (text ++ "\n")).capture stop).1 = text
  whole (file : Option String) : ∃ row, row.map Token.piece = ts.map Token.piece ∧
    (Cursor.ofText file (text ++ "\n")).rest
      = row ++ ((Cursor.ofText file (text ++ "\n")).capture stop).2.rest
  left (file : Option String) : ((Cursor.ofText file (text ++ "\n")).capture stop).2.rest.Sublist
    [lineBreakAt (Position.origin.advance text.toList)]

/-- A capture takes the tokens that are as many as it counts. -/
theorem Cursor.capture_of_rest {stop : TokenKind → Bool} {c : Cursor} {row more : List Token}
    (hrest : c.rest = row ++ more)
    (hlength : captureLength stop 0 (row ++ more) = row.length) :
    (c.capture stop).1 = render row ∧ (c.capture stop).2.rest = more := by
  simp [capture, Cursor.skip, hrest, hlength]

/-- A line break is left out, or no group is open in front of it. -/
theorem significantFrom_lineBreak (depth : Nat) (last : Option TokenKind) (p : Position) :
    significantFrom depth last (withDots [lineBreakAt p]) = [] ∨
      depth = 0 ∧ significantFrom depth last (withDots [lineBreakAt p]) = [lineBreakAt p] := by
  obtain rfl | hpos := Nat.eq_zero_or_pos depth
  · cases hwants : last.any TokenKind.wantsMore
    · exact .inr ⟨rfl, by simp [lineBreakAt, withDots, significantFrom, isIdle, hwants]⟩
    · exact .inl (by simp [lineBreakAt, withDots, significantFrom, isIdle, hwants])
  · exact .inl (by simp [lineBreakAt, withDots, significantFrom, isIdle, hpos])

section Line

variable {stop : TokenKind → Bool} {row more : List Token}

/-- Pieces that are cut in front of a line break are scanned with the line break behind them. -/
theorem ofText_render_line (hcuts : Cuts ['\n'] '\x00' (rowPieces row)) :
    (TokenList.ofText (Cursor.render row ++ "\n")).tokens = tokensFrom .origin (rowPieces row)
        ++ [lineBreakAt (Position.origin.advance (Cursor.render row).toList)] ∧
      (TokenList.ofText (Cursor.render row ++ "\n")).close.piece = .token .eof "" := by
  have hmark : "\n" ∈ loneMarks := by decide
  have hall : Cuts [] '\x00' (rowPieces row ++ [.mark "\n"]) := hcuts.append (.mark hmark .nil)
  have hchars : charsOf (rowPieces row ++ [.mark "\n"]) = (Cursor.render row ++ "\n").toList := by
    simp [charsOf_rowPieces]
  rw [ofText_of_cuts hchars hall]
  refine ⟨?_, rfl⟩
  rw [tokensFrom_append, charsOf_rowPieces]
  rfl

theorem map_kind_row (row : List Token) :
    (tokensFrom .origin (rowPieces row)).map Token.kind = row.map Token.kind := by
  rw [map_kind_tokensFrom, kindsOf_rowPieces]

/-- The layout keeps all of a captured text, and the line break only where no group is open. -/
theorem significant_render_line (hquiet : ∀ t ∈ row, t.kind.isQuiet = true)
    (hcuts : Cuts ['\n'] '\x00' (rowPieces row)) :
    ∃ left, (TokenList.ofText (Cursor.render row ++ "\n")).significant.tokens
        = tokensFrom .origin (rowPieces row) ++ left ∧
      (left = [] ∨ (row.map Token.kind).foldl depthAfter 0 = 0 ∧
        left = [lineBreakAt (Position.origin.advance (Cursor.render row).toList)]) := by
  refine ⟨_, ?_, significantFrom_lineBreak _ ((row.map Token.kind).getLast?.or none) _⟩
  rw [TokenList.significant, (ofText_render_line hcuts).1, Kept.significantFrom_quiet, map_kind_row]
  rw [map_kind_row, List.all_map, List.all_eq_true]
  exact hquiet

/-- A capture of the same kinds counts as many, whether the line break was kept or not. -/
theorem captureLength_line (hlength : row.length ≤ Cursor.captureLength stop 0 (row ++ more))
    {left : List Token} {p : Position} (hleft : left = [] ∨
      (row.map Token.kind).foldl depthAfter 0 = 0 ∧ left = [lineBreakAt p]) :
    Cursor.captureLength stop 0 (tokensFrom .origin (rowPieces row) ++ left)
      = (tokensFrom .origin (rowPieces row)).length := by
  have hkinds : (tokensFrom .origin (rowPieces row) ++ left).map Token.kind
      = (row ++ left).map Token.kind := by
    rw [List.map_append, List.map_append, map_kind_row]
  have hcount : (tokensFrom .origin (rowPieces row)).length = row.length := by
    simpa using congrArg List.length (map_kind_row row)
  rw [captureLength_congr hkinds, (captureLength_append hlength).1, hcount, Nat.add_eq_right]
  obtain rfl | ⟨hdepth, rfl⟩ := hleft
  · rfl
  · rw [hdepth]
    exact captureLength_of_endsCapture rfl

/-- Tokens that a capture takes, and that are cut off a line again, are what their text stands
for. -/
theorem scansBack_of_cuts (hquiet : ∀ t ∈ row, t.kind.isQuiet = true)
    (hlength : row.length ≤ Cursor.captureLength stop 0 (row ++ more))
    (hcuts : Cuts ['\n'] '\x00' (rowPieces row)) : ScansBack stop row (Cursor.render row) := by
  obtain ⟨left, hrest, hleft⟩ := significant_render_line hquiet hcuts
  have hpieces : (tokensFrom .origin (rowPieces row)).map Token.piece = row.map Token.piece := by
    rw [map_piece_tokensFrom, tokenPieces_rowPieces]
  have hsecond (file : Option String) :
      ((Cursor.ofText file (Cursor.render row ++ "\n")).capture stop).1 = Cursor.render row ∧
        ((Cursor.ofText file (Cursor.render row ++ "\n")).capture stop).2.rest = left := by
    have hcapture := Cursor.capture_of_rest (c := .ofText file (Cursor.render row ++ "\n")) hrest
      (captureLength_line hlength hleft)
    rwa [render_rowPieces] at hcapture
  refine ⟨?_, fun file => (hsecond file).1, fun file => ⟨_, hpieces, ?_⟩, fun file => ?_⟩
  · obtain ⟨htokens, hclose⟩ := ofText_render_line hcuts
    rw [TokenList.toList, htokens, List.map_append, List.map_append, hpieces, List.append_assoc,
      List.map_singleton, List.map_singleton, hclose]
    rfl
  · rw [(hsecond file).2]
    exact hrest
  · rw [(hsecond file).2]
    obtain rfl | ⟨-, rfl⟩ := hleft
    · exact List.nil_sublist _
    · exact List.Sublist.refl _

end Line

/-! ## Captures of a text -/

/-- What can be said of the tokens that a capture takes. -/
structure Cursor.TakesStable (stop : TokenKind → Bool) (c : Cursor) (ts : List Token) : Prop where
  taken : c.rest = ts ++ (c.capture stop).2.rest
  quiet : ∀ t ∈ ts, t.kind ≠ .newline ∧ t.kind ≠ .comment
  nested : ∀ us, us <+: ts → closings us ≤ openings us
  balanced : (c.capture stop).2.kind ≠ .eof → closings ts = openings ts
  stable : ts ≠ [] → (∀ t ∈ ts.head?, t.kind ≠ .colon) → (∀ t ∈ ts, t.isUnterminated = false) →
    (∀ t ∈ ts.getLast?, t.text ≠ "\\") → ScansBack stop ts (c.capture stop).1

/-- **Captured text is stable.** Wherever a cursor stands in a text, the tokens that a capture takes
have no line breaks and no comments among them, their brackets match, and the captured text stands
for them. -/
theorem Cursor.capture_stable (text : String) (file : Option String) (n : Nat)
    (stop : TokenKind → Bool) : ∃ ts, TakesStable stop ((Cursor.ofText file text).skip n) ts := by
  have htext : ((Cursor.ofText file text).skip n).InText :=
    (inText_ofText text file).walk (walk_skip _ n)
  generalize (Cursor.ofText file text).skip n = c at htext
  obtain ⟨row, more, hrest, -, -, hlength⟩ := exists_row stop c.rest
  obtain ⟨hrender, hmore⟩ := capture_of_rest hrest hlength
  have hle : row.length ≤ captureLength stop 0 (row ++ more) := Nat.le_of_eq hlength.symm
  have hquiet : ∀ t ∈ row, t.kind.isQuiet = true := by
    obtain ⟨depth, previous, chars, hwritten⟩ := htext
    rw [hrest, ← Nat.zero_add depth] at hwritten
    exact hwritten.quiet hle
  refine ⟨row, ?_, fun t ht => ?_, fun us => closings_le_openings hle, fun hkind => ?_,
    fun hne hcolon hclosed hslash => ?_⟩
  · rw [hmore, hrest]
  · have := hquiet t ht
    constructor
    · intro hk
      simp [hk, TokenKind.isQuiet] at this
    · intro hk
      simp [hk, TokenKind.isQuiet] at this
  · refine closings_eq_openings hlength fun hnil => hkind ?_
    rw [kind_eq_headKind, hmore, hnil]
    rfl
  · have hkind : c.kind ≠ .colon := by
      obtain ⟨t, row, rfl⟩ := List.exists_cons_of_ne_nil hne
      rw [kind_eq_headKind, hrest]
      exact hcolon t rfl
    obtain ⟨depth, previous, chars, hprevious, hwritten⟩ := htext.isApart hkind
    rw [hrest] at hwritten
    rw [hrender]
    exact scansBack_of_cuts hquiet hle (hwritten.cuts_line hprevious hquiet hclosed hslash _)

/-- A call in two lines, with a comment in it, and what comes behind it. -/
def callInLines : String := "greet( :\"it's\" ,  # a name\n  [1, x] ), rest"

/-- The call is captured in one line, and its text stands for its tokens. -/
theorem Cursor.capture_stable_of_call :
    ∃ ts : List Token,
      ts.map Token.text = ["greet", "(", ":\"it's\"", ",", "[", "1", ",", "x", "]", ")"] ∧
      ScansBack stopsAtComma ts "greet(:\"it's\", [1, x])" := by
  obtain ⟨ts, h⟩ := Cursor.capture_stable callInLines none 0 stopsAtComma
  have hts : ts = (Cursor.ofText none callInLines).rest.take 10 := by
    refine List.append_cancel_right (h.taken.symm.trans ?_)
    decide +kernel
  have htext : (((Cursor.ofText none callInLines).skip 0).capture stopsAtComma).1
      = "greet(:\"it's\", [1, x])" := by decide +kernel
  refine ⟨ts, ?_, htext ▸ h.stable ?_ ?_ ?_ ?_⟩
  all_goals
    rw [hts]
    decide +kernel

end StubMerge
