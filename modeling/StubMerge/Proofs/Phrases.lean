import StubMerge.Proofs.Rows

/-!
# Texts that are kept as they are

A *phrase* is a row of pieces that stands for a type, a value or an argument: its brackets match,
it has no line breaks and no comments, and a capture gives its text back. `exists_phrase` says that
a text is one if it is captured in front of a closing parenthesis, and `exists_line_phrase` that it
can also end a line if it is captured in front of a line break.
-/

namespace StubMerge

/-! ## Nothing that is captured is left out -/

/-- How often a character occurs in tokens. -/
def occurrences (x : Char) (ts : List Token) : Nat := (ts.flatMap fun t => t.text.toList).count x

@[simp] theorem occurrences_cons (x : Char) (t : Token) (ts : List Token) :
    occurrences x (t :: ts) = t.text.toList.count x + occurrences x ts := by
  simp [occurrences]

@[simp] theorem occurrences_append (x : Char) (ts us : List Token) :
    occurrences x (ts ++ us) = occurrences x ts + occurrences x us := by
  simp [occurrences]

theorem occurrences_tokensFrom_le (x : Char) (p : Position) (ps : List Piece) :
    occurrences x (tokensFrom p ps) ≤ (charsOf ps).count x := by
  induction ps generalizing p with
  | nil => simp [tokensFrom, occurrences]
  | cons piece ps ih =>
    cases piece with
    | gap cs =>
      simp only [tokensFrom, charsOf_gap, List.count_append]
      exact Nat.le_trans (ih _) (Nat.le_add_left _ _)
    | token kind text =>
      simp only [tokensFrom, charsOf_token, List.count_append, occurrences_cons]
      exact Nat.add_le_add_left (ih _) _

/-- What is rendered has the characters of the tokens, blanks apart. -/
theorem count_render {x : Char} (hx : x ≠ ' ') (ts : List Token) :
    (Cursor.render ts).toList.count x = occurrences x ts := by
  fun_induction Cursor.render ts with
  | case1 => simp [occurrences]
  | case2 t => simp [occurrences]
  | case3 a b later ih =>
    have hblank : (if Cursor.isSpaced a b = true then " " else "").toList.count x = 0 := by
      split <;> simp [Ne.symm hx]
    rw [String.toList_append, String.toList_append, List.count_append, List.count_append, ih, hblank,
      occurrences_cons x a]
    simp

theorem map_fst_withDots (ts : List Token) : (withDots ts).map Prod.fst = ts := by
  induction ts with
  | nil => rfl
  | cons t ts ih => rw [withDots_cons, List.map_cons, ih]

theorem significantFrom_sublist (depth : Nat) (last : Option TokenKind) (ts : List (Token × Bool)) :
    (significantFrom depth last ts).Sublist (ts.map Prod.fst) := by
  fun_induction significantFrom depth last ts with
  | case1 => exact .slnil
  | case2 depth last t dot later _ ih => exact .cons _ ih
  | case3 depth last t dot later _ ih => exact .cons_cons _ ih

/-- The tokens that matter are among all tokens, in the same order. -/
theorem significant_sublist (ts : TokenList) : ts.significant.tokens.Sublist ts.tokens := by
  have h := significantFrom_sublist 0 none (withDots ts.tokens)
  rwa [map_fst_withDots] at h

theorem occurrences_significantFrom_le (x : Char) (depth : Nat) (last : Option TokenKind)
    (ts : List (Token × Bool)) :
    occurrences x (significantFrom depth last ts) ≤ occurrences x (ts.map Prod.fst) := by
  fun_induction significantFrom depth last ts with
  | case1 => exact Nat.le_refl _
  | case2 depth last t dot later _ ih =>
    simp only [List.map_cons, occurrences_cons]
    omega
  | case3 depth last t dot later _ ih =>
    simp only [List.map_cons, occurrences_cons]
    omega

/-- Line breaks, comments and opening parentheses look like what they are. -/
def Token.isHonest (t : Token) : Prop :=
  (t.kind = .newline → '\n' ∈ t.text.toList) ∧ (t.kind = .comment → '#' ∈ t.text.toList) ∧
    (t.kind = .leftParen → t.text.toList.head? = some '(')

/-- If no line break and no number sign got lost, all tokens matter. -/
theorem significantFrom_eq {depth : Nat} {last : Option TokenKind} {ts : List (Token × Bool)}
    (hts : ∀ t ∈ ts, t.1.isHonest)
    (hbreaks : occurrences '\n' (ts.map Prod.fst) ≤ occurrences '\n' (significantFrom depth last ts))
    (hsigns : occurrences '#' (ts.map Prod.fst) ≤ occurrences '#' (significantFrom depth last ts)) :
    significantFrom depth last ts = ts.map Prod.fst := by
  fun_induction significantFrom depth last ts with
  | case1 => rfl
  | case2 depth last t dot later hidle ih =>
    exfalso
    have hlater (x : Char) := occurrences_significantFrom_le x depth last later
    obtain ⟨hnewline, hcomment, -⟩ : t.isHonest := hts (t, dot) (by simp)
    have hkind : t.kind = .newline ∨ t.kind = .comment := by
      unfold isIdle at hidle
      split at hidle <;> simp_all
    simp only [List.map_cons, occurrences_cons] at hbreaks hsigns
    obtain h | h := hkind
    · have := List.count_pos_iff.2 (hnewline h)
      have := hlater '\n'
      omega
    · have := List.count_pos_iff.2 (hcomment h)
      have := hlater '#'
      omega
  | case3 depth last t dot later _ ih =>
    simp only [List.map_cons, occurrences_cons, Nat.add_le_add_iff_left] at hbreaks hsigns ⊢
    rw [ih (fun t ht => hts t (by simp [ht])) hbreaks hsigns]

theorem wordKind_ne (word : List Char) :
    wordKind word ≠ .newline ∧ wordKind word ≠ .comment ∧ wordKind word ≠ .leftParen := by
  unfold wordKind
  split_ifs <;> decide

theorem colonLexeme_ne (previous : Char) (cs : List Char) :
    (colonLexeme previous cs).1 ≠ .newline ∧ (colonLexeme previous cs).1 ≠ .comment ∧
      (colonLexeme previous cs).1 ≠ .leftParen := by
  unfold colonLexeme
  split
  · decide
  · split_ifs <;> simp

theorem lexeme_first {previous c : Char} {cs : List Char} :
    ((lexeme previous c cs).1 = .newline → c = '\n') ∧
      ((lexeme previous c cs).1 = .comment → c = '#') ∧
      ((lexeme previous c cs).1 = .leftParen → c = '(') := by
  have hword (n : Nat) := wordKind_ne (c :: cs.take n)
  have hcolon := colonLexeme_ne previous cs
  unfold lexeme
  split
  all_goals try split_ifs
  all_goals simp_all

theorem isHonest_of_cuts {rest : List Char} {previous : Char} {ps : List Piece}
    (h : Cuts rest previous ps) (p : Position) : ∀ t ∈ tokensFrom p ps, t.isHonest := by
  induction h generalizing p with
  | nil => simp [tokensFrom]
  | gap _ _ ih => exact ih _
  | @token previous c cs kind text ps htext _ hlex _ _ ih =>
    have hfirst := @lexeme_first previous c (cs ++ (charsOf ps ++ rest))
    rw [hlex] at hfirst
    simp only [tokensFrom, List.mem_cons, forall_eq_or_imp]
    refine ⟨?_, ih _⟩
    simp only [Token.isHonest, htext]
    exact ⟨fun h => by simp [hfirst.1 h], fun h => by simp [hfirst.2.1 h],
      fun h => by simp [hfirst.2.2 h]⟩

/-- If no line break and no number sign got lost, all tokens of the pieces matter. -/
theorem significantFrom_eq_of_cuts {rest : List Char} {previous : Char} {ps : List Piece}
    (h : Cuts rest previous ps) {p : Position} {depth : Nat} {last : Option TokenKind}
    (hbreaks : occurrences '\n' (tokensFrom p ps) ≤
      occurrences '\n' (significantFrom depth last (withDots (tokensFrom p ps))))
    (hsigns : occurrences '#' (tokensFrom p ps) ≤
      occurrences '#' (significantFrom depth last (withDots (tokensFrom p ps)))) :
    tokensFrom p ps = significantFrom depth last (withDots (tokensFrom p ps)) := by
  have hhonest : ∀ t ∈ withDots (tokensFrom p ps), t.1.isHonest := fun t ht =>
    isHonest_of_cuts h _ _ (map_fst_withDots _ ▸ List.mem_map_of_mem ht)
  rw [significantFrom_eq hhonest, map_fst_withDots]
  · rwa [map_fst_withDots]
  · rwa [map_fst_withDots]

/-! ## What a capture takes -/

/-- The kind of the first token; the end of the text if there is none. -/
def headKind : List Token → TokenKind
  | [] => .eof
  | t :: _ => t.kind

theorem headKind_tokensFrom (p : Position) (ps : List Piece) :
    headKind (tokensFrom p ps) = nextKind ps := by
  induction ps generalizing p with
  | nil => rfl
  | cons piece ps ih => cases piece with
    | gap cs => exact ih _
    | token => rfl

/-- The kinds of tokens that end a capture outside brackets. -/
def endsCapture (stop : TokenKind → Bool) (k : TokenKind) : Bool :=
  k.endsStatement || k == .comment || stop k || k.closesGroup

section Capture

variable {stop : TokenKind → Bool}

theorem captureLength_of_endsCapture {ts : List Token} (h : endsCapture stop (headKind ts) = true) :
    Cursor.captureLength stop 0 ts = 0 := by
  cases ts with
  | nil => rfl
  | cons t ts =>
    simp only [headKind, endsCapture, Bool.or_eq_true] at h
    unfold Cursor.captureLength
    obtain h | h := h
    · simp only [beq_self_eq_true, Bool.true_and, Bool.or_eq_true, h, if_true]
    · have hopens : t.kind.opensGroup = false := by
        revert h
        cases t.kind <;> simp [TokenKind.opensGroup, TokenKind.closesGroup]
      simp [h, hopens]

theorem captureLength_congr {ts us : List Token} (h : ts.map Token.kind = us.map Token.kind)
    (depth : Nat) : Cursor.captureLength stop depth ts = Cursor.captureLength stop depth us := by
  induction ts generalizing us depth with
  | nil => rw [List.map_eq_nil_iff.1 h.symm]
  | cons t ts ih =>
    cases us with
    | nil => cases h
    | cons u us =>
      obtain ⟨hkind, hkinds⟩ := List.cons.inj h
      simp only [Cursor.captureLength, hkind, ih hkinds]

/-- How a capture passes the first token of a row. -/
theorem captureLength_cons_pos {depth : Nat} {t : Token} {ts : List Token}
    (h : 0 < Cursor.captureLength stop depth (t :: ts)) :
    (depth = 0 → endsCapture stop t.kind = false) ∧ (t.kind.closesGroup = true → 0 < depth) ∧
      ∀ us, Cursor.captureLength stop depth (t :: us)
        = Cursor.captureLength stop (depthAfter depth t.kind) us + 1 := by
  unfold Cursor.captureLength at h
  split at h
  · cases h
  · next hstop =>
    have hends (hdepth : depth = 0) : endsCapture stop t.kind = t.kind.closesGroup := by
      simp only [hdepth, beq_self_eq_true, Bool.true_and, Bool.not_eq_true] at hstop
      simp only [endsCapture, hstop, Bool.false_or]
    split at h
    · next hopens =>
      have hcloses : t.kind.closesGroup = false := by
        revert hopens
        cases t.kind <;> simp [TokenKind.opensGroup, TokenKind.closesGroup]
      refine ⟨fun hdepth => (hends hdepth).trans hcloses, fun hc => by simp [hcloses] at hc,
        fun us => ?_⟩
      rw [Cursor.captureLength, if_neg hstop, if_pos hopens, depthAfter, if_pos hopens]
    · next hopens =>
      split at h
      · next hcloses =>
        split at h
        · cases h
        · next hdepth =>
          have hne : depth ≠ 0 := by simpa using hdepth
          refine ⟨fun h0 => absurd h0 hne, fun _ => Nat.pos_of_ne_zero hne, fun us => ?_⟩
          rw [Cursor.captureLength, if_neg hstop, if_neg hopens, if_pos hcloses, if_neg hdepth,
            depthAfter, if_neg hopens, if_pos hcloses]
      · next hcloses =>
        refine ⟨fun hdepth => (hends hdepth).trans (Bool.not_eq_true _ ▸ hcloses),
          fun hc => absurd hc hcloses, fun us => ?_⟩
        rw [Cursor.captureLength, if_neg hstop, if_neg hopens, if_neg hcloses, depthAfter,
          if_neg hopens, if_neg hcloses]

/-- Brackets that are open around a token stay open, unless it closes one of them. -/
theorem depthAfter_add {depth : Nat} {k : TokenKind} (h : k.closesGroup = true → 0 < depth)
    (n : Nat) : depthAfter (depth + n) k = depthAfter depth k + n := by
  unfold depthAfter
  split
  · omega
  · split
    · next hc =>
      have := h hc
      omega
    · rfl

/-- A capture that takes a row of tokens takes it whatever follows, and then goes on where the
brackets of the row leave it. -/
theorem captureLength_append {depth : Nat} {ts more : List Token}
    (h : ts.length ≤ Cursor.captureLength stop depth (ts ++ more)) :
    (∀ us, Cursor.captureLength stop depth (ts ++ us)
      = Cursor.captureLength stop ((ts.map Token.kind).foldl depthAfter depth) us + ts.length) ∧
      ∀ n, (ts.map Token.kind).foldl depthAfter (depth + n)
        = (ts.map Token.kind).foldl depthAfter depth + n := by
  induction ts generalizing depth with
  | nil => exact ⟨fun us => rfl, fun n => rfl⟩
  | cons t ts ih =>
    rw [List.cons_append, List.length_cons] at h
    obtain ⟨-, hcloses, hlength⟩ := captureLength_cons_pos (Nat.lt_of_lt_of_le (Nat.succ_pos _) h)
    rw [hlength, Nat.add_le_add_iff_right] at h
    obtain ⟨hcapture, hdepth⟩ := ih h
    refine ⟨fun us => ?_, fun n => ?_⟩
    · rw [List.cons_append, hlength, hcapture us, List.length_cons]
      rfl
    · rw [List.map_cons, List.foldl_cons, List.foldl_cons, depthAfter_add hcloses, hdepth]

/-- A capture stops only outside brackets. -/
theorem captureLength_row {depth : Nat} {ts more : List Token} {x : Token}
    (h : Cursor.captureLength stop depth (ts ++ x :: more) = ts.length) :
    (∀ us, endsCapture stop (headKind us) = true →
      Cursor.captureLength stop depth (ts ++ us) = ts.length) ∧
      ∀ n, (ts.map Token.kind).foldl depthAfter (depth + n) = n := by
  obtain ⟨hcapture, hdepth⟩ := captureLength_append (Nat.le_of_eq h.symm)
  have hzero : (ts.map Token.kind).foldl depthAfter depth = 0 := by
    rw [hcapture, Nat.add_eq_right] at h
    refine Decidable.byContradiction fun hne => ?_
    simp only [Cursor.captureLength, beq_false_of_ne hne, Bool.false_and, Bool.false_eq_true,
      if_false] at h
    split_ifs at h
  refine ⟨fun us hus => ?_, fun n => ?_⟩
  · rw [hcapture, hzero, captureLength_of_endsCapture hus, Nat.zero_add]
  · rw [hdepth, hzero, Nat.zero_add]

/-- A row that is captured, and of which nothing was left out, has no line breaks and no comments.
If a line break follows it, its last token does not want more. Brackets may be open around it. -/
theorem quiet_of_captured {depth : Nat} (outer : Nat) {last : Option TokenKind} {ts : List Token}
    {x : Token} (hcapture : Cursor.captureLength stop depth (ts ++ [x]) = ts.length)
    (hkept : significantFrom (depth + outer) last (withDots (ts ++ [x])) = ts ++ [x]) :
    (∀ t ∈ ts, t.kind ≠ .newline ∧ t.kind ≠ .comment) ∧
      (x.kind = .newline → ((ts.getLast?.map Token.kind).or last).any TokenKind.wantsMore = false) := by
  induction ts generalizing depth last with
  | nil =>
    refine ⟨by simp, fun hx => ?_⟩
    simp only [List.nil_append, withDots, significantFrom] at hkept
    split at hkept
    · cases hkept
    · next hidle =>
      unfold isIdle at hidle
      split at hidle <;> simp_all
  | cons t ts ih =>
    rw [List.cons_append, List.length_cons] at hcapture
    obtain ⟨hends, hcloses, hlength⟩ := captureLength_cons_pos
      (Nat.lt_of_lt_of_eq (Nat.succ_pos _) hcapture.symm)
    rw [hlength, Nat.add_right_cancel_iff] at hcapture
    rw [List.cons_append, withDots_cons, significantFrom, depthAfter_add hcloses] at hkept
    split at hkept
    · have := (significantFrom_sublist (depth + outer) last (withDots (ts ++ [x]))).length_le
      rw [hkept, map_fst_withDots, List.length_cons] at this
      omega
    · next hidle =>
      obtain ⟨hquiet, hlast⟩ := ih hcapture (List.cons.inj hkept).2
      refine ⟨?_, fun hx => ?_⟩
      · simp only [List.mem_cons, forall_eq_or_imp]
        refine ⟨?_, hquiet⟩
        obtain rfl | hdepth := Nat.eq_zero_or_pos depth
        · have := hends rfl
          constructor
          all_goals rintro hk; simp [hk, endsCapture, TokenKind.endsStatement] at this
        · simpa [isIdle, Nat.add_pos_left hdepth outer] using hidle
      · have := hlast hx
        rw [List.getLast?_cons]
        cases hts : ts.getLast? <;> simp_all

end Capture

/-! ## What a capture gives -/

theorem offset_advance_add (p q : Position) (cs : List Char) :
    (p.advance cs).offset + q.offset = (q.advance cs).offset + p.offset := by
  rw [Position.offset_advance, Position.offset_advance]
  omega

theorem offset_le_advance (p : Position) (cs : List Char) : p.offset ≤ (p.advance cs).offset := by
  rw [Position.offset_advance]
  omega

/-- What is rendered does not depend on where the tokens stand, only on the gaps between them. -/
theorem render_cons_tokensFrom {a b : Token} {p q : Position} (hkind : a.kind = b.kind)
    (htext : a.text = b.text) (hoffset : a.stop.offset + q.offset = b.stop.offset + p.offset)
    (ps : List Piece) :
    Cursor.render (a :: tokensFrom p ps) = Cursor.render (b :: tokensFrom q ps) := by
  induction ps generalizing a b p q with
  | nil => simp [tokensFrom, Cursor.render, htext]
  | cons piece ps ih =>
    cases piece with
    | gap cs =>
      refine ih hkind htext ?_
      have := offset_advance_add p q cs
      omega
    | token kind text =>
      have hspaced : Cursor.isSpaced a ⟨kind, text, p, p.advance text.toList⟩
          = Cursor.isSpaced b ⟨kind, text, q, q.advance text.toList⟩ := by
        have : decide (a.stop.offset < p.offset) = decide (b.stop.offset < q.offset) :=
          decide_eq_decide.2 ⟨fun h => by omega, fun h => by omega⟩
        simp only [Cursor.isSpaced, hkind, this]
      have hlater := ih (a := ⟨kind, text, p, p.advance text.toList⟩)
        (b := ⟨kind, text, q, q.advance text.toList⟩) (p := p.advance text.toList)
        (q := q.advance text.toList) rfl rfl (Nat.add_comm _ _)
      simp only [tokensFrom, Cursor.render]
      rw [htext, hspaced, hlater]

theorem render_tokensFrom (p q : Position) (ps : List Piece) :
    Cursor.render (tokensFrom p ps) = Cursor.render (tokensFrom q ps) := by
  induction ps generalizing p q with
  | nil => rfl
  | cons piece ps ih =>
    cases piece with
    | gap cs => exact ih _ _
    | token kind text =>
      exact render_cons_tokensFrom (a := ⟨kind, text, p, p.advance text.toList⟩)
        (b := ⟨kind, text, q, q.advance text.toList⟩) rfl rfl (Nat.add_comm _ _) ps

theorem length_render_cons_le (a : Token) (p : Position) (ps : List Piece) :
    (Cursor.render (a :: tokensFrom p ps)).toList.length
      ≤ a.text.toList.length + (if a.stop.offset < p.offset then 1 else 0) + (charsOf ps).length := by
  induction ps generalizing a p with
  | nil => simp [tokensFrom, Cursor.render]
  | cons piece ps ih =>
    cases piece with
    | gap cs =>
      have := ih a (p.advance cs)
      simp only [tokensFrom, charsOf_gap, List.length_append]
      cases cs with
      | nil => rwa [List.length_nil, Nat.zero_add]
      | cons c cs =>
        simp only [List.length_cons]
        split at this <;> split <;> omega
    | token kind text =>
      have := ih ⟨kind, text, p, p.advance text.toList⟩ (p.advance text.toList)
      simp only [Nat.lt_irrefl, if_false, Nat.add_zero] at this
      simp only [tokensFrom, Cursor.render, charsOf_token, String.toList_append, List.length_append]
      have hblank : (if Cursor.isSpaced a ⟨kind, text, p, p.advance text.toList⟩ = true then " "
          else "").toList.length ≤ if a.stop.offset < p.offset then 1 else 0 := by
        split
        · next h =>
          simp only [Cursor.isSpaced, Bool.and_eq_true, decide_eq_true_eq] at h
          simp [h.1.1.1.1.1]
        · simp
      omega

theorem length_render_le (p : Position) (ps : List Piece) :
    (Cursor.render (tokensFrom p ps)).toList.length ≤ (charsOf ps).length := by
  induction ps generalizing p with
  | nil => simp [tokensFrom, Cursor.render]
  | cons piece ps ih =>
    cases piece with
    | gap cs =>
      rw [charsOf_gap, List.length_append]
      exact Nat.le_trans (ih _) (Nat.le_add_left _ _)
    | token kind text =>
      have := length_render_cons_le ⟨kind, text, p, p.advance text.toList⟩ (p.advance text.toList) ps
      simpa [tokensFrom] using this

theorem exists_head_of_tokensFrom {ps : List Piece} (h : kindsOf ps ≠ []) (p : Position) :
    ∃ t ts, tokensFrom p ps = t :: ts ∧ t.kind = nextKind ps ∧ p.offset ≤ t.start.offset := by
  induction ps generalizing p with
  | nil => exact absurd rfl h
  | cons piece ps ih =>
    cases piece with
    | gap cs =>
      obtain ⟨t, ts, hts, hkind, hp⟩ := ih h (p.advance cs)
      exact ⟨t, ts, hts, hkind, Nat.le_trans (offset_le_advance p cs) hp⟩
    | token => exact ⟨_, _, rfl, rfl, Nat.le_refl _⟩

/-! ## Phrases -/

/-- A row that stands for a text which a capture gives back as it is. -/
structure Phrase (stop : TokenKind → Bool) (text : String) (ps : List Piece) : Prop
    extends PieceRow text ps where
  /-- A capture takes all tokens. -/
  length : ∀ {p : Position} {ts : List Token}, endsCapture stop (headKind ts) = true →
    Cursor.captureLength stop 0 (tokensFrom p ps ++ ts) = (kindsOf ps).length
  /-- A capture gives the text. -/
  render : ∀ p, Cursor.render (tokensFrom p ps) = text

/-- A phrase that can be an argument. -/
structure Argument (text : String) (ps : List Piece) : Prop
    extends Phrase Cursor.endsArgument text ps where
  nonempty : text ≠ ""

namespace Phrase

variable {stop : TokenKind → Bool} {text : String} {ps : List Piece}

theorem nil : Phrase stop "" [] where
  toPieceRow := .nil
  length := captureLength_of_endsCapture
  render _ := rfl

theorem kindsOf_ne_nil (h : Phrase stop text ps) (htext : text ≠ "") : kindsOf ps ≠ [] := by
  intro hnil
  have := h.render .origin
  rw [Scanner.tokensFrom_eq_nil hnil] at this
  exact htext this.symm

/-- The first token of a phrase does not end a capture. -/
theorem head (h : Phrase stop text ps) {k : TokenKind} {ks : List TokenKind}
    (hk : kindsOf ps = k :: ks) : endsCapture stop k = false := by
  have hkinds := map_kind_tokensFrom .origin ps
  have hlength : Cursor.captureLength stop 0 (tokensFrom .origin ps ++ []) = (kindsOf ps).length :=
    h.length rfl
  rw [List.append_nil] at hlength
  cases hts : tokensFrom .origin ps with
  | nil => simp [hts, hk] at hkinds
  | cons t ts =>
    rw [hts, hk] at hlength
    rw [hts, hk, List.map_cons, List.cons.injEq] at hkinds
    exact hkinds.1 ▸ (captureLength_cons_pos (by rw [hlength]; exact Nat.succ_pos _)).1 rfl

/-- What starts with a phrase starts with a token that does not end a capture. -/
theorem endsCapture_nextKind (h : Phrase stop text ps) (hne : kindsOf ps ≠ []) (qs : List Piece) :
    endsCapture stop (nextKind (ps ++ qs)) = false := by
  rw [nextKind_append hne, nextKind]
  cases hk : kindsOf ps with
  | nil => exact absurd hk hne
  | cons k ks => exact h.head hk

end Phrase

/-- What is captured starts with its first token. -/
theorem Phrase.head?_eq {stop : TokenKind → Bool} {text : String} {ps : List Piece}
    (h : Phrase stop text ps) (hnext : nextKind ps = .leftParen) :
    text.toList.head? = some '(' := by
  have hne : kindsOf ps ≠ [] := fun hnil => by simp [nextKind, hnil] at hnext
  obtain ⟨t, ts, hts, hkind, -⟩ := exists_head_of_tokensFrom hne .origin
  have hcuts : Cuts [')'] '\x00' ps := h.cuts rfl (by decide) (by decide)
  have hparen := (isHonest_of_cuts hcuts .origin t (by simp [hts])).2.2 (hkind.trans hnext)
  rw [← h.render .origin, hts]
  cases ts with
  | nil => exact hparen
  | cons => simp [Cursor.render, List.head?_append, hparen]

theorem Argument.endsCapture_nextKind {text : String} {ps : List Piece} (h : Argument text ps)
    (pss : List (List Piece)) (qs : List Piece) :
    endsCapture Cursor.endsArgument (nextKind (commaRow (ps :: pss) ++ qs)) = false := by
  obtain ⟨more, hmore⟩ := commaRow_cons ps pss
  rw [hmore, List.append_assoc]
  exact h.toPhrase.endsCapture_nextKind (h.kindsOf_ne_nil h.nonempty) _

theorem ne_of_endsCapture {stop : TokenKind → Bool} {k k' : TokenKind}
    (h : endsCapture stop k = false) (h' : endsCapture stop k' = true) : k ≠ k' := by
  rintro rfl
  simp [h'] at h

/-! ## Phrases that are put together -/

/-- The kinds of tokens that a capture passes outside brackets and that open none. -/
def isPlain (stop : TokenKind → Bool) (k : TokenKind) : Bool :=
  !endsCapture stop k && !k.opensGroup

theorem captureLength_cons_of_isPlain {stop : TokenKind → Bool} {t : Token}
    (h : isPlain stop t.kind = true) (ts : List Token) :
    Cursor.captureLength stop 0 (t :: ts) = Cursor.captureLength stop 0 ts + 1 := by
  simp only [isPlain, endsCapture, Bool.and_eq_true, Bool.not_eq_true', Bool.or_eq_false_iff] at h
  simp [Cursor.captureLength, h]

/-- A single blank is kept. -/
theorem render_cons_blank {stop : TokenKind → Bool} {a : Token} {ps : List Piece}
    (ha : isPlain stop a.kind = true) (hps : kindsOf ps ≠ [])
    (hnext : endsCapture stop (nextKind ps) = false) (hcomma : nextKind ps ≠ .comma) :
    Cursor.render (a :: tokensFrom (a.stop.advance [' ']) ps)
      = a.text ++ " " ++ Cursor.render (tokensFrom (a.stop.advance [' ']) ps) := by
  obtain ⟨b, later, hts, hkind, hoffset⟩ := exists_head_of_tokensFrom hps (a.stop.advance [' '])
  have hgap : a.stop.offset < b.start.offset :=
    Nat.lt_of_lt_of_le (Nat.lt_add_of_pos_right (by decide)) hoffset
  have hopens : a.kind ≠ .leftParen ∧ a.kind ≠ .leftBracket := by
    constructor <;> intro h <;> simp [h, isPlain, TokenKind.opensGroup] at ha
  have hcloses : b.kind ≠ .rightParen ∧ b.kind ≠ .rightBracket :=
    hkind ▸ ⟨ne_of_endsCapture hnext (by simp [endsCapture, TokenKind.closesGroup]),
      ne_of_endsCapture hnext (by simp [endsCapture, TokenKind.closesGroup])⟩
  have hspaced : Cursor.isSpaced a b = true := by
    simp [Cursor.isSpaced, hgap, hopens, hcloses, hkind ▸ hcomma]
  rw [hts, Cursor.render, hspaced, if_pos rfl]

/-- Two tokens and a blank in front of a phrase. -/
theorem Phrase.prepend {stop : TokenKind → Bool} {text other t t' : String} {k k' : TokenKind}
    {ps : List Piece} (hk : isPlain stop k = true) (hk' : isPlain stop k' = true)
    (h : Phrase stop other ps) (hps : kindsOf ps ≠ []) (hcomma : nextKind ps ≠ .comma)
    (htext : text = t ++ t' ++ " " ++ other)
    (hrow : PieceRow text (.token k t :: .token k' t' :: .blank :: ps)) :
    Phrase stop text (.token k t :: .token k' t' :: .blank :: ps) where
  toPieceRow := hrow
  length hts := by
    simp only [tokensFrom, Piece.blank, List.cons_append, kindsOf_token, kindsOf_gap,
      List.length_cons]
    rw [captureLength_cons_of_isPlain hk, captureLength_cons_of_isPlain hk', h.length hts]
  render p := by
    have hnext := h.endsCapture_nextKind hps []
    rw [List.append_nil] at hnext
    have hspaced (a b : Token) (hab : a.stop = b.start) : Cursor.isSpaced a b = false := by
      simp [Cursor.isSpaced, hab]
    simp only [tokensFrom, Piece.blank, Cursor.render]
    rw [hspaced _ _ rfl, render_cons_blank hk' hps hnext hcomma, h.render, htext]
    simp [String.append_assoc]

namespace Phrase

variable {stop : TokenKind → Bool}

/-- A row of one token. -/
theorem single {text : String} {k : TokenKind} (hk : isPlain stop k = true)
    (hrow : PieceRow text [.token k text]) : Phrase stop text [.token k text] where
  toPieceRow := hrow
  length hts := by
    simp only [tokensFrom, List.cons_append, List.nil_append, kindsOf_token, kindsOf_nil,
      List.length_cons, List.length_nil]
    rw [captureLength_cons_of_isPlain hk, captureLength_of_endsCapture hts]
  render _ := rfl

theorem symbol {name : String} (hname : isIdentifier name = true)
    (hstop : isPlain stop .symbol = true) : Phrase stop (":" ++ name) [.symbol name] :=
  single hstop (.symbol hname)

/-- Symbols with commas between them. -/
theorem symbols {names : List String} (hnames : names.all isIdentifier = true) :
    Phrase stopsNever (Signature.commaSeparated (names.map (":" ++ ·)))
      (commaRow (names.map fun name => [.symbol name])) := by
  induction names with
  | nil => exact nil
  | cons name names ih =>
    rw [List.all_cons, Bool.and_eq_true] at hnames
    cases names with
    | nil => simpa [Signature.commaSeparated] using symbol hnames.1 rfl
    | cons next names =>
      have hmore := ih hnames.2
      have hrow := (PieceRow.symbol hnames.1).join .comma hmore.toPieceRow
      simp only [List.map_cons] at hmore hrow ⊢
      rw [Signature.commaSeparated, String.intercalate_cons_cons, commaRow_cons_cons]
      obtain ⟨more, hkinds⟩ := commaRow_cons [.symbol next] (names.map fun name => [.symbol name])
      refine prepend rfl rfl hmore (by simp [hkinds]) (by simp [hkinds]) ?_ hrow
      simp [Signature.commaSeparated, String.append_assoc]

/-- A keyword with its value. -/
theorem keyword {value : String} {ps : List Piece} (h : Phrase stop value ps) (name : String)
    (hname : isIdentifier name = true) (hstop : isPlain stop (identifierKind name) = true)
    (hcolon : isPlain stop .colon = true) (hvalue : value ≠ "") (hcomma : nextKind ps ≠ .comma) :
    Phrase stop (name ++ ": " ++ value) (.word name :: .mark ":" :: .blank :: ps) := by
  refine prepend hstop hcolon h (h.kindsOf_ne_nil hvalue) hcomma ?_ (.keyword hname h.toPieceRow)
  simp [String.append_assoc]

end Phrase

/-- What a capture finds in front of a closer. -/
theorem exists_tokens_of_isCaptured {stop : TokenKind → Bool} {text closer : String}
    (h : isCaptured stop closer text = true) : ∃ ts x,
      (TokenList.ofText (text ++ closer)).significant.tokens = ts ++ [x] ∧
      Cursor.render ts = text ∧ x.text = closer ∧
      Cursor.captureLength stop 0 (ts ++ [x]) = ts.length := by
  simp only [isCaptured, Cursor.ofTokens, Cursor.capture, Cursor.skip, Bool.and_eq_true,
    beq_iff_eq] at h
  generalize (TokenList.ofText (text ++ closer)).significant.tokens = ts at h
  obtain ⟨hrender, hlast⟩ := h
  generalize hn : Cursor.captureLength stop 0 ts = n at hrender hlast
  obtain ⟨x, hx⟩ : ∃ x, ts.drop n = [x] := by
    refine List.length_eq_one_iff.1 ?_
    simpa using congrArg List.length hlast
  have hsplit : ts = ts.take n ++ [x] := by rw [← hx, List.take_append_drop]
  have hlength := congrArg List.length hx
  rw [List.length_drop, List.length_singleton] at hlength
  refine ⟨ts.take n, x, hsplit, hrender, by simpa [hx] using hlast, ?_⟩
  rw [← hsplit, hn, List.length_take]
  omega

/-- A text of which the tokens give all back, with a closer behind them, is a row of pieces that is
cut in front of the closer. -/
theorem exists_pieces_of_render {s : Scanner} {text closer : String} {d : Char} {kind : TokenKind}
    {ts : List Token} {x : Token} (hcloser : closer.toList = [d])
    (hd : ∀ previous cs, lexeme previous d cs = (kind, 0)) (hs : s.rest = text.toList ++ [d])
    (htokens : s.run.tokens = ts ++ [x]) (hrender : Cursor.render ts = text)
    (hclosing : x.text = closer) :
    ∃ ps, charsOf ps = text.toList ∧ Cuts [d] s.previous ps ∧ ts = tokensFrom s.position ps ∧
      x.kind = kind := by
  obtain ⟨all, rest, hall, hcuts, hpieces⟩ := s.exists_pieces
  rw [htokens] at hpieces
  obtain ⟨ps, _, closing, after, rfl, rfl, hkind, hclosing'⟩ :=
    exists_split_of_tokensFrom hpieces.symm
  obtain rfl : closing = closer := hclosing'.symm.trans hclosing
  have hchars := hs.symm.trans hall
  have hlength := length_render_le s.position ps
  rw [hrender] at hlength
  simp only [charsOf_append, charsOf_token, hcloser, List.append_assoc] at hchars
  have hsum := congrArg List.length hchars
  simp only [List.length_append, List.length_cons, List.length_nil] at hsum
  have htext : charsOf ps = text.toList := (List.append_inj hchars (by omega)).1.symm
  have hafter : charsOf after ++ rest = [] := by
    rw [← List.length_eq_zero_iff, List.length_append]
    omega
  refine ⟨ps, htext, ?_, rfl, ?_⟩
  · have := hcuts.left
    rwa [charsOf_token, hcloser, List.append_assoc, hafter] at this
  · rw [hkind]
    cases hcuts.right with
    | token hcs _ hlex _ _ =>
      obtain ⟨rfl, rfl⟩ := List.cons.inj (hcloser.symm.trans hcs)
      exact (congrArg Prod.fst (hlex.symm.trans (hd _ _)))

/-- What is captured in front of a closer is a row of pieces that is cut in front of it, and no
token of it is left out. -/
theorem exists_pieces_of_isCaptured {stop : TokenKind → Bool} {text closer : String} {d : Char}
    {kind : TokenKind} (hcloser : closer.toList = [d])
    (hd : ∀ previous cs, lexeme previous d cs = (kind, 0))
    (h : isCaptured stop closer text = true) : ∃ ps x,
      charsOf ps = text.toList ∧ Cuts [d] '\x00' ps ∧ x.kind = kind ∧
      Cursor.render (tokensFrom .origin ps) = text ∧
      Cursor.captureLength stop 0 (tokensFrom .origin ps ++ [x]) = (tokensFrom .origin ps).length ∧
      significantFrom 0 none (withDots (tokensFrom .origin ps ++ [x]))
        = tokensFrom .origin ps ++ [x] := by
  obtain ⟨all, rest, hall, hcuts, htokens⟩ := (Scanner.ofText (text ++ closer)).exists_pieces
  have hs : (Scanner.ofText (text ++ closer)).rest = text.toList ++ [d] := by
    rw [← hcloser, ← String.toList_append]; rfl
  obtain ⟨ts, x, hsig, hrender, hclosing, hcapture⟩ := exists_tokens_of_isCaptured h
  have hkeeps : significantFrom 0 none (withDots (tokensFrom .origin all)) = ts ++ [x] := by
    rw [← hsig]; exact congrArg (fun ts => significantFrom 0 none (withDots ts)) htokens.symm
  -- Line breaks and number signs are counted: the text has no more of them than was captured.
  have hcount {y : Char} (hy : y ≠ ' ') :
      occurrences y (tokensFrom .origin all) ≤ occurrences y (ts ++ [x]) := by
    refine Nat.le_trans (occurrences_tokensFrom_le y _ all) ?_
    have hle : (charsOf all).count y ≤ (text.toList ++ [d]).count y := by
      rw [← hs, hall, List.count_append]; exact Nat.le_add_right _ _
    refine Nat.le_trans hle (Nat.le_of_eq ?_)
    rw [occurrences_append, ← count_render hy, hrender, List.count_append, ← hcloser, ← hclosing]
    simp [occurrences]
  have hkept : tokensFrom .origin all = ts ++ [x] := by
    rw [← hkeeps]
    refine significantFrom_eq_of_cuts hcuts ?_ ?_
    · rw [hkeeps]
      exact hcount (by decide)
    · rw [hkeeps]
      exact hcount (by decide)
  obtain ⟨ps, hchars, hcuts', rfl, hkind⟩ :=
    exists_pieces_of_render hcloser hd hs (htokens.trans hkept) hrender hclosing
  exact ⟨ps, x, hchars, hcuts', hkind, hrender, hcapture, hkept ▸ hkeeps⟩

/-- Pieces that are cut in front of a closer, captured and kept make a phrase. -/
theorem phrase_of_cuts {stop : TokenKind → Bool} {text : String} {ps : List Piece}
    {previous d : Char} {p : Position} {x : Token} (hprevious : endsValue previous = false) (hd : d ∈ delimiters)
    (hchars : charsOf ps = text.toList) (hcuts : Cuts [d] previous ps)
    (hrender : Cursor.render (tokensFrom p ps) = text)
    (hcapture : Cursor.captureLength stop 0 (tokensFrom p ps ++ [x]) = (tokensFrom p ps).length)
    (hquiet : ∀ t ∈ tokensFrom p ps, t.kind ≠ .newline ∧ t.kind ≠ .comment) :
    Phrase stop text ps := by
  replace hquiet : ∀ k ∈ kindsOf ps, k ≠ .newline ∧ k ≠ .comment := by
    rw [← map_kind_tokensFrom p ps, List.forall_mem_map]
    exact hquiet
  have hrow := captureLength_row hcapture
  refine ⟨⟨hchars, ?_, ?_, ?_⟩, ?_, fun q => ?_⟩
  · intro before e es hbefore he hbreak
    exact hcuts.swap hd he (fun h => absurd h hbreak) (hbefore.trans hprevious.symm)
      fun h => (hquiet _ h).2 rfl
  · refine List.all_eq_true.2 fun k hk => ?_
    have := hquiet k hk
    revert this
    cases k <;> simp [TokenKind.isQuiet]
  · intro n
    rw [← map_kind_tokensFrom p ps]
    simpa using hrow.2 n
  · intro q ts hts
    have hkinds : (tokensFrom q ps ++ ts).map Token.kind
        = (tokensFrom p ps ++ ts).map Token.kind := by
      simp only [List.map_append, map_kind_tokensFrom]
    rw [captureLength_congr hkinds, hrow.1 ts hts, length_tokensFrom]
  · rw [render_tokensFrom q p, hrender]

/-- A text that is captured in front of a closing parenthesis is a phrase. -/
theorem exists_phrase {stop : TokenKind → Bool} {text : String}
    (h : isCaptured stop ")" text = true) : ∃ ps, Phrase stop text ps := by
  obtain ⟨ps, x, hchars, hcuts, -, hrender, hcapture, hkept⟩ :=
    exists_pieces_of_isCaptured (d := ')') rfl (fun _ _ => rfl) h
  have hquiet := (quiet_of_captured 0 hcapture hkept).1
  exact ⟨ps, phrase_of_cuts rfl (by decide) hchars hcuts hrender hcapture hquiet⟩

/-- A text that is captured in front of a line break is a phrase that can end a line. -/
theorem exists_line_phrase {stop : TokenKind → Bool} {text : String} (htext : text ≠ "")
    (h : isCaptured stop "\n" text = true) : ∃ ps, Phrase stop text ps ∧ LineRow text ps := by
  obtain ⟨ps, x, hchars, hcuts, hx, hrender, hcapture, hkept⟩ :=
    exists_pieces_of_isCaptured (d := '\n') rfl (fun _ _ => rfl) h
  obtain ⟨hquiet, hlast⟩ := quiet_of_captured 0 hcapture hkept
  have hphrase := phrase_of_cuts rfl (by decide) hchars hcuts hrender hcapture hquiet
  have hcomment : .comment ∉ kindsOf ps := fun h => by
    simpa [TokenKind.isQuiet] using List.all_eq_true.1 hphrase.quiet _ h
  refine ⟨ps, hphrase, hphrase.toPieceRow, ?_, ?_⟩
  · intro previous ds hprevious
    exact hcuts.swap (by decide) (by decide) (fun _ => rfl) (hprevious.trans (by decide)) hcomment
  · replace hlast := hlast hx
    rw [Option.or_none, ← List.getLast?_map, map_kind_tokensFrom] at hlast
    cases hk : (kindsOf ps).getLast? with
    | none => exact absurd (List.getLast?_eq_none_iff.1 hk) (hphrase.kindsOf_ne_nil htext)
    | some k => simpa [hk] using hlast

end StubMerge
