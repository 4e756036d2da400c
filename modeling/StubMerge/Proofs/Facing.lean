import StubMerge.Proofs.Phrases

/-!
# A cursor in front of pieces

`c.Faces ps` says that nothing was reported and that the tokens of the pieces `ps` are all that is
still to be read. What a reading function does in front of its own pieces is then said in one form:
it gives a value, and leaves a cursor in front of the pieces behind them. This module does so for
the functions that know nothing about declarations: captures and arguments.
-/

namespace StubMerge

namespace Cursor

variable {c : Cursor} {ps qs : List Piece} {k : TokenKind} {t : String}

/-! ## Moving -/

theorem skip_zero (c : Cursor) : c.skip 0 = c := by simp [skip]

theorem kind_eq_headKind (c : Cursor) : c.kind = headKind c.rest := by
  unfold Cursor.kind nthKind
  cases c.rest <;> rfl

theorem nthKind_succ (c : Cursor) (n : Nat) : c.nthKind (n + 1) = c.advance.nthKind n := by
  simp [nthKind, advance, skip]

theorem nth_succ (c : Cursor) (n : Nat) : c.nth (n + 1) = c.advance.nth n := by
  simp [nth, advance, skip]

theorem skip_succ (h : c.kind ≠ .eof) (n : Nat) : c.skip (n + 1) = c.advance.skip n := by
  rw [kind_eq_headKind] at h
  cases hrest : c.rest with
  | nil => simp [hrest, headKind] at h
  | cons t later =>
    simp only [advance, skip, hrest, List.take_succ_cons, List.take_zero, List.drop_succ_cons,
      List.drop_zero, List.getLast?_cons]
    cases (later.take n).getLast? <;> rfl

theorem skipWhile_of_false {p : TokenKind → Bool} (h : p c.kind = false) : c.skipWhile p = c := by
  rw [kind_eq_headKind] at h
  unfold skipWhile
  cases hrest : c.rest with
  | nil => exact skip_zero c
  | cons t later =>
    rw [hrest, headKind] at h
    simp [h, skip_zero]

theorem skipWhile_of_true {p : TokenKind → Bool} (hc : c.kind ≠ .eof) (h : p c.kind = true) :
    c.skipWhile p = c.advance.skipWhile p := by
  have hkind := hc
  rw [kind_eq_headKind] at h hkind
  unfold skipWhile
  cases hrest : c.rest with
  | nil => simp [hrest, headKind] at hkind
  | cons t later =>
    rw [hrest, headKind] at h
    have hlater : c.advance.rest = later := by simp [advance, skip, hrest]
    simp only [List.takeWhile_cons, h, if_true, List.length_cons, skip_succ hc, hlater]

theorem skipNewlines_of_ne (h : c.kind ≠ .newline) : c.skipNewlines = c :=
  skipWhile_of_false (beq_false_of_ne h)

theorem eat_of_kind (h : c.kind = k) : c.eat k = (true, c.advance) := by simp [eat, h]

theorem expect_of_kind (h : c.kind = k) (p : Problem) : c.expect k p = (true, c.advance) := by
  simp [expect, h]

theorem endStatement_of_kind (h : c.kind.endsStatement = true) : c.endStatement = c := by
  simp [endStatement, atStatementEnd, h]

/-! ## Facing -/

/-- Nothing was reported, and the tokens of the pieces are still to be read. -/
structure Faces (c : Cursor) (ps : List Piece) : Prop where
  silent : c.diagnostics = #[]
  tokens : ∃ p, c.rest = tokensFrom p ps

namespace Faces

theorem gap {cs : List Char} (h : c.Faces (.gap cs :: ps)) : c.Faces ps := by
  obtain ⟨p, hp⟩ := h.tokens
  exact ⟨h.silent, _, hp⟩

theorem blank (h : c.Faces (.blank :: ps)) : c.Faces ps := h.gap

theorem kind_eq (h : c.Faces ps) : c.kind = nextKind ps := by
  obtain ⟨p, hp⟩ := h.tokens
  rw [kind_eq_headKind, hp, headKind_tokensFrom]

theorem nthKind (h : c.Faces ps) (n : Nat) : c.nthKind n = (kindsOf ps)[n]?.getD .eof := by
  obtain ⟨p, hp⟩ := h.tokens
  rw [← map_kind_tokensFrom p ps, List.getElem?_map, Cursor.nthKind, hp]
  cases (tokensFrom p ps)[n]? <;> rfl

theorem kind (h : c.Faces (.token k t :: ps)) : c.kind = k := h.kind_eq

theorem text (h : c.Faces (.token k t :: ps)) : c.text = t := by
  obtain ⟨p, hp⟩ := h.tokens
  simp [Cursor.text, peek, nth, hp, tokensFrom]

theorem skip (h : c.Faces (ps ++ qs)) : (c.skip (kindsOf ps).length).Faces qs := by
  obtain ⟨p, hp⟩ := h.tokens
  refine ⟨h.silent, p.advance (charsOf ps), ?_⟩
  rw [Cursor.skip, hp, tokensFrom_append]
  exact List.drop_left' (length_tokensFrom p ps)

theorem advance (h : c.Faces (.token k t :: ps)) : c.advance.Faces ps := by
  have hcons : c.Faces ([.token k t] ++ ps) := h
  exact hcons.skip

theorem map_piece (h : c.Faces ps) : c.rest.map Token.piece = tokenPieces ps := by
  obtain ⟨p, hp⟩ := h.tokens
  rw [hp, map_piece_tokensFrom]

/-- Two tokens without a gap meet. -/
theorem adjacent {k' : TokenKind} {t' : String}
    (h : c.Faces (.token k t :: .token k' t' :: ps)) : c.peek.stop = (c.nth 1).start := by
  obtain ⟨p, hp⟩ := h.tokens
  simp [peek, nth, hp, tokensFrom]

/-! ## Captures and arguments -/

theorem capture {stop : TokenKind → Bool} {text : String} (hp : Phrase stop text ps)
    (hq : endsCapture stop (nextKind qs) = true) (h : c.Faces (ps ++ qs)) :
    ∃ c', c.capture stop = (text, c') ∧ c'.Faces qs := by
  obtain ⟨p, hrest⟩ := h.tokens
  rw [tokensFrom_append] at hrest
  have hlength : captureLength stop 0 c.rest = (kindsOf ps).length := by
    rw [hrest]
    exact hp.length (by rwa [headKind_tokensFrom])
  refine ⟨_, ?_, h.skip⟩
  rw [Cursor.capture, hlength, hrest, List.take_left' (length_tokensFrom p ps), hp.render]

theorem captureGroup {text : String} (hp : Phrase stopsNever text ps)
    (h : c.Faces (.mark "(" :: (ps ++ .mark ")" :: qs))) :
    ∃ c', c.captureGroup = (text, c') ∧ c'.Faces qs := by
  obtain ⟨c', hcapture, hc'⟩ := h.advance.capture hp rfl
  refine ⟨c'.advance, ?_, hc'.advance⟩
  have hall : c.advance.captureAll = (text, c') := hcapture
  have hopen : c.kind = .leftParen := h.kind
  have hclose : c'.kind = .rightParen := hc'.kind
  simp [Cursor.captureGroup, expect_of_kind hopen, hall, expect_of_kind hclose]

/-- Arguments, up to what ends the last of them. -/
theorem arguments {args : List String} {pss : List (List Piece)}
    (hargs : List.Forall₂ Argument args pss) (hq : endsCapture endsArgument (nextKind qs) = true)
    (hcomma : nextKind qs ≠ .comma) (h : c.Faces (commaRow pss ++ qs)) :
    ∃ c', c.arguments = (args, c') ∧ c'.Faces qs := by
  induction hargs generalizing c with
  | nil =>
    obtain ⟨c', hcapture, hc'⟩ := h.capture .nil hq
    refine ⟨c', ?_, hc'⟩
    have hkind : c'.kind ≠ .comma := hc'.kind_eq ▸ hcomma
    rw [Cursor.arguments]
    simp [hcapture, hkind]
  | @cons arg ps args pss harg hargs ih =>
    have hempty : arg.isEmpty = false := by simpa using harg.nonempty
    cases hargs with
    | nil =>
      rw [commaRow_singleton] at h
      obtain ⟨c', hcapture, hc'⟩ := h.capture harg.toPhrase hq
      refine ⟨c', ?_, hc'⟩
      have hkind : c'.kind ≠ .comma := hc'.kind_eq ▸ hcomma
      rw [Cursor.arguments]
      simp [hcapture, hkind, hempty]
    | @cons next ps' args pss hnext hargs =>
      rw [commaRow_cons_cons, List.append_assoc] at h
      obtain ⟨c', hcapture, hc'⟩ := h.capture harg.toPhrase rfl
      have hkind : c'.kind = .comma := hc'.kind
      obtain ⟨c'', hmore, hc''⟩ := ih hc'.advance.blank
      refine ⟨c'', ?_, hc''⟩
      have hline : c'.advance.skipNewlines = c'.advance := by
        refine skipNewlines_of_ne ?_
        rw [hc'.advance.blank.kind_eq]
        exact ne_of_endsCapture (hnext.endsCapture_nextKind _ _) rfl
      rw [Cursor.arguments]
      simp [hcapture, hkind, hempty, hline, hmore]

/-- Arguments without parentheses. -/
theorem callArguments {args : List String} {pss : List (List Piece)}
    (hargs : List.Forall₂ Argument args pss) (hq : endsCapture endsArgument (nextKind qs) = true)
    (hcomma : nextKind qs ≠ .comma) (h : c.Faces (commaRow pss ++ qs)) (hkind : c.kind ≠ .leftParen) :
    ∃ c', c.callArguments = (args, c') ∧ c'.Faces qs := by
  obtain ⟨c', hread, hc'⟩ := h.arguments hargs hq hcomma
  exact ⟨c', by simp [Cursor.callArguments, hkind, hread], hc'⟩

/-- Arguments in parentheses. -/
theorem callArguments_parens {args : List String} {pss : List (List Piece)}
    (hargs : List.Forall₂ Argument args pss)
    (h : c.Faces (.mark "(" :: (commaRow pss ++ .mark ")" :: qs))) :
    ∃ c', c.callArguments = (args, c') ∧ c'.Faces qs := by
  obtain ⟨c', hread, hc'⟩ := h.advance.arguments hargs rfl (by simp [markKind])
  refine ⟨c'.advance, ?_, hc'.advance⟩
  have hopen : c.kind = .leftParen := h.kind
  have hclose : c'.kind = .rightParen := hc'.kind
  simp [Cursor.callArguments, hopen, hread, expect_of_kind hclose]

end Faces

end Cursor

end StubMerge
