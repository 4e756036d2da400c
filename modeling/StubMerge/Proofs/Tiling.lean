import Mathlib.Data.List.Forall2
import StubMerge.Proofs.Pieces

/-!
# Tokens and gaps make up the text

The scanner loses nothing. Between the ends of two neighbouring tokens there are only blanks, tabs,
carriage returns and line breaks behind a backslash, and the gaps and the tokens, written one behind
the other, are the text.

`Covers p cs ts` says this of the characters `cs` that stand behind the point `p`: they fall into a
gap and a token for each token of `ts`. One step of the scanner cuts off one gap and one token
(`next_spec`), so what is left of a text is covered by what is left of its tokens (`covers_run`).
All that is said of offsets is read off from there.

**Theorem (`tokens_tile_text`).** The tokens of a text are the ones that the scanner gives if it is
asked until it gives the end, and they tile the text (`Tiles`).
-/

namespace StubMerge

/-! ## What stands where -/

/-- Whether characters can stand between two tokens: they are a row of blanks, tabs, carriage
returns and line breaks behind a backslash. -/
def IsBetween (cs : List Char) : Prop :=
  ∃ gaps : List (List Char), (∀ gap ∈ gaps, isGap gap = true) ∧ cs = gaps.flatten

/-- `word` is what stands in a text between two offsets, both of which are between characters. -/
def StandsAt (text : String) (start stop : Nat) (word : String) : Prop :=
  ∃ before after, text = before ++ word ++ after ∧ start = before.utf8ByteSize ∧
    stop = (before ++ word).utf8ByteSize

/-- The offsets that the gaps before tokens stand between, where the first begins at `start`. -/
def gapSpans (start : Nat) : List Token → List (Nat × Nat)
  | [] => []
  | t :: ts => (start, t.start.offset) :: gapSpans t.stop.offset ts

/-- A text with the tokens that it falls into. -/
structure Tiles (text : String) (ts : TokenList) : Prop where
  /-- Every token is what stands between its two ends. -/
  stands : ∀ t ∈ ts.toList, StandsAt text t.start.offset t.stop.offset t.text
  /-- Both ends are between two characters of the text, or at one of its ends. -/
  valid : ∀ t ∈ ts.toList, String.Pos.Raw.IsValid text ⟨t.start.offset⟩ ∧
    String.Pos.Raw.IsValid text ⟨t.stop.offset⟩
  /-- Tokens come one behind the other. -/
  ordered : ts.toList.Pairwise fun t u => t.stop.offset ≤ u.start.offset
  /-- Only the last token can be empty. -/
  nonempty : ∀ t ∈ ts.tokens, t.start.offset < t.stop.offset
  /-- Only the last token marks the end. -/
  inner : ∀ t ∈ ts.tokens, t.kind ≠ .eof
  close_kind : ts.close.kind = .eof
  close_stop : ts.close.stop.offset = text.utf8ByteSize
  close_text : ts.close.text = "" ∨ ts.close.text = "\x00"
  /-- What is before, between and behind tokens are gaps, and nothing else is in the text. -/
  gaps : ∃ gaps : List String,
    List.Forall₂ (fun span gap => StandsAt text span.1 span.2 gap ∧ IsBetween gap.toList)
      (gapSpans 0 ts.toList) gaps ∧
    text = String.join (List.zipWith (fun gap t => gap ++ t.text) gaps ts.toList)

theorem isBetween_nil : IsBetween [] := ⟨[], by simp, rfl⟩

theorem IsBetween.cons {gap cs : List Char} (hgap : isGap gap = true) (h : IsBetween cs) :
    IsBetween (gap ++ cs) := by
  obtain ⟨gaps, hgaps, rfl⟩ := h
  exact ⟨gap :: gaps, List.forall_mem_cons.2 ⟨hgap, hgaps⟩, rfl⟩

/-- What the scanner skips can stand between two tokens. -/
theorem isBetween_take (cs : List Char) : IsBetween (cs.take (gapLength cs)) := by
  fun_induction gapLength cs with
  | case1 cs ih => exact .cons (show isGap ['\\', '\n'] = true from rfl) ih
  | case2 c cs _ hc ih =>
    have hgap : isGap [c] = true := by
      simp only [Bool.or_eq_true, beq_iff_eq] at hc
      obtain (rfl | rfl) | rfl := hc <;> rfl
    exact .cons hgap ih
  | case3 c cs => exact isBetween_nil
  | case4 => exact isBetween_nil

/-! ## One token -/

theorem wordKind_ne_eof (word : List Char) : wordKind word ≠ .eof := by
  unfold wordKind
  split_ifs <;> simp

theorem colonLexeme_ne_eof (previous : Char) (cs : List Char) :
    (colonLexeme previous cs).1 ≠ .eof := by
  unfold colonLexeme
  split
  · simp
  · split_ifs <;> simp

/-- Only a NUL character at the very end marks the end of a text. -/
theorem lexeme_eq_eof {previous c : Char} {cs : List Char}
    (h : (lexeme previous c cs).1 = .eof) : c = '\x00' ∧ cs = [] := by
  unfold lexeme at h
  split at h
  all_goals try split_ifs at h
  all_goals simp_all [wordKind_ne_eof, colonLexeme_ne_eof]

namespace Scanner

/-- What a token is cut off from: its characters come first. -/
theorem cut_spec (s : Scanner) : s.rest = s.cut.1.text.toList ++ s.cut.2.rest ∧
    s.cut.1.start = s.position ∧ s.cut.1.stop = s.position.advance s.cut.1.text.toList ∧
    s.cut.2.position = s.cut.1.stop := by
  unfold cut
  split
  · next h => simp [h]
  · next c cs h => simp [skip, h]

/-- At the end of a text nothing is left but a NUL character. -/
theorem cut_eof {s : Scanner} (h : s.cut.1.kind = .eof) :
    s.cut.2.rest = [] ∧ (s.cut.1.text = "" ∨ s.cut.1.text = "\x00") := by
  unfold cut at h ⊢
  split at h
  · next hs => exact ⟨hs, .inl rfl⟩
  · next c cs hs =>
    obtain ⟨rfl, rfl⟩ := lexeme_eq_eof h
    exact ⟨by simp [skip, hs], .inr (by simp)⟩

theorem text_cut_ne {s : Scanner} (h : s.cut.1.kind ≠ .eof) : s.cut.1.text ≠ "" := by
  unfold cut at h ⊢
  split at h
  · exact absurd rfl h
  · simp [String.ext_iff]

/-- One step of the scanner: a gap is skipped and a token is cut off behind it. -/
theorem next_spec (s : Scanner) : ∃ gap, IsBetween gap ∧
    s.rest = gap ++ (s.next.1.text.toList ++ s.next.2.rest) ∧
    s.next.1.start = s.position.advance gap ∧
    s.next.1.stop = s.next.1.start.advance s.next.1.text.toList ∧
    s.next.2.position = s.next.1.stop := by
  obtain ⟨hrest, hstart, hstop, hposition⟩ := s.skipGap.cut_spec
  refine ⟨s.rest.take (gapLength s.rest), isBetween_take s.rest, ?_, hstart, ?_, hposition⟩
  · calc s.rest = s.rest.take (gapLength s.rest) ++ s.skipGap.rest :=
          (List.take_append_drop _ _).symm
      _ = _ := by rw [hrest]; rfl
  · rw [next, hstart]
    exact hstop

end Scanner

/-! ## All tokens -/

/-- The characters behind a point are gaps and tokens by turns. -/
inductive Covers : Position → List Char → List Token → Prop
  | nil {p : Position} : Covers p [] []
  | cons {p : Position} {gap rest : List Char} {t : Token} {ts : List Token} :
      IsBetween gap → t.start = p.advance gap → t.stop = t.start.advance t.text.toList →
      Covers t.stop rest ts → Covers p (gap ++ (t.text.toList ++ rest)) (t :: ts)

namespace Scanner

/-- What is left of a text is covered by the tokens that are left. -/
theorem covers_run (s : Scanner) : Covers s.position s.rest s.run.toList := by
  fun_induction run s with
  | case1 s hkind =>
    obtain ⟨gap, hgap, hrest, hstart, hstop, -⟩ := s.next_spec
    have hend : s.next.2.rest = [] := (cut_eof hkind).1
    rw [hrest, hend]
    exact .cons hgap hstart hstop .nil
  | case2 s hkind later ih =>
    obtain ⟨gap, hgap, hrest, hstart, hstop, hposition⟩ := s.next_spec
    rw [hposition] at ih
    rw [hrest]
    exact .cons hgap hstart hstop ih

theorem close_run (s : Scanner) : s.run.close.kind = .eof ∧
    (s.run.close.text = "" ∨ s.run.close.text = "\x00") := by
  fun_induction run s with
  | case1 s hkind => exact ⟨hkind, (cut_eof hkind).2⟩
  | case2 s hkind later ih => exact ih

theorem tokens_run (s : Scanner) : ∀ t ∈ s.run.tokens, t.kind ≠ .eof ∧ t.text ≠ "" := by
  fun_induction run s with
  | case1 s hkind => simp
  | case2 s hkind later ih => exact List.forall_mem_cons.2 ⟨⟨hkind, text_cut_ne hkind⟩, ih⟩

/-- Asked until it gives the end, the scanner gives all tokens. -/
theorem take_run (s : Scanner) : s.take (s.run.tokens.length + 1) = s.run.toList := by
  fun_induction run s with
  | case1 s hkind => rfl
  | case2 s hkind later ih =>
    rw [List.length_cons, take, ih]
    rfl

end Scanner

namespace Covers

variable {p : Position} {cs : List Char} {text : String} {t : Token} {ts : List Token}

theorem standsAt_of_append {start : Position} {before word after : List Char}
    (htext : text.toList = before ++ (word ++ after))
    (hstart : start.offset = (String.ofList before).utf8ByteSize) :
    StandsAt text start.offset (start.advance word).offset (String.ofList word) := by
  refine ⟨String.ofList before, String.ofList after, ?_, hstart, ?_⟩
  · rw [← String.ofList_append, ← String.ofList_append, List.append_assoc, ← htext,
      String.ofList_toList]
  · rw [Position.offset_advance, hstart, String.utf8ByteSize_append]

/-- Where a walk over further characters ends, if it starts behind the characters `before`. -/
theorem offset_advance_append {before : List Char}
    (hp : p.offset = (String.ofList before).utf8ByteSize) (cs : List Char) :
    (p.advance cs).offset = (String.ofList (before ++ cs)).utf8ByteSize := by
  rw [Position.offset_advance, hp, String.ofList_append, String.utf8ByteSize_append]

theorem stands (h : Covers p cs ts) (before : List Char) (htext : text.toList = before ++ cs)
    (hp : p.offset = (String.ofList before).utf8ByteSize) :
    ∀ t ∈ ts, StandsAt text t.start.offset t.stop.offset t.text := by
  induction h generalizing before with
  | nil => simp
  | @cons p gap rest t ts hgap hstart hstop _ ih =>
    have hbefore := offset_advance_append hp gap
    rw [← hstart] at hbefore
    have hword : text.toList = before ++ gap ++ (t.text.toList ++ rest) := by
      rw [htext, List.append_assoc]
    refine List.forall_mem_cons.2 ⟨?_, ih (before ++ gap ++ t.text.toList) ?_ ?_⟩
    · have hstands := standsAt_of_append hword hbefore
      rwa [← hstop, String.ofList_toList] at hstands
    · rw [hword, List.append_assoc (before ++ gap)]
    · rw [hstop]
      exact offset_advance_append hbefore _

/-- No token starts before the point, and none before the end of an earlier one. -/
theorem ordered (h : Covers p cs ts) : (∀ t ∈ ts, p.offset ≤ t.start.offset) ∧
    ts.Pairwise fun t u => t.stop.offset ≤ u.start.offset := by
  induction h with
  | nil => simp
  | @cons p gap rest t ts hgap hstart hstop _ ih =>
    have hfirst : p.offset ≤ t.start.offset := by
      rw [hstart, Position.offset_advance]
      exact Nat.le_add_right _ _
    have hlast : t.start.offset ≤ t.stop.offset := by
      rw [hstop, Position.offset_advance]
      exact Nat.le_add_right _ _
    refine ⟨List.forall_mem_cons.2 ⟨hfirst, fun u hu => ?_⟩, List.pairwise_cons.2 ih⟩
    exact Nat.le_trans (Nat.le_trans hfirst hlast) (ih.1 u hu)

theorem start_lt_stop (h : Covers p cs ts) (ht : t ∈ ts) (htext : t.text ≠ "") :
    t.start.offset < t.stop.offset := by
  induction h with
  | nil => cases ht
  | @cons p gap rest u ts hgap hstart hstop _ ih =>
    rcases List.mem_cons.1 ht with rfl | ht
    · rw [hstop, Position.offset_advance, String.ofList_toList]
      have hpos : t.text.utf8ByteSize ≠ 0 := fun h => htext (String.utf8ByteSize_eq_zero_iff.1 h)
      omega
    · exact ih ht

theorem stop_eq (h : Covers p cs (ts ++ [t])) : t.stop = p.advance cs := by
  induction ts generalizing p cs with
  | nil =>
    cases h with
    | cons hgap hstart hstop hrest =>
      cases hrest
      rw [hstop, hstart, List.append_nil, Position.advance_append]
  | cons u ts ih =>
    cases h with
    | cons hgap hstart hstop hrest =>
      rw [ih hrest, hstop, hstart, Position.advance_append, Position.advance_append]

theorem gaps (h : Covers p cs ts) (before : List Char) (htext : text.toList = before ++ cs)
    (hp : p.offset = (String.ofList before).utf8ByteSize) :
    ∃ gaps : List String,
      List.Forall₂ (fun span gap => StandsAt text span.1 span.2 gap ∧ IsBetween gap.toList)
        (gapSpans p.offset ts) gaps ∧
      String.ofList cs = String.join (List.zipWith (fun gap t => gap ++ t.text) gaps ts) := by
  induction h generalizing before with
  | nil => exact ⟨[], .nil, rfl⟩
  | @cons p gap rest t ts hgap hstart hstop _ ih =>
    have hstops : t.stop.offset =
        (String.ofList (before ++ gap ++ t.text.toList)).utf8ByteSize := by
      rw [hstop, hstart]
      exact offset_advance_append (offset_advance_append hp gap) _
    obtain ⟨gaps, hspans, hjoin⟩ := ih _ (by simp [htext]) hstops
    refine ⟨String.ofList gap :: gaps, .cons ⟨?_, by rwa [String.toList_ofList]⟩ hspans, ?_⟩
    · rw [hstart]
      exact standsAt_of_append htext hp
    · rw [List.zipWith_cons_cons, String.join_cons, ← hjoin, String.ofList_append,
        String.ofList_append, String.ofList_toList, String.append_assoc]

end Covers

theorem StandsAt.valid {text word : String} {start stop : Nat}
    (h : StandsAt text start stop word) :
    String.Pos.Raw.IsValid text ⟨start⟩ ∧ String.Pos.Raw.IsValid text ⟨stop⟩ := by
  obtain ⟨before, after, rfl, rfl, rfl⟩ := h
  refine ⟨String.Pos.Raw.isValid_iff_exists_append.2 ⟨before, word ++ after, ?_, rfl⟩,
    String.Pos.Raw.isValid_iff_exists_append.2 ⟨before ++ word, after, rfl, rfl⟩⟩
  rw [String.append_assoc]

/-- **Scanning loses nothing.** The tokens of a text are the ones that the scanner gives until it
gives the end, and together with the gaps between them they make up the text. -/
theorem tokens_tile_text (text : String) :
    (Scanner.ofText text).take ((TokenList.ofText text).tokens.length + 1) =
        (TokenList.ofText text).toList ∧
      Tiles text (TokenList.ofText text) := by
  have hcovers : Covers .origin text.toList (TokenList.ofText text).toList :=
    (Scanner.ofText text).covers_run
  have htokens := (Scanner.ofText text).tokens_run
  have hclose := (Scanner.ofText text).close_run
  have hstands := hcovers.stands [] (List.nil_append _).symm rfl
  refine ⟨(Scanner.ofText text).take_run, ?_⟩
  exact
    { stands := hstands
      valid := fun t ht => (hstands t ht).valid
      ordered := hcovers.ordered.2
      nonempty := fun t ht =>
        hcovers.start_lt_stop (List.mem_append_left _ ht) (htokens t ht).2
      inner := fun t ht => (htokens t ht).1
      close_kind := hclose.1
      close_stop := by
        rw [hcovers.stop_eq, Position.offset_advance, String.ofList_toList]
        exact Nat.zero_add _
      close_text := hclose.2
      gaps := by
        obtain ⟨gaps, hspans, hjoin⟩ := hcovers.gaps [] (List.nil_append _).symm rfl
        exact ⟨gaps, hspans, String.ofList_toList.symm.trans hjoin⟩ }

end StubMerge
