import StubMerge.Proofs.Pieces
import StubMerge.Proofs.Printable

/-!
# The pieces of printed lines

A printed line is made of words, symbols, punctuation and texts that are kept as they are. For each
of the first three a lemma of `Cuts` says in front of what it is cut off.
-/

namespace StubMerge

/-! ## Words -/

/-- The kind of the token that an identifier is. -/
def identifierKind (text : String) : TokenKind :=
  if startsUpper text then .const else wordKind text.toList

/-- Whether an identifier ends in front of the characters. -/
def endsName : List Char → Bool
  | [] => true
  | c :: _ => !(isIdentifierRest c || c == '?' || c == '!')

theorem runLength_append_of_all {p : Char → Bool} {cs ds : List Char} (hcs : cs.all p = true)
    (hds : ds.head?.all (fun c => !p c) = true) : runLength p (cs ++ ds) = cs.length := by
  have hnil : ds.takeWhile p = [] := by
    cases ds <;> simp_all
  rw [runLength, List.takeWhile_append_of_pos (by simpa using hcs), hnil, List.append_nil]

theorem head?_of_endsName {ds : List Char} (h : endsName ds = true) :
    ds.head?.all (fun c => !isIdentifierRest c) = true := by
  cases ds <;> simp_all [endsName]

theorem suffixLength_of_endsName {ds : List Char} (h : endsName ds = true) :
    suffixLength ds = 0 := by
  cases ds <;> simp_all [endsName, suffixLength]

theorem nameLength_append {cs ds : List Char} (hcs : cs.all isIdentifierRest = true)
    (hds : endsName ds = true) : nameLength (cs ++ ds) = cs.length := by
  have hrun := runLength_append_of_all hcs (head?_of_endsName hds)
  simp [nameLength, hrun, suffixLength_of_endsName hds]

theorem isIdentifierRest_of_start {c : Char} (h : isIdentifierStart c = true) :
    isIdentifierRest c = true := by
  simp only [isIdentifierStart, isIdentifierRest, Char.isAlphanum, Bool.or_eq_true] at h ⊢
  exact h.imp_left .inl

theorem isAlpha_iff {c : Char} : c.isAlpha = true ↔
    (65 ≤ c.toNat ∧ c.toNat ≤ 90) ∨ (97 ≤ c.toNat ∧ c.toNat ≤ 122) := by
  have hupper : c.isUpper = decide (c.val ≥ 'A'.val ∧ c.val ≤ 'Z'.val) := rfl
  have hlower : c.isLower = (c.val ≥ 'a'.val && c.val ≤ 'z'.val) := rfl
  have halpha : c.isAlpha = (c.isUpper || c.isLower) := rfl
  simp only [halpha, hupper, hlower, Bool.or_eq_true, Bool.and_eq_true, decide_eq_true_eq,
    ge_iff_le, UInt32.le_iff_toNat_le]
  rfl

theorem isDigit_of_start {c : Char} (h : isIdentifierStart c = true) : c.isDigit = false := by
  simp only [isIdentifierStart, Bool.or_eq_true, beq_iff_eq, isAlpha_iff] at h
  refine Bool.eq_false_iff.2 ?_
  intro hdigit
  have hrange : 48 ≤ c.toNat ∧ c.toNat ≤ 57 := Char.isDigit_iff_toNat.1 hdigit
  obtain h | rfl := h
  · omega
  · cases hdigit

/-- A token that starts like an identifier. -/
theorem lexeme_of_start {previous c : Char} (hc : isIdentifierStart c = true) (cs : List Char) :
    lexeme previous c cs = if c.isUpper then (.const, runLength isIdentifierRest cs)
      else (wordKind (c :: cs.take (nameLength cs)), nameLength cs) := by
  unfold lexeme
  split
  all_goals try exact absurd hc (by decide)
  simp [isDigit_of_start hc, hc]

theorem lexeme_identifier {previous c : Char} {cs ds : List Char}
    (hc : isIdentifierStart c = true) (hcs : cs.all isIdentifierRest = true)
    (hds : endsName ds = true) :
    lexeme previous c (cs ++ ds)
      = (if c.isUpper then .const else wordKind (c :: cs), cs.length) := by
  rw [lexeme_of_start hc, runLength_append_of_all hcs (head?_of_endsName hds),
    nameLength_append hcs hds, List.take_left]
  split <;> rfl

/-- No reserved word has an exclamation mark. -/
theorem wordKind_of_mem {word : List Char} (h : '!' ∈ word) : wordKind word = .name := by
  have hne {reserved : String} (hr : '!' ∉ reserved.toList) : (word == reserved.toList) = false :=
    beq_false_of_ne fun heq => hr (heq ▸ h)
  simp only [wordKind, hne (by decide : '!' ∉ "class".toList),
    hne (by decide : '!' ∉ "module".toList), hne (by decide : '!' ∉ "def".toList),
    hne (by decide : '!' ∉ "end".toList), hne (by decide : '!' ∉ "self".toList),
    hne (by decide : '!' ∉ "do".toList), Bool.false_eq_true, if_false]

theorem exists_cons_of_isIdentifier {text : String} (h : isIdentifier text = true) :
    ∃ c cs, text.toList = c :: cs ∧ isIdentifierStart c = true ∧
      cs.all isIdentifierRest = true := by
  unfold isIdentifier at h
  split at h
  · cases h
  · next c cs heq => exact ⟨c, cs, heq, by simpa using h⟩

/-! ## Pieces -/

/-- The kind of the token that a mark is. -/
def markKind : String → TokenKind
  | "(" => .leftParen
  | ")" => .rightParen
  | "\x7b" => .leftBrace
  | "\x7d" => .rightBrace
  | "," => .comma
  | ";" => .semicolon
  | "\n" => .newline
  | "::" => .pathSeparator
  | "<<" => .shiftLeft
  | "**" => .doubleStar
  | "." => .dot
  | ":" => .colon
  | "=" => .equals
  | "<" => .less
  | "*" => .star
  | "&" => .ampersand
  | _ => .unknown

/-- The marks that are tokens whatever follows them. -/
def loneMarks : List String := ["(", ")", "\x7b", "\x7d", ",", ";", "\n", "::", "<<", "**"]

namespace Piece

/-- An identifier or a reserved word. -/
def word (text : String) : Piece := token (identifierKind text) text

/-- A mark. -/
def mark (text : String) : Piece := token (markKind text) text

/-- A symbol. -/
def symbol (name : String) : Piece := token .symbol (":" ++ name)

/-- A word with an exclamation mark. -/
def helper (name : String) : Piece := token .name (name ++ "!")

/-- A comment. -/
def comment (text : String) : Piece := token .comment ("#" ++ text)

end Piece

/-- Whether a delimiter comes next. -/
def meetsDelimiter (cs : List Char) : Bool := cs.head?.any delimiters.contains

theorem exists_of_meetsDelimiter {cs : List Char} (h : meetsDelimiter cs = true) :
    ∃ d ds, cs = d :: ds ∧ d ∈ delimiters := by
  cases cs with
  | nil => cases h
  | cons d ds => exact ⟨d, ds, rfl, by simpa [meetsDelimiter] using h⟩

theorem endsName_of_meetsDelimiter {cs : List Char} (h : meetsDelimiter cs = true) :
    endsName cs = true := by
  obtain ⟨d, ds, rfl, hd⟩ := exists_of_meetsDelimiter h
  show (!(isIdentifierRest d || d == '?' || d == '!')) = true
  exact of_mem_of_all hd (by decide)

namespace Cuts

variable {rest : List Char} {previous : Char} {ps : List Piece}

/-- The characters that a gap can start with. -/
def gapStarts : List Char := [' ', '\t', '\r', '\\']

theorem gapLength_of_notMem {c : Char} (hc : c ∉ gapStarts) (cs : List Char) :
    gapLength (c :: cs) = 0 := by
  simp only [gapStarts, List.mem_cons, List.not_mem_nil, or_false, not_or] at hc
  simp [gapLength_cons_eq_zero, hc]

theorem notMem_gapStarts {c : Char} (h : isIdentifierStart c = true) : c ∉ gapStarts := by
  intro hmem
  have hnot : ¬isIdentifierStart c = true := of_mem_of_all hmem (by decide)
  exact hnot h

theorem blank (h : Cuts rest ' ' ps) : Cuts rest previous (.blank :: ps) := .gap rfl h

theorem word {text : String} (htext : isIdentifier text = true)
    (hnext : endsName (charsOf ps ++ rest) = true) (h : ∀ c, Cuts rest c ps) :
    Cuts rest previous (.word text :: ps) := by
  obtain ⟨c, cs, hcs, hstart, hrest⟩ := exists_cons_of_isIdentifier htext
  have hkind : identifierKind text = if c.isUpper then .const else wordKind (c :: cs) := by
    simp [identifierKind, startsUpper, hcs]
  refine .token hcs (gapLength_of_notMem (notMem_gapStarts hstart) _) ?_ ?_ (h _)
  · rw [hkind, lexeme_identifier hstart hrest hnext]
  · unfold identifierKind wordKind
    split_ifs <;> decide

theorem helper {name : String} (hname : isSmallIdentifier name = true)
    (hnext : meetsDelimiter (charsOf ps ++ rest) = true) (h : ∀ c, Cuts rest c ps) :
    Cuts rest previous (.helper name :: ps) := by
  simp only [isSmallIdentifier, Bool.and_eq_true, Bool.not_eq_true'] at hname
  obtain ⟨c, cs, hcs, hstart, hrest⟩ := exists_cons_of_isIdentifier hname.1
  obtain ⟨d, ds, hds, hd⟩ := exists_of_meetsDelimiter hnext
  have hupper : c.isUpper = false := by simpa [startsUpper, hcs] using hname.2
  have heq : d ≠ '=' := of_mem_of_all hd (by decide)
  have hsuffix : suffixLength ('!' :: d :: ds) = 1 := by simp [suffixLength, heq]
  have hlength : nameLength (cs ++ '!' :: d :: ds) = cs.length + 1 := by
    have hrun : runLength isIdentifierRest (cs ++ '!' :: d :: ds) = cs.length :=
      runLength_append_of_all hrest rfl
    simp [nameLength, hrun, hsuffix]
  have htake : (cs ++ '!' :: d :: ds).take (cs.length + 1) = cs ++ ['!'] := by
    rw [List.take_append, List.take_of_length_le (Nat.le_succ _)]
    simp
  have htext : (name ++ "!").toList = c :: (cs ++ ['!']) := by simp [hcs]
  refine .token htext (gapLength_of_notMem (notMem_gapStarts hstart) _) ?_ (by decide) (h _)
  rw [hds, List.append_assoc, List.singleton_append, lexeme_of_start hstart, hupper, hlength, htake,
    wordKind_of_mem (by simp)]
  simp

theorem symbol {name : String} (hname : isIdentifier name = true)
    (hprevious : endsValue previous = false)
    (hnext : meetsDelimiter (charsOf ps ++ rest) = true) (h : ∀ c, Cuts rest c ps) :
    Cuts rest previous (.symbol name :: ps) := by
  obtain ⟨c, cs, hcs, hstart, hrest⟩ := exists_cons_of_isIdentifier hname
  obtain ⟨d, ds, hds, hd⟩ := exists_of_meetsDelimiter hnext
  have hcolon : c ≠ ':' := fun heq => absurd hstart (heq ▸ by decide)
  have hall : (c :: cs).all isIdentifierRest = true := by
    simp only [List.all_cons, isIdentifierRest_of_start hstart, hrest, Bool.and_self]
  have hlength : symbolLength (c :: cs ++ d :: ds) = cs.length + 1 := by
    have hname := nameLength_append hall (hds ▸ endsName_of_meetsDelimiter hnext)
    have heq : d ≠ '=' := of_mem_of_all hd (by decide)
    unfold symbolLength
    simp only [hname, List.drop_left]
    split
    · simp_all
    · simp
  have htext : (":" ++ name).toList = ':' :: c :: cs := by simp [hcs]
  refine .token htext (gapLength_of_notMem (by decide) _) ?_ (by decide) (h _)
  rw [hds]
  simp only [List.cons_append] at hlength ⊢
  simp [lexeme, colonLexeme, hcolon, hprevious, hstart, hlength]

theorem comment {text : String} (htext : '\n' ∉ text.toList)
    (hnext : (charsOf ps ++ rest).head? = some '\n') (h : ∀ c, Cuts rest c ps) :
    Cuts rest previous (.comment text :: ps) := by
  have hchars : ("#" ++ text).toList = '#' :: text.toList := by simp
  refine .token hchars (gapLength_of_notMem (by decide) _) ?_ (by decide) (h _)
  refine Prod.ext rfl (runLength_append_of_all ?_ ?_)
  · simp only [List.all_eq_true, bne_iff_ne, ne_eq]
    rintro c hc rfl
    exact htext hc
  · simp [hnext]

theorem mark {text : String} (htext : text ∈ loneMarks)
    (h : Cuts rest (text.toList.getLastD previous) ps) :
    Cuts rest previous (.mark text :: ps) := by
  simp only [loneMarks, List.mem_cons, List.not_mem_nil, or_false] at htext
  obtain rfl | rfl | rfl | rfl | rfl | rfl | rfl | rfl | rfl | rfl := htext
  all_goals exact .token rfl (gapLength_of_notMem (by decide) _) rfl (by decide) h

/-- A colon, an equals sign or a less-than sign in front of a delimiter. -/
theorem separator {text : String} (htext : text ∈ [":", "=", "<"])
    (hnext : meetsDelimiter (charsOf ps ++ rest) = true)
    (h : Cuts rest (text.toList.getLastD previous) ps) :
    Cuts rest previous (.mark text :: ps) := by
  obtain ⟨d, ds, hds, hd⟩ := exists_of_meetsDelimiter hnext
  have hstart : isIdentifierStart d = false := of_mem_of_all hd (by decide)
  have hplain : d ∉ [':', '"', '\'', '>', '=', '~', '<'] := of_mem_of_all hd (by decide)
  simp only [List.mem_cons, List.not_mem_nil, or_false, not_or] at htext hplain
  obtain rfl | rfl | rfl := htext
  · refine .token (c := ':') rfl (gapLength_of_notMem (by decide) _) ?_ (by decide) h
    simp [lexeme, colonLexeme, hds, hstart, hplain, markKind]
  · refine .token (c := '=') rfl (gapLength_of_notMem (by decide) _) ?_ (by decide) h
    simp [lexeme, hds, hplain, markKind]
  · refine .token (c := '<') rfl (gapLength_of_notMem (by decide) _) ?_ (by decide) h
    simp [lexeme, hds, hplain, markKind]

/-- The mark in front of the name of a parameter that takes several arguments or a block. -/
theorem sign {text : String} (htext : text ∈ ["*", "&"])
    (hnext : (charsOf ps ++ rest).head?.all (fun c => !(['*', '&', '.'].contains c)) = true)
    (h : Cuts rest (text.toList.getLastD previous) ps) :
    Cuts rest previous (.mark text :: ps) := by
  have hne {c : Char} (hc : c ∈ ['*', '&', '.']) : ((charsOf ps ++ rest).head? == some c) = false := by
    refine beq_false_of_ne fun heq => ?_
    rw [heq] at hnext
    simp_all
  simp only [List.mem_cons, List.not_mem_nil, or_false] at htext
  obtain rfl | rfl := htext
  · refine .token (c := '*') rfl (gapLength_of_notMem (by decide) _) ?_ (by decide) h
    rw [List.nil_append, lexeme, hne (by decide)]
    rfl
  · refine .token (c := '&') rfl (gapLength_of_notMem (by decide) _) ?_ (by decide) h
    rw [List.nil_append, lexeme, hne (by decide), hne (by decide)]
    rfl

theorem dot (hnext : (charsOf ps ++ rest).head? ≠ some '.') (h : Cuts rest '.' ps) :
    Cuts rest previous (.mark "." :: ps) :=
  .token rfl (gapLength_of_notMem (by decide) _) (if_neg (by simpa using hnext)) (by decide) h

end Cuts

end StubMerge
