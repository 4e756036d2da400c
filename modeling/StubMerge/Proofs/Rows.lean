import Mathlib.Data.List.Forall2
import StubMerge.Proofs.Words
import StubMerge.Token.Layout
import StubMerge.Declaration.Print

/-!
# Rows of pieces within a line

A `PieceRow` is a text in pieces that can stand between a blank or an opening parenthesis and a
delimiter in the same line; a `LineRow` can also end the line. Its brackets match and it has no
line breaks and no comments, so that the layout leaves none of its tokens out. Rows can be listed
with commas between them.
-/

namespace StubMerge

/-- The kinds of tokens that stand for something wherever they are. -/
def TokenKind.isQuiet : TokenKind → Bool
  | .newline | .comment => false
  | _ => true

@[simp] theorem isQuiet_identifierKind (text : String) : (identifierKind text).isQuiet = true := by
  unfold identifierKind wordKind
  split_ifs <;> rfl

@[simp] theorem depthAfter_identifierKind (n : Nat) (text : String) :
    depthAfter n (identifierKind text) = n := by
  unfold identifierKind wordKind
  split_ifs <;> rfl

@[simp] theorem wantsMore_identifierKind (text : String) : (identifierKind text).wantsMore = false := by
  unfold identifierKind wordKind
  split_ifs <;> rfl

/-- The marks other than brackets. -/
theorem depthAfter_markKind {text : String}
    (h : text ∉ ["(", ")", "\x7b", "\x7d"]) (n : Nat) : depthAfter n (markKind text) = n := by
  revert h
  unfold markKind
  split <;> simp [depthAfter, TokenKind.opensGroup, TokenKind.closesGroup]

theorem isQuiet_markKind {text : String} (h : text ≠ "\n") : (markKind text).isQuiet = true := by
  revert h
  unfold markKind
  split <;> simp [TokenKind.isQuiet]

section Pieces

variable (text : String) (ps : List Piece)

@[simp] theorem charsOf_word : charsOf (.word text :: ps) = text.toList ++ charsOf ps := rfl

@[simp] theorem charsOf_mark : charsOf (.mark text :: ps) = text.toList ++ charsOf ps := rfl

@[simp] theorem charsOf_blank : charsOf (.blank :: ps) = ' ' :: charsOf ps := rfl

@[simp] theorem charsOf_symbol : charsOf (.symbol text :: ps) = ':' :: (text.toList ++ charsOf ps) := by
  simp [Piece.symbol]

@[simp] theorem kindsOf_word : kindsOf (.word text :: ps) = identifierKind text :: kindsOf ps := rfl

@[simp] theorem kindsOf_mark : kindsOf (.mark text :: ps) = markKind text :: kindsOf ps := rfl

@[simp] theorem kindsOf_blank : kindsOf (.blank :: ps) = kindsOf ps := rfl

@[simp] theorem kindsOf_symbol : kindsOf (.symbol text :: ps) = .symbol :: kindsOf ps := rfl

@[simp] theorem nextKind_word : nextKind (.word text :: ps) = identifierKind text := rfl

@[simp] theorem nextKind_mark : nextKind (.mark text :: ps) = markKind text := rfl

@[simp] theorem nextKind_blank : nextKind (.blank :: ps) = nextKind ps := rfl

@[simp] theorem nextKind_symbol : nextKind (.symbol text :: ps) = .symbol := rfl

end Pieces

/-- Pieces that the scanner cuts in front of a delimiter in the same line, and that matter to
statements. -/
structure PieceRow (text : String) (ps : List Piece) : Prop where
  /-- They are the pieces of the text. -/
  chars : charsOf ps = text.toList
  /-- The scanner cuts them in front of a delimiter that does not break the line. -/
  cuts : ∀ {previous d : Char} {ds : List Char}, endsValue previous = false → d ∈ delimiters →
    d ≠ '\n' → Cuts (d :: ds) previous ps
  /-- They are in one line and without comments. -/
  quiet : (kindsOf ps).all TokenKind.isQuiet = true
  /-- Their brackets match. -/
  level : ∀ n, (kindsOf ps).foldl depthAfter n = n

/-- A row that can end a line. -/
structure LineRow (text : String) (ps : List Piece) : Prop extends PieceRow text ps where
  /-- The scanner cuts the pieces in front of a line break. -/
  cutsLine : ∀ {previous : Char} {ds : List Char}, endsValue previous = false →
    Cuts ('\n' :: ds) previous ps
  /-- There is a last token, and it does not want more. -/
  settled : (kindsOf ps).getLast?.any (fun k => !k.wantsMore) = true

/-- Pieces that can stand between two rows: they start with a delimiter, and the scanner cuts them
whatever is around them. -/
structure Joint (text : String) (ps : List Piece) : Prop where
  chars : charsOf ps = text.toList
  cuts : ∀ {rest : List Char} {previous : Char}, Cuts rest previous ps
  starts : ∃ d ds, charsOf ps = d :: ds ∧ d ∈ delimiters ∧ d ≠ '\n'
  ends : ∀ previous, endsValue (lastOf previous ps) = false
  quiet : (kindsOf ps).all TokenKind.isQuiet = true
  level : ∀ n, (kindsOf ps).foldl depthAfter n = n

namespace Joint

theorem blank : Joint " " [.blank] :=
  ⟨rfl, .blank .nil, ⟨' ', [], rfl, by decide⟩, fun _ => rfl, rfl, fun _ => rfl⟩

theorem comma : Joint ", " [.mark ",", .blank] :=
  ⟨rfl, .mark (by decide) (.blank .nil), ⟨',', [' '], rfl, by decide⟩, fun _ => rfl, rfl,
    fun _ => rfl⟩

theorem semicolon : Joint "; " [.mark ";", .blank] :=
  ⟨rfl, .mark (by decide) (.blank .nil), ⟨';', [' '], rfl, by decide⟩, fun _ => rfl, rfl,
    fun _ => rfl⟩

theorem equals : Joint " = " [.blank, .mark "=", .blank] :=
  ⟨rfl, .blank (.separator (by decide) rfl (.blank .nil)), ⟨' ', ['=', ' '], rfl, by decide⟩,
    fun _ => rfl, rfl, fun _ => rfl⟩

theorem less : Joint " < " [.blank, .mark "<", .blank] :=
  ⟨rfl, .blank (.separator (by decide) rfl (.blank .nil)), ⟨' ', ['<', ' '], rfl, by decide⟩,
    fun _ => rfl, rfl, fun _ => rfl⟩

end Joint

/-- Rows with a comma and a blank between them. -/
def commaRow (pss : List (List Piece)) : List Piece :=
  [Piece.mark ",", Piece.blank].intercalate pss

theorem commaRow_cons_cons (ps qs : List Piece) (pss : List (List Piece)) :
    commaRow (ps :: qs :: pss) = ps ++ ([.mark ",", .blank] ++ commaRow (qs :: pss)) := by
  simp [commaRow, List.intercalate_cons_cons]

@[simp] theorem commaRow_singleton (ps : List Piece) : commaRow [ps] = ps := by
  simp [commaRow]

theorem commaRow_cons (ps : List Piece) (pss : List (List Piece)) :
    ∃ qs, commaRow (ps :: pss) = ps ++ qs := by
  cases pss with
  | nil => exact ⟨[], by simp⟩
  | cons qs pss => exact ⟨_, commaRow_cons_cons ps qs pss⟩

namespace PieceRow

variable {text other between : String} {ps qs js : List Piece}

theorem nil : PieceRow "" [] := ⟨rfl, fun _ _ _ => .nil, rfl, fun _ => rfl⟩

theorem word (htext : isIdentifier text = true) : PieceRow text [.word text] where
  chars := by simp
  cuts _ hd _ := .word htext (endsName_of_meetsDelimiter (by simpa [meetsDelimiter] using hd))
    fun _ => .nil
  quiet := by simp
  level := by simp

theorem symbol (hname : isIdentifier text = true) : PieceRow (":" ++ text) [.symbol text] where
  chars := by simp
  cuts hprevious hd _ := .symbol hname hprevious (by simpa [meetsDelimiter] using hd) fun _ => .nil
  quiet := rfl
  level _ := rfl

theorem join (hp : PieceRow text ps) (hj : Joint between js) (hq : PieceRow other qs) :
    PieceRow (text ++ between ++ other) (ps ++ (js ++ qs)) where
  chars := by simp [hp.chars, hj.chars, hq.chars]
  cuts hprevious hd hbreak := by
    obtain ⟨e, es, hes, he, hne⟩ := hj.starts
    refine .append ?_ (.append hj.cuts (hq.cuts (hj.ends _) hd hbreak))
    simpa [hes] using hp.cuts hprevious he hne
  quiet := by simp only [kindsOf_append, List.all_append, hp.quiet, hj.quiet, hq.quiet, Bool.and_self]
  level n := by simp only [kindsOf_append, List.foldl_append, hp.level, hj.level, hq.level]

/-- A name with a colon, and what belongs to it. -/
theorem keyword (hname : isIdentifier text = true) (h : PieceRow other ps) :
    PieceRow (text ++ ": " ++ other) (.word text :: .mark ":" :: .blank :: ps) where
  chars := by simp [h.chars]
  cuts _ hd hbreak := .word hname rfl
    fun _ => .separator (by decide) rfl (.blank (h.cuts rfl hd hbreak))
  quiet := by simp [h.quiet, isQuiet_markKind]
  level n := by simp [h.level, depthAfter_markKind]

theorem list {texts : List String} {pss : List (List Piece)} (h : List.Forall₂ PieceRow texts pss) :
    PieceRow (Signature.commaSeparated texts) (commaRow pss) := by
  induction h with
  | nil => exact nil
  | @cons text ps texts pss hp htexts ih =>
    cases htexts with
    | nil => simpa [Signature.commaSeparated] using hp
    | cons hq hrest =>
      rw [Signature.commaSeparated, String.intercalate_cons_cons, commaRow_cons_cons]
      exact hp.join .comma ih

end PieceRow

namespace LineRow

variable {text other between : String} {ps qs js : List Piece}

theorem word (htext : isIdentifier text = true) : LineRow text [.word text] where
  toPieceRow := .word htext
  cutsLine _ := .word htext rfl fun _ => .nil
  settled := by simp

theorem symbol (hname : isIdentifier text = true) : LineRow (":" ++ text) [.symbol text] where
  toPieceRow := .symbol hname
  cutsLine hprevious := .symbol hname hprevious rfl fun _ => .nil
  settled := rfl

/-- What ends a row also ends a longer one. -/
theorem settled_append {ks : List TokenKind} {p : TokenKind → Bool}
    (h : ks.getLast?.any p = true) (before : List TokenKind) :
    (before ++ ks).getLast?.any p = true := by
  rw [List.getLast?_append]
  cases hks : ks.getLast? with
  | none => simp [hks] at h
  | some k => simpa [hks] using h

theorem join (hp : PieceRow text ps) (hj : Joint between js) (hq : LineRow other qs) :
    LineRow (text ++ between ++ other) (ps ++ (js ++ qs)) where
  toPieceRow := hp.join hj hq.toPieceRow
  cutsLine hprevious := by
    obtain ⟨e, es, hes, he, hne⟩ := hj.starts
    refine .append ?_ (.append hj.cuts (hq.cutsLine (hj.ends _)))
    simpa [hes] using hp.cuts hprevious he hne
  settled := by
    rw [kindsOf_append, kindsOf_append]
    exact settled_append (settled_append hq.settled _) _

theorem keyword (hname : isIdentifier text = true) (h : LineRow other ps) :
    LineRow (text ++ ": " ++ other) (.word text :: .mark ":" :: .blank :: ps) where
  toPieceRow := .keyword hname h.toPieceRow
  cutsLine _ := .word hname rfl fun _ => .separator (by decide) rfl (.blank (h.cutsLine rfl))
  settled := settled_append h.settled [identifierKind text, markKind ":"]

theorem list {texts : List String} {pss : List (List Piece)} {text : String} {ps : List Piece}
    (h : List.Forall₂ PieceRow texts pss) (hlast : LineRow text ps) :
    LineRow (Signature.commaSeparated (texts ++ [text])) (commaRow (pss ++ [ps])) := by
  induction h with
  | nil => simpa [Signature.commaSeparated] using hlast
  | @cons first qs texts pss hq htexts ih =>
    cases htexts with
    | nil =>
      rw [Signature.commaSeparated, List.singleton_append, String.intercalate_cons_cons,
        List.singleton_append, commaRow_cons_cons]
      exact join hq .comma ih
    | cons hr hrest =>
      simp only [List.cons_append] at ih ⊢
      rw [Signature.commaSeparated, String.intercalate_cons_cons, commaRow_cons_cons]
      exact join hq .comma ih

theorem symbols {name : String} {names : List String}
    (h : (name :: names).all isIdentifier = true) :
    LineRow (Signature.commaSeparated ((name :: names).map (":" ++ ·)))
      (commaRow ((name :: names).map fun name => [.symbol name])) := by
  induction names generalizing name with
  | nil =>
    rw [List.all_cons, Bool.and_eq_true] at h
    simpa [Signature.commaSeparated] using symbol h.1
  | cons next names ih =>
    rw [List.all_cons, Bool.and_eq_true] at h
    have hmore := ih h.2
    simp only [List.map_cons] at hmore ⊢
    rw [Signature.commaSeparated, String.intercalate_cons_cons, commaRow_cons_cons]
    exact join (.symbol h.1) .comma hmore

/-- A row and another behind it in parentheses. -/
theorem parens (hp : PieceRow text ps) (hq : PieceRow other qs) :
    LineRow (text ++ "(" ++ other ++ ")") (ps ++ .mark "(" :: (qs ++ [.mark ")"])) where
  chars := by simp [hp.chars, hq.chars]
  cuts hprevious hd hbreak := (hp.cuts hprevious (by decide) (by decide)).append
    (.mark (by decide) ((hq.cuts rfl (by decide) (by decide)).append (.mark (by decide) .nil)))
  cutsLine hprevious := (hp.cuts hprevious (by decide) (by decide)).append
    (.mark (by decide) ((hq.cuts rfl (by decide) (by decide)).append (.mark (by decide) .nil)))
  quiet := by simp [hp.quiet, hq.quiet, isQuiet_markKind]
  level n := by
    simp [hp.level, hq.level, markKind, depthAfter, TokenKind.opensGroup, TokenKind.closesGroup]
  settled := by simp [List.getLast?_cons, markKind, TokenKind.wantsMore]

/-- A row in braces. -/
theorem braces (h : PieceRow text ps) :
    LineRow ("\x7b " ++ text ++ " \x7d") (.mark "\x7b" :: .blank :: (ps ++ [.blank, .mark "\x7d"])) where
  chars := by simp [h.chars]
  cuts _ _ _ := .mark (by decide) (.blank ((h.cuts rfl (by decide) (by decide)).append
    (.blank (.mark (by decide) .nil))))
  cutsLine _ := .mark (by decide) (.blank ((h.cuts rfl (by decide) (by decide)).append
    (.blank (.mark (by decide) .nil))))
  quiet := by simp [h.quiet, isQuiet_markKind]
  level n := by
    simp [h.level, markKind, depthAfter, TokenKind.opensGroup, TokenKind.closesGroup]
  settled := by simp [List.getLast?_cons, markKind, TokenKind.wantsMore]

end LineRow

/-- Rows with commas between them in parentheses; nothing if there are none. -/
def argumentPieces (pss : List (List Piece)) : List Piece :=
  if pss.isEmpty then [] else .mark "(" :: (commaRow pss ++ [.mark ")"])

theorem PieceRow.argumentList {text : String} {ps : List Piece} {texts : List String}
    {pss : List (List Piece)} (h : PieceRow text ps) (hargs : List.Forall₂ PieceRow texts pss) :
    PieceRow (text ++ Print.argumentList texts) (ps ++ argumentPieces pss) := by
  have hrow := LineRow.parens h (.list hargs)
  cases hargs with
  | nil => simpa [Print.argumentList, argumentPieces] using h
  | cons => simpa [Print.argumentList, argumentPieces, String.append_assoc] using hrow.toPieceRow

theorem LineRow.argumentList {text : String} {ps : List Piece} {texts : List String}
    {pss : List (List Piece)} (h : LineRow text ps) (hargs : List.Forall₂ PieceRow texts pss) :
    LineRow (text ++ Print.argumentList texts) (ps ++ argumentPieces pss) := by
  have hrow := LineRow.parens h.toPieceRow (.list hargs)
  cases hargs with
  | nil => simpa [Print.argumentList, argumentPieces] using h
  | cons => simpa [Print.argumentList, argumentPieces, String.append_assoc] using hrow

end StubMerge
