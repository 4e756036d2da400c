import StubMerge.Text.Blank
import StubMerge.Text.Split
import StubMerge.Proofs.Rows

/-!
# Names cut out of texts

Symbols, type parameters, options and comments are kept as text while they are read, and what
belongs to a declaration is then cut out of it. The lemmas here say that this gives back what
printing put there.
-/

namespace StubMerge

namespace Text

theorem after?_append (start text : String) : after? start (start ++ text) = some text := by
  rw [after?, String.toList_append, List.isPrefixOf?_eq_some_iff_append_eq.2 rfl]
  simp

theorem afterOrAll_append (start text : String) : afterOrAll start (start ++ text) = text := by
  rw [afterOrAll, after?_append, Option.getD_some]

theorem trimEndWhere_of_forall {p : Char → Bool} {text : String}
    (h : ∀ c ∈ text.toList, p c = false) : trimEndWhere p text = text := by
  have hdrop : text.toList.reverse.dropWhile p = text.toList.reverse := by
    cases hchars : text.toList.reverse with
    | nil => rfl
    | cons c cs =>
      have hc : c ∈ text.toList := List.mem_reverse.1 (by simp [hchars])
      simp [h c hc]
  rw [trimEndWhere, hdrop, List.reverse_reverse, String.ofList_toList]

theorem trimEndWhere_append {p : Char → Bool} {text suffix : String}
    (htext : ∀ c ∈ text.toList, p c = false) (hsuffix : ∀ c ∈ suffix.toList, p c = true) :
    trimEndWhere p (text ++ suffix) = text := by
  have hdrop : (text ++ suffix).toList.reverse.dropWhile p = text.toList.reverse.dropWhile p := by
    rw [String.toList_append, List.reverse_append, List.dropWhile_append_of_pos (by simpa using hsuffix)]
  rw [trimEndWhere, hdrop]
  exact trimEndWhere_of_forall htext

theorem trimWhere_of_forall {p : Char → Bool} {text : String}
    (h : ∀ c ∈ text.toList, p c = false) : trimWhere p text = text := by
  have hdrop : text.toList.dropWhile p = text.toList := by
    cases hchars : text.toList with
    | nil => rfl
    | cons c cs => simp [h c (by simp [hchars])]
  rw [trimWhere, hdrop, String.ofList_toList, trimEndWhere_of_forall h]

theorem trim_blank_append (text : String) : trim (" " ++ text) = trim text := by
  have hblank : isBlank ' ' = true := by decide
  simp [trim, trimWhere, hblank]

theorem splitChars_of_notMem {separator : Char} {cs : List Char} (h : separator ∉ cs) :
    splitChars separator cs = [cs] := by
  induction cs with
  | nil => rfl
  | cons c cs ih =>
    rw [List.mem_cons, not_or] at h
    have hc : (c == separator) = false := beq_false_of_ne (Ne.symm h.1)
    simp [splitChars, hc, ih h.2]

theorem splitChars_append_cons {separator : Char} {cs : List Char} (h : separator ∉ cs)
    (ds : List Char) :
    splitChars separator (cs ++ separator :: ds) = cs :: splitChars separator ds := by
  induction cs with
  | nil => simp [splitChars]
  | cons c cs ih =>
    rw [List.mem_cons, not_or] at h
    have hc : (c == separator) = false := beq_false_of_ne (Ne.symm h.1)
    simp [splitChars, hc, ih h.2]

/-- Texts with commas and blanks between them fall apart at the commas. -/
theorem split_commaSeparated {text : String} {texts : List String}
    (h : ∀ t ∈ text :: texts, ',' ∉ t.toList) :
    split ',' (Signature.commaSeparated (text :: texts)) = text :: texts.map (" " ++ ·) := by
  have hchars : splitChars ',' (Signature.commaSeparated (text :: texts)).toList
      = text.toList :: texts.map fun t => ' ' :: t.toList := by
    induction texts generalizing text with
    | nil => simpa [Signature.commaSeparated] using splitChars_of_notMem (h text (by simp))
    | cons next texts ih =>
      have hnext := ih fun t ht => h t (List.mem_cons_of_mem _ ht)
      rw [Signature.commaSeparated, String.intercalate_cons_cons, ← Signature.commaSeparated]
      have hsplit := splitChars_append_cons (h text (by simp))
        (' ' :: (Signature.commaSeparated (next :: texts)).toList)
      simp only [splitChars, hnext] at hsplit
      simpa using hsplit
  simp [split, hchars]

end Text

/-! ## Identifiers -/

theorem isBlank_of_isIdentifierRest {c : Char} (h : isIdentifierRest c = true) :
    Text.isBlank c = false := by
  have hn : c.toNat = 95 ∨ (48 ≤ c.toNat ∧ c.toNat ≤ 57) ∨ (65 ≤ c.toNat ∧ c.toNat ≤ 90)
      ∨ (97 ≤ c.toNat ∧ c.toNat ≤ 122) := by
    simp only [isIdentifierRest, Char.isAlphanum, Bool.or_eq_true, beq_iff_eq, isAlpha_iff] at h
    obtain (h | h) | rfl := h
    · exact .inr (.inr h)
    · exact .inr (.inl (Char.isDigit_iff_toNat.1 h))
    · exact .inl rfl
  simp only [Text.isBlank, Bool.or_eq_false_iff, Bool.and_eq_false_iff, decide_eq_false_iff_not,
    beq_eq_false_iff_ne]
  omega

theorem isIdentifierRest_of_mem {text : String} (h : isIdentifier text = true) {c : Char}
    (hc : c ∈ text.toList) : isIdentifierRest c = true := by
  obtain ⟨d, cs, hcs, hstart, hrest⟩ := exists_cons_of_isIdentifier h
  rw [hcs] at hc
  obtain rfl | hc := List.mem_cons.1 hc
  · exact isIdentifierRest_of_start hstart
  · exact List.all_eq_true.1 hrest c hc

theorem symbolName_colon {name : String} (h : isIdentifier name = true) :
    symbolName (":" ++ name) = name := by
  rw [symbolName, Text.afterOrAll_append]
  refine Text.trimWhere_of_forall fun c hc => ?_
  have hrest := isIdentifierRest_of_mem h hc
  refine Bool.eq_false_iff.2 fun hquote => ?_
  obtain rfl | rfl : c = '"' ∨ c = '\'' := by simpa using hquote
  all_goals exact absurd hrest (by decide)

theorem trim_colon {name : String} (h : isIdentifier name = true) :
    Text.trim (":" ++ name) = ":" ++ name := by
  refine Text.trimWhere_of_forall fun c hc => ?_
  obtain rfl | hc : c = ':' ∨ c ∈ name.toList := by simpa using hc
  · decide
  · exact isBlank_of_isIdentifierRest (isIdentifierRest_of_mem h hc)

/-- The names of type parameters are found between the commas. -/
theorem typeParameters_commaSeparated {name : String} {names : List String}
    (h : (name :: names).all isIdentifier = true) :
    (Text.split ',' (Signature.commaSeparated ((name :: names).map (":" ++ ·)))).map
      (fun text => symbolName (Text.trim text)) = name :: names := by
  have hall := List.all_eq_true.1 h
  have hcomma : ∀ t ∈ (":" ++ name) :: names.map (":" ++ ·), ',' ∉ t.toList := by
    rw [← List.map_cons (f := (":" ++ ·)), List.forall_mem_map]
    intro n hn hmem
    obtain hmem : ',' ∈ n.toList := by simpa using hmem
    exact absurd (isIdentifierRest_of_mem (hall n hn) hmem) (by decide)
  rw [List.map_cons, Text.split_commaSeparated hcomma]
  simp only [List.map_cons, List.map_map, trim_colon (hall name (by simp)),
    symbolName_colon (hall name (by simp)), List.cons.injEq, true_and]
  refine (List.map_congr_left fun n hn => ?_).trans (List.map_id names)
  have hn := hall n (List.mem_cons_of_mem _ hn)
  simp only [Function.comp_apply, Text.trim_blank_append, trim_colon hn, symbolName_colon hn, id]

end StubMerge
