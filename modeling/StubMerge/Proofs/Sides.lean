import StubMerge.Proofs.Markers
import StubMerge.Proofs.Outcome
import StubMerge.Proofs.Rereading
import StubMerge.Proofs.Tidiness

/-!
# Markers and resolving agree

There are two ways to settle the conflicts of a merge to one side. One works on the tree, before it
is printed: `Forest.resolve`. The other works on the printed text, by keeping the lines of that side
between all markers: `keepSide`. Here they are shown to agree. What is left of the text is read,
without a report, as the outline of the tree that was resolved.

The proof goes over the tree that was merged. `KeptAs side within lines os` says of the lines of a
part of it that one side leaves lines which are read as the outlines `os`, and `keptAs_tree` is an
induction with one case for each kind of node: the lines of a conflict between groups are the two
bodies between markers, those of a conflict between headers are the two headers between markers and
then the body that they share.
-/

namespace StubMerge

/-! ## Plain lines -/

/-- Whether a line is a single one, and no marker. -/
def isPlainLine (line : String) : Bool := isOneLine line && (marker? line).isNone

theorem isPlainLine_iff {line : String} :
    isPlainLine line = true ↔ isOneLine line = true ∧ marker? line = none := by
  rw [isPlainLine, Bool.and_eq_true, Option.isNone_iff_eq_none]

theorem isOneLine_append (text more : String) :
    isOneLine (text ++ more) = (isOneLine text && isOneLine more) := by
  simp [isOneLine, Bool.not_or]

theorem isOneLine_line (n : Nat) (text : String) :
    isOneLine (Print.line n text) = isOneLine text := by
  have hblanks : isOneLine (String.ofList (List.replicate (2 * n) ' ')) = true := by
    simp [isOneLine]
  rw [Print.line, isOneLine_append, hblanks, Bool.true_and]

/-- A line is plain if its text is. -/
theorem isPlainLine_line (n : Nat) (text : String) :
    isPlainLine (Print.line n text) = isPlainLine text := by
  rw [isPlainLine, isPlainLine, isOneLine_line, marker?_line]

/-- Whether a text starts as no marker does, also behind blanks. -/
def startsPlain (text : String) : Bool :=
  text.toList.head?.all fun c => c != ' ' && c != '<' && c != '=' && c != '>'

theorem isPlainLine_of_startsPlain {text : String} (h : isOneLine text = true)
    (hstart : startsPlain text = true) : isPlainLine text = true :=
  isPlainLine_iff.2 ⟨h, marker?_eq_none hstart⟩

theorem startsPlain_identifier {text : String} (h : isIdentifier text = true) (more : String) :
    startsPlain (text ++ more) = true := by
  obtain ⟨c, cs, hcs, hc, -⟩ := exists_cons_of_isIdentifier h
  have hne : ∀ d ∈ [' ', '<', '=', '>'], c ≠ d := by
    rintro d hd rfl
    simp only [List.mem_cons, List.not_mem_nil, or_false] at hd
    rcases hd with rfl | rfl | rfl | rfl <;> cases hc
  simp [startsPlain, hcs, hne ' ', hne '<', hne '=', hne '>']

/-- The word of a call is a name, and those do not start like markers. -/
theorem startsPlain_callWord {word : String} (h : isCallWord word = true) (more : String) :
    startsPlain (word ++ more) = true := by
  have hcuts : Cuts ['\n'] '\x00' [.token .name word] := (exists_callWord h).cutsLine rfl
  cases hcuts with
  | @token _ c cs _ _ _ htext hgap hlex _ _ =>
    have hne : ∀ d ∈ [' ', '<', '=', '>'], c ≠ d := by
      rintro d hd rfl
      simp only [List.mem_cons, List.not_mem_nil, or_false] at hd
      rcases hd with rfl | rfl | rfl | rfl
      · simp [gapLength] at hgap
      · simp only [lexeme] at hlex
        split at hlex
        · cases hlex
        · split at hlex <;> cases hlex
      · simp only [lexeme] at hlex
        split at hlex
        · cases hlex
        · split at hlex <;> cases hlex
      · cases hlex
    simp [startsPlain, htext, hne ' ', hne '<', hne '=', hne '>']

/-! ## Lines of declarations -/

theorem isPlainLine_comment {text : String} (h : isCommentLine text = true) (n : Nat) :
    isPlainLine (Print.comment n text) = true := by
  simp only [isCommentLine, Bool.and_eq_true] at h
  have hline : isOneLine text = true := h.1
  rw [Print.comment, isPlainLine_line]
  split
  · decide
  · exact isPlainLine_of_startsPlain (by rw [isOneLine_append, hline]; rfl) (by simp [startsPlain])

theorem isPlainLine_end (n : Nat) : isPlainLine (Print.line n "end") = true := by
  rw [isPlainLine_line]
  decide

theorem all_isPlainLine_comments {comments : List String} (h : comments.all isCommentLine = true)
    (n : Nat) : (comments.map (Print.comment n)).all isPlainLine = true := by
  rw [List.all_map, List.all_eq_true]
  intro text htext
  exact isPlainLine_comment (List.all_eq_true.1 h text htext) n

/-- The header of a scope does not start like a marker. -/
theorem startsPlain_header {s : Scope} (h : s.isPrintable false = true) (more : String) :
    startsPlain (Print.header s ++ more) = true := by
  cases s with
  | moduleOf name => simp [Print.header, startsPlain]
  | classOf name superclass => cases superclass <;> simp [Print.header, startsPlain]
  | structOf name members keywordInit =>
    simp only [Scope.isPrintable, Bool.and_eq_true] at h
    rw [Print.header, String.append_assoc, String.append_assoc]
    exact startsPlain_identifier (isIdentifier_of_isConstant h.1) _
  | singleton => simp [Print.header, startsPlain]

section

variable {s : Scope}

theorem isPlainLine_headerText (h : (Kind.scope s).isTidy = true) {more : String}
    (hmore : isOneLine more = true) : isPlainLine (Print.header s ++ more) = true := by
  simp only [Kind.isTidy, Bool.and_eq_true] at h
  apply isPlainLine_of_startsPlain
  · rw [isOneLine_append, h.2, hmore]
    rfl
  · exact startsPlain_header h.1.2 more

theorem isPlainLine_header (h : (Kind.scope s).isTidy = true) :
    isPlainLine (Print.header s) = true := by
  have hempty : isOneLine "" = true := rfl
  simpa using isPlainLine_headerText h hempty

theorem isPlainLine_openingHeader (h : (Kind.scope s).isTidy = true) (n : Nat) :
    isPlainLine (Print.line n (Print.openingHeader s)) = true := by
  rw [isPlainLine_line]
  cases s with
  | structOf => exact isPlainLine_headerText h (by decide)
  | _ => exact isPlainLine_header h

theorem isPlainLine_closedHeader (h : (Kind.scope s).isTidy = true) (n : Nat) :
    isPlainLine (Print.line n (Print.closedHeader s)) = true := by
  rw [isPlainLine_line]
  cases s with
  | structOf => exact isPlainLine_header h
  | _ => exact isPlainLine_headerText h (by decide)

end

/-- Whether the lines of a leaf are single ones does not depend on the level. -/
theorem all_isOneLine_leaf (n : Nat) (l : Leaf) :
    (Print.leaf n l).all isOneLine = (Print.leaf 0 l).all isOneLine := by
  cases l <;> simp [Print.leaf, isOneLine_line, Function.comp_def]

/-- The lines of a leaf are no markers. -/
theorem marker?_leaf {l : Leaf} (h : l.isPrintable = true) (n : Nat) :
    ∀ line ∈ Print.leaf n l, marker? line = none := by
  have hline : ∀ {text : String}, startsPlain text = true → marker? (Print.line n text) = none :=
    fun hstart => (marker?_line n _).trans (marker?_eq_none hstart)
  have hsig : ∀ sig : Signature, marker? (Print.line n sig.text) = none :=
    fun sig => hline (by simp [Signature.text, startsPlain])
  cases l with
  | const name value =>
    simp only [Leaf.isPrintable, Bool.and_eq_true] at h
    have hname := isIdentifier_of_isConstant h.1.1.1.1
    simp only [Print.leaf, List.mem_singleton, forall_eq, String.append_assoc]
    exact hline (startsPlain_identifier hname _)
  | typeMember name value =>
    simp only [Leaf.isPrintable, Bool.and_eq_true] at h
    have hname := isIdentifier_of_isConstant h.1.1
    simp only [Print.leaf, List.mem_singleton, forall_eq, String.append_assoc]
    exact hline (startsPlain_identifier hname _)
  | method m =>
    simp only [Print.leaf, List.forall_mem_append, List.forall_mem_map, List.mem_singleton,
      forall_eq]
    refine ⟨fun sig _ => hsig sig, hline ?_⟩
    cases m.visibility <;> simp [Print.visibilityMark, Visibility.word, startsPlain]
  | attr a =>
    simp only [Print.leaf, List.forall_mem_append, List.forall_mem_map, List.mem_singleton,
      forall_eq]
    refine ⟨fun sig _ => hsig sig, hline ?_⟩
    cases a.visibility <;> cases a.kind <;>
      simp [Print.visibilityMark, Visibility.word, AttributeKind.word, startsPlain]
  | mixin kind names =>
    simp only [Print.leaf, List.mem_singleton, forall_eq]
    apply hline
    cases kind <;> simp [MixinKind.word, startsPlain]
  | helper name =>
    simp only [Leaf.isPrintable, isSmallIdentifier, Bool.and_eq_true] at h
    simp only [Print.leaf, List.mem_singleton, forall_eq]
    exact hline (startsPlain_identifier h.1 _)
  | requiresAncestor name =>
    simp only [Print.leaf, List.mem_singleton, forall_eq]
    exact hline (by simp [startsPlain])
  | send word args =>
    simp only [Leaf.isPrintable, Bool.and_eq_true] at h
    simp only [Print.leaf, List.mem_singleton, forall_eq, String.append_assoc]
    apply hline
    split
    · simpa using startsPlain_callWord h.1.1 ""
    · exact startsPlain_callWord h.1.1 _
  | field f =>
    simp only [Print.leaf, List.mem_singleton, forall_eq]
    apply hline
    cases f.kind <;> simp [FieldKind.word, startsPlain]
  | enums names =>
    simp only [Leaf.isPrintable, List.all_eq_true] at h
    simp only [Print.leaf, List.forall_mem_append, List.forall_mem_map, List.mem_singleton,
      forall_eq]
    refine ⟨⟨hline (by decide), fun name hname => ?_⟩, hline (by decide)⟩
    rw [marker?_line]
    exact marker?_eq_none (startsPlain_identifier (isIdentifier_of_isConstant (h name hname)) _)

theorem all_isPlainLine_leaf {l : Leaf} (h : (Kind.leaf l).isTidy = true) (n : Nat) :
    (Print.leaf n l).all isPlainLine = true := by
  simp only [Kind.isTidy, Bool.and_eq_true] at h
  have hlines : (Print.leaf n l).all isOneLine = true := (all_isOneLine_leaf n l).trans h.2
  rw [List.all_eq_true] at hlines ⊢
  intro line hmem
  exact isPlainLine_iff.2 ⟨hlines line hmem, marker?_leaf h.1.1 n line hmem⟩

/-! ## What one side leaves -/

/-- One side leaves lines that are read as outlines like `os`, and none of the lines breaks. -/
def KeptAs (side : Side) (within : Bool) (lines : List String) (os : List Outline) : Prop :=
  lines.all isOneLine = true ∧ ∃ kept, Marked side lines kept ∧ ReadAs within kept os

theorem Marked.of_plain {side : Side} {lines : List String} (h : lines.all isPlainLine = true) :
    Marked side lines lines := by
  rw [List.all_eq_true] at h
  exact .plain fun line hline => (isPlainLine_iff.1 (h line hline)).2

theorem all_isOneLine_of_plain {lines : List String} (h : lines.all isPlainLine = true) :
    lines.all isOneLine = true := by
  rw [List.all_eq_true] at h ⊢
  exact fun line hline => (isPlainLine_iff.1 (h line hline)).1

theorem ReadAs.of_false {within : Bool} {lines : List String} {os : List Outline}
    (h : ReadAs false lines os) : ReadAs within lines os := by
  obtain ⟨ps, hblock, hleads⟩ := h
  exact ⟨ps, hblock, fun d members b _ => hleads d members b (by simp)⟩

theorem isOneLine_leftMarker {labels : Labels} (h : labels.areSingleLine = true) (n : Nat) :
    isOneLine (Print.leftMarker n labels) = true := by
  rw [Labels.areSingleLine, Bool.and_eq_true] at h
  rw [Print.leftMarker, isOneLine_line, isOneLine_append, h.1]
  rfl

theorem isOneLine_middleMarker (n : Nat) : isOneLine (Print.middleMarker n) = true := by
  rw [Print.middleMarker, isOneLine_line]
  decide

theorem isOneLine_rightMarker {labels : Labels} (h : labels.areSingleLine = true) (n : Nat) :
    isOneLine (Print.rightMarker n labels) = true := by
  rw [Labels.areSingleLine, Bool.and_eq_true] at h
  rw [Print.rightMarker, isOneLine_line, isOneLine_append, h.2]
  rfl

theorem all_isPlainLine_sideHeader {e : Entry} {s : Scope} (he : e.isTidy = true)
    (hk : e.kind = .scope s) (es : List Outline) (n : Nat) :
    (Print.sideHeader {} n (some (.node e es))).all isPlainLine = true := by
  obtain ⟨hcomments, hkind⟩ := Entry.isTidy_iff.1 he
  rw [hk] at hkind
  simp only [Print.sideHeader, preamble_default, hk, Print.conflictHeader, List.all_append,
    all_isPlainLine_comments hcomments, isPlainLine_openingHeader hkind, List.all_cons,
    List.all_nil, Bool.and_self]

theorem readAs_opened {within : Bool} {e : Entry} {s : Scope} {cs : List Outline}
    {body : List String} (he : e.isTidy = true) (hk : e.kind = .scope s)
    (hbody : ReadAs false body cs) (es : List Outline) (n : Nat) :
    ReadAs within (Print.sideHeader {} n (some (.node e es)) ++ (body ++ [Print.line n "end"]))
      [.node e cs] := by
  obtain ⟨hcomments, hkind⟩ := Entry.isTidy_iff.1 he
  obtain ⟨kind, comments, location⟩ := e
  obtain rfl : kind = .scope s := hk
  simp only [Kind.isTidy, Bool.and_eq_true] at hkind
  simp only [Print.sideHeader, preamble_default, Print.conflictHeader, List.append_assoc]
  exact .commented hcomments (readBelow_opened hkind.1.2 hbody n comments location) n

namespace KeptAs

variable {side : Side} {within : Bool} {lines more : List String} {os ps : List Outline}

theorem nil : KeptAs side within [] [] := ⟨rfl, [], .nil, .nil⟩

/-- Lines without markers are all left. -/
theorem plain (hlines : lines.all isPlainLine = true) (h : ReadAs within lines os) :
    KeptAs side within lines os :=
  ⟨all_isOneLine_of_plain hlines, lines, .of_plain hlines, h⟩

theorem separated (h : KeptAs side true lines os) : KeptAs side true ("" :: lines) os := by
  obtain ⟨hlines, kept, hmarked, hread⟩ := h
  have hempty : marker? "" = none := by decide
  refine ⟨?_, "" :: kept, (Marked.line hempty).append hmarked, hread.separated⟩
  rw [List.all_cons, hlines]
  rfl

theorem append (h : KeptAs side within lines os) (hos : os ≠ [])
    (hmore : KeptAs side true more ps) : KeptAs side within (lines ++ more) (os ++ ps) := by
  obtain ⟨hlines, kept, hmarked, hread⟩ := h
  obtain ⟨hlines', kept', hmarked', hread'⟩ := hmore
  refine ⟨?_, kept ++ kept', hmarked.append hmarked', hread.append hos hread'⟩
  rw [List.all_append, hlines, hlines']
  rfl

/-- A conflict between groups: two bodies between markers. -/
theorem sides {labels : Labels} (hl : labels.areSingleLine = true) (n : Nat)
    (h : KeptAs side false lines os) (hmore : KeptAs side false more ps) :
    KeptAs side within (Print.leftMarker n labels :: lines
      ++ Print.middleMarker n :: more ++ [Print.rightMarker n labels]) (side.pick os ps) := by
  obtain ⟨hlines, kept, hmarked, hread⟩ := h
  obtain ⟨hlines', kept', hmarked', hread'⟩ := hmore
  refine ⟨?_, side.pick kept kept', ?_, ?_⟩
  · simp [isOneLine_leftMarker hl, isOneLine_middleMarker, isOneLine_rightMarker hl, hlines,
      hlines']
  · exact hmarked.sides hmarked' (marker?_leftMarker n labels) (marker?_middleMarker n)
      (marker?_rightMarker n labels)
  · cases side with
    | left => exact hread.of_false
    | right => exact hread'.of_false

section Scopes

variable {e d : Entry} {s s' : Scope} {es ds cs : List Outline} {body : List String}

/-- A header and the body below it. -/
theorem opened (he : e.isTidy = true) (hk : e.kind = .scope s) (h : KeptAs side false body cs)
    (n : Nat) :
    KeptAs side within (Print.sideHeader {} n (some (.node e es)) ++ (body ++ [Print.line n "end"]))
      [.node e cs] := by
  obtain ⟨hlines, kept, hmarked, hread⟩ := h
  have hheader := all_isPlainLine_sideHeader he hk es n
  obtain ⟨hend, hnone⟩ := isPlainLine_iff.1 (isPlainLine_end n)
  refine ⟨?_, Print.sideHeader {} n (some (.node e es)) ++ (kept ++ [Print.line n "end"]), ?_, ?_⟩
  · simp [hlines, hend, all_isOneLine_of_plain hheader]
  · exact (Marked.of_plain hheader).append (hmarked.append (.line hnone))
  · exact readAs_opened he hk hread es n

/-- A conflict between headers: two headers between markers, and the body below them. -/
theorem headers {labels : Labels} (hl : labels.areSingleLine = true) (he : e.isTidy = true)
    (hk : e.kind = .scope s) (hd : d.isTidy = true) (hk' : d.kind = .scope s')
    (h : KeptAs side false body cs) (n : Nat) :
    KeptAs side within (Print.leftMarker n labels :: Print.sideHeader {} n (some (.node e es))
      ++ Print.middleMarker n :: Print.sideHeader {} n (some (.node d ds))
      ++ Print.rightMarker n labels :: body ++ [Print.line n "end"])
      [.node (side.pick e d) cs] := by
  obtain ⟨hlines, kept, hmarked, hread⟩ := h
  have hheader := all_isPlainLine_sideHeader he hk es n
  have hheader' := all_isPlainLine_sideHeader hd hk' ds n
  obtain ⟨hend, hnone⟩ := isPlainLine_iff.1 (isPlainLine_end n)
  refine ⟨?_, side.pick (Print.sideHeader {} n (some (.node e es)))
    (Print.sideHeader {} n (some (.node d ds))) ++ (kept ++ [Print.line n "end"]), ?_, ?_⟩
  · simp [isOneLine_leftMarker hl, isOneLine_middleMarker, isOneLine_rightMarker hl, hlines, hend,
      all_isOneLine_of_plain hheader, all_isOneLine_of_plain hheader']
  · have hleft : Marked side _ _ := .of_plain hheader
    have hsides := hleft.sides (.of_plain hheader') (marker?_leftMarker n labels)
      (marker?_middleMarker n) (marker?_rightMarker n labels)
    simpa using hsides.append (hmarked.append (.line hnone))
  · cases side with
    | left => exact readAs_opened he hk hread es n
    | right => exact readAs_opened hd hk' hread ds n

end Scopes

end KeptAs

/-! ## Trees -/

namespace Tree

variable {side : Side}

/-- What one side leaves of the lines of a tree. -/
def KeptLines (side : Side) (t : Tree) : Prop :=
  t.settled side ≠ [] ∧ ∀ (n : Nat) (within : Bool),
    KeptAs side within (Print.lines {} n t.outline) (outlineAll (t.settled side))

theorem settledAll_ne_nil {cs : List Tree} (h : ∀ c ∈ cs, c.settled side ≠ []) (hne : cs ≠ []) :
    settledAll side cs ≠ [] := by
  cases cs with
  | nil => exact absurd rfl hne
  | cons c cs => simp [settledAll, h c]

/-- The lines of neighbours, of which a conflict may leave several. -/
theorem keptAs_body {cs : List Tree} (h : ∀ c ∈ cs, c.KeptLines side) (n : Nat)
    (previous : Option Bool) :
    KeptAs side previous.isSome (Print.body {} n previous (outlineAll cs))
      (outlineAll (settledAll side cs)) := by
  induction cs generalizing previous with
  | nil => exact .nil
  | cons c cs ih =>
    obtain ⟨hne, hc⟩ := h c (by simp)
    have hmore := ih (fun d hd => h d (by simp [hd])) (some (Print.isShort {} c.outline))
    have hall : outlineAll (settledAll side (c :: cs)) =
        outlineAll (c.settled side) ++ outlineAll (settledAll side cs) := by
      simp [settledAll, outlineAll_eq_map]
    have hlines := (hc n previous.isSome).append (by simpa [outlineAll_eq_map] using hne) hmore
    rw [hall, outlineAll, Print.body]
    cases previous with
    | none => exact hlines
    | some before =>
      rw [List.append_assoc]
      split
      · exact hlines.separated
      · exact hlines

section Kinds

variable {i : NodeId} {e : Entry} {cs : List Tree}

theorem keptLines_leaf {l : Leaf} (he : e.isTidy = true) (hk : e.kind = .leaf l) :
    (node i e []).KeptLines side := by
  have hsettled : (node i e []).settled side = [node i e []] :=
    settled_of_not_conflict (by rw [hk]; rfl)
  refine ⟨by simp [hsettled], fun n within => ?_⟩
  rw [hsettled]
  obtain ⟨hcomments, hkind⟩ := Entry.isTidy_iff.1 he
  obtain ⟨kind, comments, location⟩ := e
  obtain rfl : kind = .leaf l := hk
  have hlines : Print.lines {} n (node i ⟨.leaf l, comments, location⟩ []).outline =
      comments.map (Print.comment n) ++ Print.leaf n l := by
    simp only [outline, outlineAll, Print.lines, preamble_default]
  rw [hlines]
  apply KeptAs.plain
  · rw [List.all_append, all_isPlainLine_comments hcomments, all_isPlainLine_leaf hkind]
    rfl
  · simp only [Kind.isTidy, Bool.and_eq_true, Bool.not_eq_true'] at hkind
    exact .commented hcomments (readBelow_leaf hkind.1.1 hkind.1.2 n comments location) n

theorem keptLines_scope {s : Scope} (he : e.isTidy = true) (hk : e.kind = .scope s)
    (h : ∀ c ∈ cs, c.KeptLines side) : (node i e cs).KeptLines side := by
  have hsettled : (node i e cs).settled side = [node i e (settledAll side cs)] :=
    settled_of_not_conflict (by rw [hk]; rfl)
  refine ⟨by simp [hsettled], fun n within => ?_⟩
  rw [hsettled]
  cases cs with
  | nil =>
    obtain ⟨hcomments, hkind⟩ := Entry.isTidy_iff.1 he
    obtain ⟨kind, comments, location⟩ := e
    obtain rfl : kind = .scope s := hk
    have hlines : Print.lines {} n (node i ⟨.scope s, comments, location⟩ []).outline =
        comments.map (Print.comment n) ++ [Print.line n (Print.closedHeader s)] := by
      simp only [outline, outlineAll, Print.lines, preamble_default, List.isEmpty_nil, if_true]
    rw [hlines]
    apply KeptAs.plain
    · rw [List.all_append, all_isPlainLine_comments hcomments]
      simp [isPlainLine_closedHeader hkind]
    · simp only [Kind.isTidy, Bool.and_eq_true] at hkind
      exact .commented hcomments (readBelow_closed hkind.1.1 n comments location) n
  | cons c cs =>
    have hlines : Print.lines {} n (node i e (c :: cs)).outline =
        Print.sideHeader {} n (some (.node e [])) ++
          (Print.body {} (n + 1) none (outlineAll (c :: cs)) ++ [Print.line n "end"]) := by
      simp [outline, outlineAll, Print.lines, Print.sideHeader, hk, Print.conflictHeader]
    rw [hlines]
    exact .opened he hk (keptAs_body h (n + 1) none) n

/-- Both sides of a conflict between groups hold something. -/
theorem keptLines_conflict {labels : Labels} {a b : NodeId} {ea eb : Entry} {as bs : List Tree}
    (hl : labels.areSingleLine = true) (hk : e.kind = .conflict labels)
    (ha : ∀ c ∈ as, c.KeptLines side) (hb : ∀ c ∈ bs, c.KeptLines side) (has : as ≠ [])
    (hbs : bs ≠ []) : (node i e [node a ea as, node b eb bs]).KeptLines side := by
  rw [KeptLines, settled_conflict hk]
  refine ⟨?_, fun n within => ?_⟩
  · cases side with
    | left => exact settledAll_ne_nil (fun c hc => (ha c hc).1) has
    | right => exact settledAll_ne_nil (fun c hc => (hb c hc).1) hbs
  · have hlines : Print.lines {} n (node i e [node a ea as, node b eb bs]).outline =
        Print.leftMarker n labels :: Print.body {} n none (outlineAll as)
          ++ Print.middleMarker n :: Print.body {} n none (outlineAll bs)
          ++ [Print.rightMarker n labels] := by
      simp only [outline, outlineAll, Print.lines, hk, Print.firstBody, Print.secondBody]
    have hkept : KeptAs side within _ _ :=
      .sides hl n (keptAs_body ha n none) (keptAs_body hb n none)
    rw [hlines]
    cases side <;> exact hkept

/-- The right header of a conflict has no body of its own. -/
theorem keptLines_headers {labels : Labels} {a b : NodeId} {ea eb : Entry} {sa sb : Scope}
    {as : List Tree} (hl : labels.areSingleLine = true) (hk : e.kind = .scopeConflict labels)
    (hea : ea.isTidy = true) (heb : eb.isTidy = true) (hka : ea.kind = .scope sa)
    (hkb : eb.kind = .scope sb) (ha : ∀ c ∈ as, c.KeptLines side) :
    (node i e [node a ea as, node b eb []]).KeptLines side := by
  have hsettled : (node i e [node a ea as, node b eb []]).settled side =
      [node (side.pick a b) (side.pick ea eb) (settledAll side as)] := by
    rw [settled_headers hk (by rw [hka]; rfl) (by rw [hkb]; rfl)]
    cases side with
    | left => exact settled_of_not_conflict (by rw [hka]; rfl)
    | right => exact settled_of_not_conflict (by rw [hkb]; rfl)
  refine ⟨by simp [hsettled], fun n within => ?_⟩
  have hlines : Print.lines {} n (node i e [node a ea as, node b eb []]).outline =
      Print.leftMarker n labels :: Print.sideHeader {} n (some (.node ea (outlineAll as)))
        ++ Print.middleMarker n :: Print.sideHeader {} n (some (.node eb []))
        ++ Print.rightMarker n labels :: Print.body {} (n + 1) none (outlineAll as)
        ++ [Print.line n "end"] := by
    simp [outline, outlineAll, Print.lines, hk, Print.firstBody]
  rw [hsettled, hlines]
  exact .headers hl hea hka heb hkb (keptAs_body ha (n + 1) none) n

end Kinds

/-- What one side leaves of the lines of a tree is read as what resolving leaves of the tree. -/
theorem keptLines (side : Side) : ∀ t : Tree, t.Shaped → t.Tidy →
    (t.kind.isConflict = false → ∀ c ∈ t.children, c.KeptLines side) ∧
      (t.kind ≠ .group → t.KeptLines side) := by
  refine Tree.induct fun i e cs ih => ?_
  intro hshaped htidy
  have hbelow : ∀ c ∈ cs, (c.kind.isConflict = false → ∀ d ∈ c.children, d.KeptLines side) ∧
      (c.kind ≠ .group → c.KeptLines side) :=
    fun c hc => ih c hc (hshaped.of_mem hc) (htidy.of_mem hc)
  have hmembers : e.kind.isConflict = false → ∀ c ∈ cs, c.KeptLines side :=
    fun hconf c hc => (hbelow c hc).2 (htidy.ne_group hconf hc)
  refine ⟨hmembers, fun hgroup => ?_⟩
  have hkind := (Entry.isTidy_iff.1 htidy.entry).2
  have hat : ShapeAt e.kind cs := hshaped.at_top
  cases hk : e.kind with
  | group => exact absurd hk hgroup
  | leaf l =>
    rw [hk] at hat
    obtain rfl : cs = [] := hat
    exact keptLines_leaf htidy.entry hk
  | scope s => exact keptLines_scope htidy.entry hk (hmembers (by rw [hk]; rfl))
  | conflict labels =>
    rw [hk] at hat
    obtain ⟨⟨a, ea, as⟩, ⟨b, eb, bs⟩, rfl, ha, hb, has, hbs⟩ := hat
    have hl : labels.areSingleLine = true := by rwa [entry_node, hk] at hkind
    refine keptLines_conflict hl hk ?_ ?_ has hbs
    · exact (hbelow _ List.mem_cons_self).1 (by rw [ha]; rfl)
    · exact (hbelow _ (List.mem_cons_of_mem _ List.mem_cons_self)).1 (by rw [hb]; rfl)
  | scopeConflict labels =>
    rw [hk] at hat
    obtain ⟨⟨a, ea, as⟩, ⟨b, eb, bs⟩, sa, sb, rfl, ha, hb, -, hbs⟩ := hat
    obtain rfl : bs = [] := hbs
    have hl : labels.areSingleLine = true := by rwa [entry_node, hk] at hkind
    refine keptLines_headers hl hk ?_ ?_ ha hb ?_
    · exact (htidy.of_mem List.mem_cons_self).entry
    · exact (htidy.of_mem (List.mem_cons_of_mem _ List.mem_cons_self)).entry
    · exact (hbelow _ List.mem_cons_self).1 (by rw [ha]; rfl)

end Tree

/-! ## Files -/

/-- The comments of a file, and the empty line below them. -/
def topLines (comments : List String) : List String :=
  comments.map (Print.comment 0) ++ if comments.isEmpty then [] else [""]

theorem all_isPlainLine_topLines {comments : List String}
    (h : comments.all isCommentLine = true) : (topLines comments).all isPlainLine = true := by
  rw [topLines, List.all_append, all_isPlainLine_comments h]
  split <;> decide

theorem print_eq_ofLines {e : Entry} {cs : List Outline} (h : e.comments ≠ [] → cs ≠ []) :
    (Outline.node e cs).print {} = ofLines (topLines e.comments ++ Print.body {} 0 none cs) := by
  rw [Outline.print, ofLines, fileLines_eq h, topLines]

/-- One side leaves the comments of a file, and what it leaves of the body. -/
theorem keepSide_print {side : Side} {e : Entry} {cs os : List Outline}
    (hcomments : e.comments.all isCommentLine = true) (hbelow : e.comments ≠ [] → cs ≠ [])
    (hbody : KeptAs side false (Print.body {} 0 none cs) os) (file : Option String) :
    ∃ kept reading, keepSide side ((Outline.node e cs).print {}) = some kept ∧
      read kept file = .ok reading ∧ reading.diagnostics = [] ∧
      reading.root.unplaced = (Outline.node { comments := e.comments } os).unplaced := by
  obtain ⟨hlines, lines, hmarked, hread⟩ := hbody
  have htop := all_isPlainLine_topLines hcomments
  have hsingle : ∀ line ∈ topLines e.comments ++ Print.body {} 0 none cs, '\n' ∉ line.toList := by
    have hall : (topLines e.comments ++ Print.body {} 0 none cs).all isOneLine = true := by
      rw [List.all_append, all_isOneLine_of_plain htop, hlines]
      rfl
    intro line hmem
    simpa [isOneLine] using List.all_eq_true.1 hall line hmem
  have hkept := ((Marked.of_plain htop).append hmarked).keptLines_eq
  obtain ⟨reading, hreading, hroot, hdiagnostics⟩ := read_of_readAs hcomments hread file
  refine ⟨ofLines (topLines e.comments ++ lines), reading, ?_, hreading, hdiagnostics, hroot⟩
  rw [keepSide, print_eq_ofLines hbelow, linesOf_ofLines hsingle, hkept]
  rfl

/-- Markers mean what resolving does. In what is printed of a merge of two printable files the
markers are properly nested, and for each side the lines that are on it are read, without a report,
as the file that resolving the merge to that side leaves. -/
theorem keepSide_print_merge {left right : Outline} {labels : Labels}
    (hleft : left.isPrintableFile = true) (hright : right.isPrintableFile = true)
    (hdots : left.runsTogether = false) (hdots' : right.runsTogether = false)
    (hmovable : left.isMovable = true) (hmovable' : right.isMovable = true)
    (hlabels : labels.areSingleLine = true) (side : Side) (file : Option String) :
    ∃ result settled kept reading,
      merge labels { root := left } { root := right } = .ok result ∧
      result.forest.resolve side = .ok settled ∧
      keepSide side ((result.forest.outline Forest.root).print {}) = some kept ∧
      read kept file = .ok reading ∧ reading.diagnostics = [] ∧
      reading.root.unplaced = (settled.outline Forest.root).unplaced := by
  have hl : ({ root := left } : Source).root.IsTidyFile := Outline.isTidyFile hleft hdots hmovable
  have hr : ({ root := right } : Source).root.IsTidyFile :=
    Outline.isTidyFile hright hdots' hmovable'
  obtain ⟨m, t, g, ⟨i, e, cs⟩, hmerge, hm, hshows, htop, hall, htidy, hbelow⟩ :=
    Merger.merge_tidy hlabels hl hr
  obtain rfl : i = Forest.root := htop
  obtain ⟨r, us, hresolve, hsettled⟩ := hm.resolve hall hshows side
  -- What is absorbed changes neither the top of the tree nor what resolving leaves of it.
  have hsame : Tree.SettlesAs side t (.node Forest.root e cs) :=
    Tree.AbsorbsAll.settlesAs hall hm.shaped.paired
  have hentry : e = t.entry := (Prod.mk.inj hsame.header).2
  have hgroup : e.kind = .group := hentry ▸ hm.group
  have hbody := Tree.keptAs_body ((Tree.keptLines side _
    (Tree.AbsorbsAll.shaped hall hm.shaped) htidy).1 (by rw [Tree.kind_node, hgroup]; rfl)) 0 none
  obtain ⟨hcomments, -⟩ := Entry.isTidy_iff.1 htidy.entry
  obtain ⟨kept, reading, hkept, hread, hdiagnostics, hroot⟩ := keepSide_print hcomments
    (by simpa [Tree.outlineAll_eq_map] using hbelow) hbody file
  refine ⟨⟨g, _⟩, r, kept, reading, hmerge, hresolve, ?_, hread, hdiagnostics, ?_⟩
  · rw [show g.outline Forest.root = _ from Forest.Shows.outline_eq (K := []) hshows]
    exact hkept
  · rw [show r.outline Forest.root = _ from Forest.Shows.outline_eq (K := []) hsettled, hroot,
      Tree.outline, ← hsame.body, ← hentry]
    simp [Outline.unplaced, hgroup]

/-- The two outlines of cars, in which every kind of conflict comes up. -/
theorem keepSide_print_cars :
    oldCars.isPrintableFile = true ∧ newCars.isPrintableFile = true ∧
      oldCars.runsTogether = false ∧ newCars.runsTogether = false ∧
      oldCars.isMovable = true ∧ newCars.isMovable = true ∧
      ∃ result settled kept reading,
        merge ⟨"old", "new"⟩ { root := oldCars } { root := newCars } = .ok result ∧
        result.forest.resolve .right = .ok settled ∧
        keepSide .right ((result.forest.outline Forest.root).print {}) = some kept ∧
        read kept none = .ok reading ∧ reading.diagnostics = [] ∧
        reading.root.unplaced = (settled.outline Forest.root).unplaced :=
  ⟨by decide +kernel, by decide +kernel, by decide, by decide, by decide +kernel,
    by decide +kernel, keepSide_print_merge (by decide +kernel) (by decide +kernel) (by decide)
      (by decide) (by decide +kernel) (by decide +kernel) (by decide) .right none⟩

/-- What is read once one side of a printed merge is kept, without places. -/
def rereadSide (side : Side) (labels : Labels) (left right : Outline) :
    Option (List (Nat × Entry)) := do
  let result ← (merge labels { root := left } { root := right }).toOption
  let kept ← keepSide side ((result.forest.outline Forest.root).print {})
  let reading ← (read kept none).toOption
  return reading.root.unplaced.preorder 0

/-- What resolving a merge to one side leaves, without places. -/
def resolvedSide (side : Side) (labels : Labels) (left right : Outline) :
    Option (List (Nat × Entry)) := do
  let result ← (merge labels { root := left } { root := right }).toOption
  let settled ← (result.forest.resolve side).toOption
  return (settled.outline Forest.root).unplaced.preorder 0

/-- A class whose superclass is only ended by what follows it in the line. -/
def unfinished : Outline :=
  .node {} [.node { kind := .scope (.classOf "Car" (some "Vehicle +")) } []]

/-- The class with a body, and no superclass. -/
def finished : Outline :=
  .node {} [.node { kind := .scope (.classOf "Car" none) }
    [.node { kind := .leaf (.method { name := "drive" }) } []]]

/-- Two things can go wrong. A name that runs together with its receiver is read as another method,
also where there is no conflict at all. And a superclass that a line break does not end runs on into
the body which the merge gives to its class. -/
theorem rereadSide_ne_resolvedSide :
    dotted.isPrintableFile = true ∧ dotted.isMovable = true ∧
      rereadSide .left ⟨"left", "right"⟩ dotted (.node {} []) =
        some [(0, {}), (1, { kind := .leaf (.method { name := "self" }) })] ∧
      resolvedSide .left ⟨"left", "right"⟩ dotted (.node {} []) =
        some [(0, {}), (1, { kind := .leaf (.method { name := "..", isSingleton := true }) })] ∧
      unfinished.isPrintableFile = true ∧ finished.isPrintableFile = true ∧
      rereadSide .left ⟨"left", "right"⟩ unfinished finished =
        some [(0, {}), (1, { kind := .scope (.classOf "Car" (some "Vehicle + def drive")) })] ∧
      resolvedSide .left ⟨"left", "right"⟩ unfinished finished =
        some [(0, {}), (1, { kind := .scope (.classOf "Car" (some "Vehicle +")) }),
          (2, { kind := .leaf (.method { name := "drive" }) })] := by
  decide +kernel

end StubMerge
