import StubMerge.Proofs.Plotting
import StubMerge.Proofs.SteadyFiles
import StubMerge.Proofs.Tiling

/-!
# Reading gets to the end

Whatever stands in a text, reading goes on behind it: what cannot be understood is skipped, and
scopes that are not ended are ended at the end of the file. One thing is in the way, a visibility
word in front of a declaration that then turns out to declare nothing. Where no such word stands
right in front of a word that declares methods, nothing is.

**Theorem (`read_reaches_end`).** A text without such a pair is read to its end. The reader passes
every token, stands at tokens of the text all the way, does not miss the end of the file, and puts
every declaration into one tree.

A statement makes reading fail only if a pair stands at its start (`Cursor.isWhole_statement`), and
the tokens that are left have a pair only if the text has one, so there is always a next move. A
move passes a token or ends a scope, and opens at most one, so there are at most two for each token
(`Draft.Path.length_le`). What the moves declare is put into a forest by `Draft.Path.follows`.
-/

namespace StubMerge

/-! ## Visibility words in front of declarations -/

/-- A word that says who may call what is declared behind it. -/
def Token.isVisibility (t : Token) : Bool :=
  t.kind == .name && ["public", "protected", "private"].contains t.text

/-- A word that declares methods. -/
def Token.declaresMethods (t : Token) : Bool :=
  t.kind == .defWord ||
    t.kind == .name && ["attr_reader", "attr_writer", "attr_accessor"].contains t.text

theorem Token.declaresMethods_of_ofWord? {t : Token} {kind : AttributeKind} (hk : t.kind = .name)
    (h : AttributeKind.ofWord? t.text = some kind) : t.declaresMethods = true := by
  unfold AttributeKind.ofWord? at h
  split at h
  · next hword => simp [declaresMethods, hk, hword]
  · next hword => simp [declaresMethods, hk, hword]
  · next hword => simp [declaresMethods, hk, hword]
  · cases h

/-- No visibility word stands right in front of a word that declares methods. -/
def Unprefixed (ts : List Token) : Prop :=
  ts.IsChain fun t u => ¬(t.isVisibility = true ∧ u.declaresMethods = true)

instance (ts : List Token) : Decidable (Unprefixed ts) :=
  inferInstanceAs (Decidable (List.IsChain _ ts))

/-- Whether a statement that was read can be taken as it is. -/
def Outcome.isWhole : Outcome → Bool
  | .broken => false
  | _ => true

namespace Cursor

variable (b : Body) (c : Cursor)

theorem nth_of_nthKind {c : Cursor} {n : Nat} {k : TokenKind} (h : c.nthKind n = k)
    (hk : k ≠ .eof) : c.rest[n]? = some (c.nth n) ∧ (c.nth n).kind = k := by
  unfold nthKind at h
  cases hn : c.rest[n]? with
  | none => simp [hn] at h; exact absurd h.symm hk
  | some t => simpa [nth, List.getD_eq_getElem?_getD, hn] using h

/-- What stands behind a visibility word declares no methods. -/
theorem declaresMethods_eq_false {c : Cursor} (h : Unprefixed c.rest) (hk : c.kind = .name)
    (hword : ["public", "protected", "private"].contains c.text = true) {t : Token}
    (ht : c.rest[1]? = some t) : t.declaresMethods = false := by
  obtain ⟨hfirst, hkind⟩ := nth_of_nthKind (n := 0) hk (by decide)
  have hvisibility : c.peek.isVisibility = true := by
    rw [Token.isVisibility, Bool.and_eq_true, beq_iff_eq]
    exact ⟨hkind, hword⟩
  obtain ⟨_, hpeek⟩ := List.getElem?_eq_some_iff.1 hfirst
  obtain ⟨hlt, rfl⟩ := List.getElem?_eq_some_iff.1 ht
  have hpair := List.isChain_iff_getElem.1 h 0 hlt
  rw [hpeek] at hpair
  exact Bool.eq_false_iff.2 fun hdeclares => hpair ⟨hvisibility, hdeclares⟩

/-- A statement at which no visibility word stands in front of a declaration is read as a whole. -/
theorem isWhole_statement (h : Unprefixed c.rest) : (c.statement b).outcome.isWhole = true :=
  Forms.statement (P := fun s => s.outcome.isWhole = true)
    { moduleHeader := by dsimp only [moduleHeader]; split <;> rfl
      classHeader := by dsimp only [classHeader]; split <;> rfl
      singletonHeader := by dsimp only [singletonHeader]; split <;> rfl
      constant _ _ := by
        dsimp only [constant, structHeader]
        repeat' split
        all_goals rfl
      method := by dsimp only [method]; split <;> rfl
      attributes _ := by dsimp only [attributes]; split <;> rfl
      visibility _ := rfl
      visibleMethod _ hk hword hdef := by
        obtain ⟨hnext, hkind⟩ := nth_of_nthKind hdef (by decide)
        have hdeclares : (c.nth 1).declaresMethods = true := by simp [Token.declaresMethods, hkind]
        rw [declaresMethods_eq_false h hk hword hnext] at hdeclares
        cases hdeclares
      visibleAttributes _ _ hk hword hname hattribute := by
        obtain ⟨hnext, hkind⟩ := nth_of_nthKind hname (by decide)
        have hdeclares := Token.declaresMethods_of_ofWord? hkind hattribute
        rw [declaresMethods_eq_false h hk hword hnext] at hdeclares
        cases hdeclares
      signatureLine := rfl
      mixins _ := by dsimp only [mixins]; split <;> rfl
      requiredAncestor := by dsimp only [requiredAncestor]; split <;> rfl
      structField _ _ := by dsimp only [structField]; split <;> rfl
      enumBlock := rfl
      helperCall _ _ := rfl
      call _ := rfl
      noDeclaration := rfl }

/-! ## Standing in a text -/

/-- The cursor stands at a token of a text or at its end, and what it sees from there are tokens of
the text: the token that marks the end is as far as it can look. -/
def StandsIn (ts : TokenList) (c : Cursor) : Prop :=
  ∃ n ≤ ts.tokens.length, c = { (ofTokens c.file ts).skip n with diagnostics := c.diagnostics } ∧
    ∀ k, ts.toList[min (n + k) ts.tokens.length]? = some (c.nth k)

theorem skip_min (c : Cursor) (n : Nat) : c.skip (min n c.rest.length) = c.skip n := by
  rcases Nat.le_total n c.rest.length with h | h
  · rw [Nat.min_eq_left h]
  · simp [skip, Nat.min_eq_right h, List.drop_of_length_le h, List.take_of_length_le h]

theorem nth_skip (c : Cursor) (n k : Nat) :
    (c.rest ++ [c.close])[min (n + k) c.rest.length]? = some ((c.skip n).nth k) := by
  rw [nth, skip, List.getD_eq_getElem?_getD, List.getElem?_drop]
  rcases Nat.lt_or_ge (n + k) c.rest.length with h | h
  · rw [Nat.min_eq_left h.le, List.getElem?_append_left h, List.getElem?_eq_getElem h]
    rfl
  · rw [Nat.min_eq_right h, List.getElem?_eq_none h, List.getElem?_append_right le_rfl]
    simp

/-- Wherever a cursor gets from the first token, it stands in the text. -/
theorem Reaches.standsIn {file : Option String} {ts : TokenList} {c : Cursor}
    (h : (ofTokens file ts).Reaches c) : c.StandsIn ts := by
  obtain ⟨n, hn⟩ := h.moves
  rw [← skip_min] at hn
  have hfile : c.file = file := by rw [hn]; rfl
  refine ⟨_, Nat.min_le_right n ts.tokens.length, by rw [hfile]; exact hn, fun k => ?_⟩
  rw [hn]
  exact nth_skip (ofTokens file ts) _ k

theorem Reaches.close_eq {c c' : Cursor} (h : c.Reaches c') : c'.close = c.close := by
  obtain ⟨n, hn⟩ := h.moves
  rw [hn]
  rfl

theorem rest_eq_nil_of_kind {c : Cursor} (h : ∀ t ∈ c.rest, t.kind ≠ .eof) (hk : c.kind = .eof) :
    c.rest = [] := by
  cases hrest : c.rest with
  | nil => rfl
  | cons t later =>
    rw [kind_eq_headKind, hrest] at hk
    exact absurd hk (h t (by simp [hrest]))

theorem kind_of_rest_eq_nil {c : Cursor} (h : c.rest = []) : c.kind = .eof := by
  rw [kind_eq_headKind, h]
  rfl

end Cursor

/-! ## Moving on -/

namespace Draft

variable {s s' : Draft × Cursor} {a : Act} {acts : List Act}

theorem Move.walk (h : Move s a s') : s.2.Walk s'.2 := by
  cases h with
  | statement hc h => exact walk_step h
  | close hc h => exact Cursor.walk_closeScope _ _ _

theorem Path.walk (path : Path s acts s') : s.2.Walk s'.2 := by
  induction path with
  | refl s => exact .refl
  | cons move _ ih => exact move.walk.trans ih

theorem Path.reaches (path : Path s acts s') : s.2.Reaches s'.2 := path.walk.reaches

/-- How many moves there can be: two for each token that is left, one for each page. -/
def reserve (s : Draft × Cursor) : Nat := 2 * s.2.remaining + s.1.pages.length

theorem length_pages (d : Draft) : d.pages.length = d.inner.length + 1 := by simp [pages]

/-- A move uses up some of what there is. -/
theorem Move.reserve_lt (h : Move s a s') : reserve s' < reserve s := by
  have hremaining : s'.2.remaining ≤ s.2.remaining := h.walk.suffix.length_le
  cases h with
  | statement hc h =>
    have hless := remaining_step_lt hc h
    have hpages := (turns_step h).length_le
    simp only [reserve]
    omega
  | close hc h =>
    simp only [reserve, length_pages, length_inner_add, h, List.length_cons] at hremaining ⊢
    omega

theorem Path.length_le (path : Path s acts s') : acts.length + reserve s' ≤ reserve s := by
  induction path with
  | refl s => simp
  | cons move _ ih =>
    have hless := move.reserve_lt
    rw [List.length_cons]
    omega

/-- Reading does not fail where no visibility word is in the way. -/
theorem exists_step (d : Draft) {c : Cursor} (h : Unprefixed c.rest) :
    ∃ d' c', d.step c = .ok (d', c') := by
  have hwhole := c.isWhole_statement d.current.body h
  unfold step
  split
  · exact ⟨_, _, rfl⟩
  · exact ⟨_, _, rfl⟩
  · exact ⟨_, _, rfl⟩
  · split <;> exact ⟨_, _, rfl⟩
  · dsimp only
    split
    · exact ⟨_, _, rfl⟩
    · exact ⟨_, _, rfl⟩
    · exact ⟨_, _, rfl⟩
    · next hbroken =>
      rw [hbroken] at hwhole
      cases hwhole

/-- At the end of the file, the open scopes are ended one by one. -/
theorem exists_path_closeAll (d : Draft) {c : Cursor} (hc : c.rest = []) :
    (∃ acts, Path (d, c) acts (d.closeAll c)) ∧ (d.closeAll c).1.inner = [] := by
  fun_induction closeAll d c with
  | case1 d c h => exact ⟨⟨[], .refl _⟩, h⟩
  | case2 d c opening level outer h closed ih =>
    have hclosed : closed.2.rest = [] :=
      (Cursor.walk_closeScope opening level c).rest_eq_nil hc
    obtain ⟨⟨acts, path⟩, hinner⟩ := ih hclosed
    exact ⟨⟨_, .cons (.close (Cursor.kind_of_rest_eq_nil hc) h) path⟩, hinner⟩

theorem closeAll_of_inner_eq_nil {d : Draft} (h : d.inner = []) (c : Cursor) :
    d.closeAll c = (d, c) := by
  unfold closeAll
  split
  · rfl
  · next hcons => cases h.symm.trans hcons

/-- From every draft there is a path to the end of the file. -/
theorem exists_path (d : Draft) {c : Cursor} (h : Unprefixed c.rest)
    (hend : ∀ t ∈ c.rest, t.kind ≠ .eof) :
    ∃ acts d' c', Path (d, c) acts (d', c') ∧ d'.inner = [] ∧ c'.rest = [] ∧
      d.run c = .ok (d'.finish c') := by
  fun_induction run d c with
  | case1 d c hc =>
    have hrest := Cursor.rest_eq_nil_of_kind hend hc
    obtain ⟨⟨acts, path⟩, hinner⟩ := d.exists_path_closeAll hrest
    refine ⟨acts, _, _, path, hinner, path.walk.rest_eq_nil hrest, ?_⟩
    rw [finish, finish, closeAll_of_inner_eq_nil hinner]
  | case2 d c hc e he =>
    obtain ⟨d', c', hstep⟩ := d.exists_step h
    cases he.symm.trans hstep
  | case3 d c hc d' c' hstep ih =>
    have hsuffix := (walk_step hstep).suffix
    obtain ⟨acts, d₁, c₁, path, hinner, hrest, hrun⟩ :=
      ih (h.suffix hsuffix) fun t ht => hend t (hsuffix.subset ht)
    exact ⟨_, d₁, c₁, .cons (.statement hc hstep) path, hinner, hrest, hrun⟩

/-- A file that was read to its end does not miss the end. -/
theorem problem_ne_of_finish {d : Draft} {c c₀ : Cursor} (hinner : d.inner = []) (hc : c.rest = [])
    (hreaches : c₀.Reaches c) (hclean : c₀.IsClean) :
    ∀ x ∈ (d.finish c).diagnostics, x.problem ≠ .expectedEndOfFile := by
  have hbody : c.Walk (c.endBody d.root.body) := c.walk_reportIf _ _ (by simp)
  have hkind : (c.endBody d.root.body).kind = .eof :=
    Cursor.kind_of_rest_eq_nil (hbody.rest_eq_nil hc)
  obtain ⟨ds, hds, hnot⟩ := (hreaches.trans hbody.reaches).reports
  have hlast : (c.endBody d.root.body).reportIf ((c.endBody d.root.body).kind != .eof)
      .expectedEndOfFile = c.endBody d.root.body := by
    rw [hkind]
    rfl
  have hfinish : (d.finish c).diagnostics = ds := by
    simp only [finish, closeAll_of_inner_eq_nil hinner, hlast]
    rw [hds, hclean]
    simp
  rw [hfinish]
  exact hnot

end Draft

/-! ## The end of a file is never missed -/

theorem append_ne_of_not_prefix {a b s : String} (h : ¬ a.toList <+: s.toList) : a ++ b ≠ s := by
  intro heq
  exact h ⟨b.toList, by rw [← String.toList_append, heq]⟩

/-- The message tells this problem from all others. -/
theorem Problem.message_ne {p : Problem} (h : p ≠ .expectedEndOfFile) :
    p.message ≠ "expected end of file" := by
  cases p with
  | expectedEndOfFile => exact absurd rfl h
  | expectedDeclaration | unexpected | expectedValue | expectedParameter | expectedSymbol
  | attributeWithoutNames | mixinWithoutModule | incompleteField | expectedEnumValue
  | expectedBuilder | ignoredBlock | ignoredOption | ignoredStructArgument
  | ignoredSignatureArgument | ignoredBuilder =>
    dsimp only [message, quoted]
    simp only [String.append_assoc]
    exact append_ne_of_not_prefix (by decide +kernel)
  | _ => decide

theorem kind_ne_eof_of_mem_significant {text : String} {t : Token}
    (ht : t ∈ (TokenList.ofText text).significant.tokens) : t.kind ≠ .eof :=
  ((Scanner.ofText text).tokens_run t ((significant_sublist _).subset ht)).1

/-- Nothing is read yet, and the cursor is before the first token of a text. -/
def Draft.start (text : String) (file : Option String) : Draft × Cursor :=
  ({}, .ofTokens file (TokenList.ofText text).significant)

/-- A text is read to its end: how the reader gets there, what it reports, and what becomes of the
declarations. -/
structure ReadsToEnd (text : String) (file : Option String) (reading : Reading) (acts : List Act)
    (d : Draft) (c : Cursor) (plot : Plot) : Prop where
  read_eq : read text file = .ok reading
  path : Draft.Path (Draft.start text file) acts (d, c)
  finish_eq : d.finish c = reading
  /-- All scopes are closed. -/
  closed : d.inner = []
  /-- All tokens are passed, and the one that marks the end is the current one. -/
  passed : c.rest = []
  kind_peek : c.peek.kind = .eof
  length_le : acts.length ≤ 2 * (TokenList.ofText text).significant.tokens.length
  /-- No cursor on any path looks beyond the tokens. -/
  standsIn : ∀ acts' s c', Draft.Path (Draft.start text file) acts' s → s.2.Reaches c' →
    c'.StandsIn (TokenList.ofText text).significant
  message_ne : ∀ x ∈ reading.diagnostics, x.problem.message ≠ "expected end of file"
  /-- Each declaration can be attached to the scope that is open when it is read. -/
  plot_eq : acts.foldlM Plot.apply {} = .ok plot
  outline_eq : plot.forest.outline Forest.root = reading.root
  /-- The root reaches every node. -/
  whole : ∀ i < plot.forest.size, i = Forest.root ∨ i ∈ plot.forest.descendants Forest.root

/-- **Reading gets to the end** of every text in which no visibility word stands right in front of a
word that declares methods. -/
theorem read_reaches_end {text : String}
    (h : Unprefixed (TokenList.ofText text).significant.tokens) (file : Option String) :
    ∃ reading acts d c plot, ReadsToEnd text file reading acts d c plot := by
  obtain ⟨acts, d, c, path, hinner, hrest, hrun⟩ :=
    Draft.exists_path {} (c := (Draft.start text file).2) h
      fun t ht => kind_ne_eof_of_mem_significant ht
  obtain ⟨plot, k, K, hplot, hfollows⟩ := path.follows Plot.Follows.start
  obtain ⟨houtline, hwhole⟩ := hfollows.complete hinner
  have hnot := Draft.problem_ne_of_finish hinner hrest path.reaches rfl
  have hclose : c.close = (TokenList.ofText text).close := path.reaches.close_eq
  have hpeek : c.peek = c.close := by rw [Cursor.peek, Cursor.nth, hrest]; rfl
  refine ⟨d.finish c, acts, d, c, plot, ?_⟩
  exact
    { read_eq := hrun
      path := path
      finish_eq := rfl
      closed := hinner
      passed := hrest
      kind_peek := by
        rw [hpeek, hclose]
        exact (Scanner.ofText text).close_run.1
      length_le := by
        have hlength := path.length_le
        simp only [Draft.reserve, Draft.length_pages, Cursor.remaining, hinner, hrest] at hlength
        exact Nat.le_of_add_le_add_right hlength
      standsIn := fun acts' s c' path' hreaches => (path'.reaches.trans hreaches).standsIn
      message_ne := fun x hx => Problem.message_ne (hnot x hx)
      plot_eq := hplot
      outline_eq := by rw [houtline, Draft.finish, Draft.closeAll_of_inner_eq_nil hinner]
      whole := hwhole }

/-- A text with a word too many at the start, and with much too little at the end. -/
def brokenText : String :=
  "end\nmodule Street\nprivate\ndef cross(by = [)]\nend\nclass << self\nclass\nsig \x7b params(a:"

theorem brokenText_reaches_end :
    Unprefixed (TokenList.ofText brokenText).significant.tokens ∧
      ∃ reading acts d c plot, ReadsToEnd brokenText none reading acts d c plot := by
  have h : Unprefixed (TokenList.ofText brokenText).significant.tokens := by decide +kernel
  exact ⟨h, read_reaches_end h none⟩

/-- A visibility word in front of a method without a name is in the way. -/
example : (read "private def" none).isOk = false := by decide +kernel

end StubMerge
