import YamlEdit.Proofs.Token.Ink

/-!
# What is written for a token

Brackets, dashes and colons are written as they are; a name, a tag, and a scalar that is no block end
with a character that shows. The scanner keeps what it was told for every token in its queue.

A block mapping does not start right behind a dash: a scanner allows a key only where a dash before the
cursor would have a space behind it, and so it is at every candidate.

A feed without a fault ends with the end of the stream.
-/

namespace YamlEdit

/-! ## Tokens -/

/-- What may be written for a kind of token. -/
def Token.Kind.Shows (kind : Token.Kind) (word : Text) : Prop :=
  match kind with
  | .flowSequenceStart => word = ['[']
  | .flowSequenceEnd => word = [']']
  | .flowMappingStart => word = ['\x7b']
  | .flowMappingEnd => word = ['\x7d']
  | .key => word = [] ∨ word = ['?']
  | .value => word = [':']
  | .blockEntry => word = ['-']
  | .flowEntry => word = [',']
  | .aliasOf _ | .anchor _ | .tag .. => Inked word
  | .scalar _ quoting => if quoting.isBlock then ∃ c ∈ word.head?, isInk c = true else Inked word
  | _ => True

/-- Whether a token starts a block mapping. -/
def Token.Kind.startsMapping : Token.Kind → Bool
  | .blockMappingStart => true
  | _ => false

/-- Whether the character before a position is a dash. -/
def Text.IsBehindDash (s : Text) (i : Nat) : Prop :=
  slice s (i - 1) i = ['-']

/-- A token whose marks enclose what may be written for it, where no mapping starts behind a dash. -/
structure Token.Shown (src : Text) (t : Token) : Prop where
  shows : t.kind.Shows (Text.slice src t.start.index t.stop.index)
  apart : t.kind.startsMapping = true → ¬ src.IsBehindDash t.start.index

namespace Scan.Scanner

/-- A scanner before the end of its text, with what it has told of the tokens in its queue, and with
candidates that may be told to start a mapping. -/
structure Shown (src : Text) (s : Scanner) : Prop where
  cursor : s.cursor.In src
  queue : ∀ t ∈ s.queue, t.Shown src
  waits : ∀ k ∈ s.candidates, ¬ src.IsBehindDash k.mark.index
  running : s.ended = false

/-- Where a scanner allows a key, a dash right before the cursor has a space behind it. -/
def Free (src : Text) (s : Scanner) : Prop :=
  s.keyAllowed = true → src.IsBehindDash s.cursor.mark.index → atSpace s.cursor.rest = true

/-- A scanner at a word, which is not right behind a dash where a key is allowed. -/
def Clear (src : Text) (s : Scanner) : Prop :=
  s.keyAllowed = true → ¬ src.IsBehindDash s.cursor.mark.index

/-- A scanner behind the end of its text. -/
structure Finished (src : Text) (s : Scanner) : Prop where
  queue : ∀ t ∈ s.queue, t.Shown src
  last : ∃ t ∈ s.queue.getLast?, t.kind = .streamEnd
  ended : s.ended = true

section

variable {src : Text} {s t u : Scanner}

theorem Shown.of_same (h : s.Shown src) (cursor : t.cursor = s.cursor) (queue : t.queue = s.queue)
    (candidates : t.candidates ⊆ s.candidates) (ended : t.ended = s.ended) : t.Shown src :=
  ⟨cursor ▸ h.cursor, queue ▸ h.queue, fun k hk => h.waits k (candidates hk),
    ended.trans h.running⟩

theorem Shown.allow (h : s.Shown src) (a : Bool) : Shown src { s with keyAllowed := a } :=
  h.of_same rfl rfl (List.Subset.refl _) rfl

theorem Shown.leave (h : s.Shown src) (n : Nat) (a : Bool) :
    Shown src { s with level := n, keyAllowed := a } :=
  h.of_same rfl rfl (List.Subset.refl _) rfl

theorem Shown.goto (h : s.Shown src) (rest : Text) (a : Bool) :
    Shown src { s with cursor := s.cursor.reach rest, keyAllowed := a } :=
  ⟨h.cursor.reach rest, h.queue, h.waits, h.running⟩

theorem Shown.push (h : s.Shown src) {x : Token} (shown : x.Shown src) {c : Cursor}
    (inside : c.In src) : Shown src { s with queue := s.queue ++ [x], cursor := c } :=
  ⟨inside, List.forall_mem_append.mpr ⟨h.queue, List.forall_mem_singleton.mpr shown⟩, h.waits,
    h.running⟩

/-- What lies between a place and a later one. -/
theorem slice_reach {c : Cursor} (inside : c.In src) {word rest : Text} (cut : c.rest = word ++ rest) :
    Text.slice src c.mark.index (c.reach rest).mark.index = word := by
  have length : c.rest.length - rest.length = word.length := by
    rw [cut, List.length_append]
    omega
  rw [Cursor.index_reach, length, Text.slice, ← inside.rest, Nat.add_sub_cancel_left, cut,
    List.take_left']
  rfl

/-- Adding the token of a word. -/
theorem Shown.takeTo (h : s.Shown src) {k : Token.Kind} {w rest : Text}
    (cut : s.cursor.rest = w ++ rest) (shows : k.Shows w) (other : k.startsMapping = false) :
    (s.takeTo k rest).Shown src := by
  refine h.push (x := ⟨k, s.cursor.mark, (s.cursor.reach rest).mark⟩)
    ⟨?_, fun same => absurd same (Bool.eq_false_iff.mp other)⟩ (h.cursor.reach rest)
  rw [slice_reach h.cursor cut]
  exact shows

/-- Adding the token of a single character. -/
theorem Shown.takeChar (h : s.Shown src) {kind : Token.Kind} {c : Char} {r : Text}
    (here : s.cursor.rest = c :: r) (shows : kind.Shows [c]) (other : kind.startsMapping = false) :
    (s.takeChars kind 1).Shown src :=
  h.takeTo (w := [c]) (by rw [here]; rfl) shows other

/-- Adding a token of which nothing is known but its place. -/
theorem Shown.takeAny (h : s.Shown src) (kind : Token.Kind) (rest : Text)
    (any : ∀ word, kind.Shows word) (other : kind.startsMapping = false) :
    (s.takeTo kind rest).Shown src :=
  h.push (x := ⟨kind, s.cursor.mark, (s.cursor.reach rest).mark⟩)
    ⟨any _, fun same => absurd same (Bool.eq_false_iff.mp other)⟩ (h.cursor.reach rest)

theorem Shown.pushHere (h : s.Shown src) (kind : Token.Kind) (shows : kind.Shows [])
    (apart : kind.startsMapping = true → ¬ src.IsBehindDash s.cursor.mark.index) :
    (s.pushHere kind).Shown src := by
  refine h.push (x := ⟨kind, s.cursor.mark, s.cursor.mark⟩) ⟨?_, apart⟩ h.cursor
  rw [slice_self]
  exact shows

theorem Shown.insertBefore (h : s.Shown src) (k : Candidate) {kind : Token.Kind}
    (shows : kind.Shows []) (apart : kind.startsMapping = true → ¬ src.IsBehindDash k.mark.index) :
    (s.insertBefore k kind).Shown src := by
  refine ⟨h.cursor, fun t ht => ?_, h.waits, h.running⟩
  rcases List.eq_or_mem_of_mem_insertIdx ht with rfl | ht
  · refine ⟨?_, apart⟩
    rw [slice_self]
    exact shows
  · exact h.queue t ht

/-! ## Dashes before the cursor -/

theorem slice_before {c : Cursor} (inside : c.In src) {front : Text} {d : Char}
    (cut : src = front ++ d :: c.rest) : Text.slice src (c.mark.index - 1) c.mark.index = [d] := by
  have rest := congrArg List.length inside.rest
  have bound := inside.mark.index
  have length := congrArg List.length cut
  rw [List.length_drop] at rest
  rw [List.length_append, List.length_cons] at length
  obtain ⟨n, index⟩ : ∃ n, c.mark.index = n + 1 := ⟨front.length, by omega⟩
  have last : n = front.length := by omega
  rw [index, Nat.add_sub_cancel, Text.slice, Nat.add_sub_cancel_left, last, cut, List.drop_left']
  · rfl
  · rfl

/-- A cursor that has come past a line break, or whatever is no dash. -/
theorem atSpace_of_offDash {c : Cursor} (inside : c.In src) (off : OffDash src c.rest)
    (dash : src.IsBehindDash c.mark.index) : atSpace c.rest = true := by
  rcases off with none | ⟨front, d, cut, other⟩
  · rw [none]
    rfl
  · cases (slice_before inside cut).symm.trans dash
    exact absurd rfl other

theorem suffix_rest {c : Cursor} (inside : c.In src) : c.rest <:+ src := by
  rw [inside.rest]
  exact List.drop_suffix _ _

theorem Free.clear (h : s.Free src) {c : Char} {r : Text} (here : s.cursor.rest = c :: r)
    (word : atSpace (c :: r) = false) : s.Clear src := by
  intro allowed dash
  have space := h allowed dash
  rw [here, word] at space
  cases space

/-- Behind a single character that is no dash. -/
theorem free_takeChar (h : s.Shown src) {kind : Token.Kind} {c : Char} {r : Text}
    (here : s.cursor.rest = c :: r) (other : c ≠ '-') : (s.takeChars kind 1).Free src := by
  intro _ dash
  have suffix : r <:+ s.cursor.rest := here ▸ List.suffix_cons c r
  have rest : (s.takeChars kind 1).cursor.rest = r := by
    show (s.cursor.reach (s.cursor.rest.drop 1)).rest = r
    rw [here]
    exact Cursor.rest_reach_of_suffix suffix
  refine atSpace_of_offDash (h.cursor.reach _) ?_ dash
  rw [rest]
  exact .of_suffix (here ▸ suffix_rest h.cursor) other

/-- Going on to where a reader ends that may have come to a later line. -/
theorem free_goto (inside : s.cursor.In src) {rest : Text} (suffix : rest <:+ s.cursor.rest) {a : Bool}
    (off : a = true → OffDash src rest) :
    Free src { s with cursor := s.cursor.reach rest, keyAllowed := a } := by
  intro allowed dash
  refine atSpace_of_offDash (inside.reach rest) ?_ dash
  rw [Cursor.rest_reach_of_suffix suffix]
  exact off allowed

/-- Where no key is allowed. -/
theorem free_of_not (none : s.keyAllowed = false) : s.Free src := by
  intro allowed
  rw [none] at allowed
  cases allowed

/-! ## Steps -/

theorem Shown.dropCandidate (h : s.Shown src) (ht : s.dropCandidate = .ok t) : t.Shown src := by
  obtain ⟨l, rfl, sub, -⟩ := dropCandidate_eq_ok ht
  exact h.of_same rfl rfl sub.subset rfl

theorem Shown.addCandidate (h : s.Shown src) (clear : s.Clear src) (ht : s.addCandidate = .ok t) :
    t.Shown src := by
  rw [Scanner.addCandidate] at ht
  split at ht
  · next allowed =>
    obtain ⟨u, hu, ht⟩ := bind_eq_ok.mp ht
    have same := cursor_dropCandidate hu
    have before := h.dropCandidate hu
    cases ht
    refine ⟨before.cursor, before.queue, List.forall_mem_append.mpr ⟨before.waits, ?_⟩, before.running⟩
    rw [List.forall_mem_singleton, same]
    exact clear allowed
  · cases ht
    exact h

theorem Shown.endBlocks (h : s.Shown src) (column : Int) (outer : List Int) :
    (s.endBlocks column outer).Shown src := by
  induction outer generalizing s with
  | nil => exact h
  | cons around outer ih =>
    rw [Scanner.endBlocks]
    split
    · have ends := h.pushHere .blockEnd trivial (absurd · Bool.false_ne_true)
      exact ih (ends.of_same rfl rfl (List.Subset.refl _) rfl)
    · exact h

theorem Shown.unwind (h : s.Shown src) (column : Int) : (s.unwind column).Shown src := by
  rw [Scanner.unwind]
  split
  · exact h.endBlocks column _
  · exact h

theorem Shown.startBlock (h : s.Shown src) (kind : Token.Kind) (shows : kind.Shows [])
    (apart : s.level = 0 → kind.startsMapping = true → ¬ src.IsBehindDash s.cursor.mark.index) :
    (s.startBlock kind).Shown src := by
  rw [Scanner.startBlock]
  split
  · next opens =>
    have outside := eq_of_beq (Bool.and_eq_true_iff.mp opens).1
    exact (h.of_same (t := s.enter s.cursor.mark.column) rfl rfl (List.Subset.refl _) rfl).pushHere kind
      shows (apart outside)
  · exact h

theorem shown_fetchDirective (h : s.Shown src) (ht : s.fetchDirective = .ok t) :
    t.Shown src ∧ t.Free src := by
  rw [fetchDirective] at ht
  obtain ⟨u, hu, ht⟩ := bind_eq_ok.mp ht
  have before := (h.unwind (-1)).dropCandidate hu
  split at ht
  · cases ht
  · next line _ =>
    cases ht
    exact ⟨(before.takeAny (.directive line.directive) _ (fun _ => trivial) rfl).goto _ false,
      free_of_not rfl⟩

theorem shown_fetchSeparator {kind : Token.Kind} (any : ∀ w, kind.Shows w)
    (other : kind.startsMapping = false) (h : s.Shown src) (ht : s.fetchSeparator kind = .ok t) :
    t.Shown src ∧ t.Free src := by
  rw [fetchSeparator] at ht
  obtain ⟨u, hu, ht⟩ := bind_eq_ok.mp ht
  have before := (h.unwind (-1)).dropCandidate hu
  cases ht
  exact ⟨(before.allow false).takeAny kind _ any other, free_of_not rfl⟩

section

variable {c : Char} {r : Text} (here : s.cursor.rest = c :: r)
include here

theorem shown_fetchOpening {kind : Token.Kind} (shows : kind.Shows [c])
    (other : kind.startsMapping = false) (sign : c ≠ '-') (clear : s.Clear src) (h : s.Shown src)
    (ht : s.fetchOpening kind = .ok t) : t.Shown src ∧ t.Free src := by
  rw [fetchOpening] at ht
  obtain ⟨u, hu, ht⟩ := bind_eq_ok.mp ht
  have same := cursor_addCandidate hu
  have before := (h.addCandidate clear hu).leave (u.level + 1) true
  cases ht
  exact ⟨before.takeChar (same ▸ here) shows other, free_takeChar before (same ▸ here) sign⟩

theorem shown_fetchClosing {kind : Token.Kind} (shows : kind.Shows [c])
    (other : kind.startsMapping = false) (h : s.Shown src) (ht : s.fetchClosing kind = .ok t) :
    t.Shown src ∧ t.Free src := by
  rw [fetchClosing] at ht
  obtain ⟨u, hu, ht⟩ := bind_eq_ok.mp ht
  have same := cursor_dropCandidate hu
  cases ht
  exact ⟨((h.dropCandidate hu).leave (u.level - 1) false).takeChar (same ▸ here) shows other,
    free_of_not rfl⟩

theorem shown_fetchFlowEntry (shows : Token.Kind.flowEntry.Shows [c]) (sign : c ≠ '-')
    (h : s.Shown src) (ht : s.fetchFlowEntry = .ok t) : t.Shown src ∧ t.Free src := by
  rw [fetchFlowEntry] at ht
  obtain ⟨u, hu, ht⟩ := bind_eq_ok.mp ht
  have same : u.cursor = s.cursor := (cursor_dropCandidate hu :)
  have before := (h.allow true).dropCandidate hu
  cases ht
  exact ⟨before.takeChar (same ▸ here) shows rfl, free_takeChar before (same ▸ here) sign⟩

/-- Behind a dash there is a space. -/
theorem shown_fetchBlockEntry (shows : Token.Kind.blockEntry.Shows [c]) (space : atSpace r = true)
    (h : s.Shown src) (ht : s.fetchBlockEntry = .ok t) : t.Shown src ∧ t.Free src := by
  rw [fetchBlockEntry] at ht
  obtain ⟨-, ht⟩ := guard_eq_ok.mp ht
  obtain ⟨u, hu, ht⟩ := bind_eq_ok.mp ht
  have same : u.cursor = s.cursor := (cursor_dropCandidate hu :).trans (cursor_startBlock s _)
  have begins := h.startBlock .blockSequenceStart trivial fun _ => (absurd · Bool.false_ne_true)
  have before := (begins.allow true).dropCandidate hu
  cases ht
  refine ⟨before.takeChar (same ▸ here) shows rfl, fun _ _ => ?_⟩
  show atSpace (u.cursor.reach (u.cursor.rest.drop 1)).rest = true
  rw [same, here, List.drop_one, List.tail_cons,
    Cursor.rest_reach_of_suffix (here ▸ List.suffix_cons c r)]
  exact space

/-- A question mark or a colon that stands alone. -/
theorem shown_fetchSign (sign : c ≠ '-') {kind : Token.Kind} (shows : kind.Shows [c])
    (other : kind.startsMapping = false) (clear : s.Clear src) (h : s.Shown src)
    (allowed : ¬ (s.level == 0 && !s.keyAllowed) = true) {a : Bool}
    (hu : { s.startBlock .blockMappingStart with keyAllowed := a }.dropCandidate = .ok u) :
    (u.takeChars kind 1).Shown src ∧ (u.takeChars kind 1).Free src := by
  have same : u.cursor = s.cursor := (cursor_dropCandidate hu :).trans (cursor_startBlock s _)
  have begins := h.startBlock .blockMappingStart trivial fun outside _ =>
    clear (by simpa [outside] using allowed)
  have before := (begins.allow a).dropCandidate hu
  exact ⟨before.takeChar (same ▸ here) shows other, free_takeChar before (same ▸ here) sign⟩

theorem shown_fetchKey (sign : c ≠ '-') (shows : Token.Kind.key.Shows [c]) (clear : s.Clear src)
    (h : s.Shown src) (ht : s.fetchKey = .ok t) : t.Shown src ∧ t.Free src := by
  rw [fetchKey] at ht
  obtain ⟨allowed, ht⟩ := guard_eq_ok.mp ht
  obtain ⟨u, hu, ht⟩ := bind_eq_ok.mp ht
  cases ht
  exact shown_fetchSign here sign shows rfl clear h allowed hu

theorem shown_fetchValue (sign : c ≠ '-') (shows : Token.Kind.value.Shows [c]) (clear : s.Clear src)
    (h : s.Shown src) (ht : s.fetchValue = .ok t) : t.Shown src ∧ t.Free src := by
  rw [fetchValue] at ht
  split at ht
  · next k found =>
    dsimp only at ht
    cases ht
    have apart := h.waits k (List.mem_of_find?_eq_some found)
    have key : (s.forget.insertBefore k .key).Shown src :=
      (h.of_same (t := s.forget) rfl rfl (List.filter_subset_self _) rfl).insertBefore k (.inl rfl)
        (absurd · Bool.false_ne_true)
    have behind : (s.forget.insertBefore k .key).cursor = s.cursor := rfl
    generalize s.forget.insertBefore k .key = u at key behind
    refine ⟨?_, free_of_not rfl⟩
    split
    · have start : ((u.enter k.mark.column).insertBefore k .blockMappingStart).Shown src :=
        (key.of_same (t := u.enter k.mark.column) rfl rfl (List.Subset.refl _) rfl).insertBefore k
          trivial fun _ => apart
      exact (start.allow false).takeChar (c := c) (r := r) (behind ▸ here) shows rfl
    · exact (key.allow false).takeChar (behind ▸ here) shows rfl
  · obtain ⟨allowed, ht⟩ := guard_eq_ok.mp ht
    obtain ⟨u, hu, ht⟩ := bind_eq_ok.mp ht
    cases ht
    exact shown_fetchSign here sign shows rfl clear h allowed hu

theorem shown_fetchName {of : ScanFault.Owner} {kind : Text → Token.Kind} (sign : isInk c = true)
    (shows : ∀ name w, Inked w → (kind name).Shows w)
    (other : ∀ name, (kind name).startsMapping = false)
    (clear : s.Clear src) (h : s.Shown src) (ht : s.fetchName of kind = .ok t) :
    t.Shown src ∧ t.Free src := by
  rw [fetchName] at ht
  obtain ⟨u, hu, ht⟩ := bind_eq_ok.mp ht
  have same := cursor_addCandidate hu
  split at ht
  · cases ht
  · next name rest reads =>
    cases ht
    rw [same, here] at reads
    have cut : r = name ++ rest := exists_of_anchorName reads
    refine ⟨((h.addCandidate clear hu).allow false).takeTo (w := c :: name) ?_
      (shows name _ (inked_cons sign fun d hd => ?_)) (other name), free_of_not rfl⟩
    · exact (same ▸ here).trans (congrArg (c :: ·) cut)
    · exact isInk_of_isNameChar (isName_of_anchorName reads d hd)

theorem shown_fetchTag (sign : isInk c = true) (clear : s.Clear src) (h : s.Shown src)
    (ht : s.fetchTag = .ok t) : t.Shown src ∧ t.Free src := by
  rw [fetchTag] at ht
  obtain ⟨u, hu, ht⟩ := bind_eq_ok.mp ht
  have same := cursor_addCandidate hu
  split at ht
  · cases ht
  · next handle name rest reads =>
    cases ht
    rw [same, here] at reads
    obtain ⟨word, cut, all⟩ := GoesOver.tag reads
    refine ⟨((h.addCandidate clear hu).allow false).takeTo (w := c :: word) ?_
      (inked_cons sign all) rfl, free_of_not rfl⟩
    exact (same ▸ here).trans (congrArg (c :: ·) cut)

theorem shown_fetchBlock {folds : Bool} (sign : isInk c = true) (h : s.Shown src)
    (ht : s.fetchBlock folds = .ok t) : t.Shown src ∧ t.Free src := by
  rw [fetchBlock] at ht
  obtain ⟨u, hu, ht⟩ := bind_eq_ok.mp ht
  have same : u.cursor = s.cursor := (cursor_dropCandidate hu :)
  have before := (h.allow true).dropCandidate hu
  split at ht
  · cases ht
  · next found reads =>
    cases ht
    rw [same, here] at reads
    have leaves := Block.leaves_read reads
    have off := Block.offDash_read reads
    obtain ⟨word, cut⟩ := leaves.suffix
    have stop : found.stop <:+ u.cursor.rest := same ▸ here ▸ leaves.suffix.trans (List.suffix_cons c r)
    have shown : (u.takeTo (.scalar found.text (if folds then .folded else .literal)) found.stop).Shown
        src := by
      refine before.takeTo (w := c :: word) ?_ ?_ (by split <;> rfl)
      · exact (same ▸ here).trans (congrArg (c :: ·) cut.symm)
      · cases folds <;> exact ⟨c, rfl, sign⟩
    refine ⟨shown.goto found.rest u.keyAllowed, free_goto shown.cursor ?_ fun _ => ?_⟩
    · show found.rest <:+ (u.cursor.reach found.stop).rest
      rw [Cursor.rest_reach_of_suffix stop]
      exact leaves.ahead.suffix
    · exact off.mono ((List.suffix_cons c r).trans (here ▸ suffix_rest h.cursor))

theorem shown_fetchQuoted {double : Bool} (clear : s.Clear src) (h : s.Shown src)
    (ht : s.fetchQuoted double = .ok t) : t.Shown src ∧ t.Free src := by
  rw [fetchQuoted] at ht
  obtain ⟨u, hu, ht⟩ := bind_eq_ok.mp ht
  have same := cursor_addCandidate hu
  split at ht
  · cases ht
  · next text rest reads =>
    cases ht
    rw [same, here] at reads
    obtain ⟨front, quote, cut, ink⟩ := Quoted.exists_of_readFrom reads
    refine ⟨((h.addCandidate clear hu).allow false).takeTo (w := c :: front ++ [quote]) ?_ ?_ rfl,
      free_of_not rfl⟩
    · rw [List.append_assoc]
      exact (same ▸ here).trans (congrArg (c :: ·) cut)
    · cases double <;> exact inked_concat (c :: front) ink

theorem shown_fetchPlain (starts : startsPlain (s.level != 0) c r = true) (clear : s.Clear src)
    (h : s.Shown src) (ht : s.fetchPlain = .ok t) : t.Shown src ∧ t.Free src := by
  rw [fetchPlain] at ht
  obtain ⟨u, hu, ht⟩ := bind_eq_ok.mp ht
  have same := cursor_addCandidate hu
  have level := level_addCandidate hu
  have before := h.addCandidate clear hu
  cases ht
  obtain ⟨word, cut, ends⟩ := Plain.exists_of_read starts (u.indent + 1).toNat
  rw [← here, ← same, ← level] at cut
  have leaves := Plain.leaves_read (u.level != 0) (u.indent + 1).toNat u.cursor.rest
  have shown (text : Text) := before.takeTo (k := .scalar text .plain) cut ends rfl
  refine ⟨(shown _).goto _ _, free_goto (shown _).cursor ?_ fun later => ?_⟩
  · show _ <:+ (u.cursor.reach _).rest
    rw [Cursor.rest_reach_of_suffix leaves.suffix]
    exact leaves.ahead.suffix
  exact Plain.offDash_readFrom _ _ .word _ u.cursor.rest (suffix_rest before.cursor)
    (absurd · Bool.false_ne_true) later

omit here in
theorem atSpace_of_startsPlain {flow : Bool} (starts : startsPlain flow c r = true) :
    atSpace (c :: r) = false := by
  obtain ⟨line, space, word⟩ := word_of_startsPlain starts
  have tab : c ≠ '\t' := by
    rintro rfl
    cases word
  simp [atSpace, endOr, line, space, tab]

theorem shown_fetchAt (free : s.Free src) (h : s.Shown src) :
    s.fetchAt c r = .ok t → t.Shown src ∧ t.Free src := by
  have clear (word : atSpace (c :: r) = false) := free.clear here word
  rw [fetchAt]
  refine of_ite_eq (fun _ => shown_fetchDirective h) fun _ => ?_
  refine of_ite_eq (fun _ => shown_fetchSeparator (fun _ => trivial) rfl h) fun _ => ?_
  refine of_ite_eq (fun _ => shown_fetchSeparator (fun _ => trivial) rfl h) fun _ => ?_
  refine of_ite_eq (fun sign => ?_) fun _ => ?_
  · cases eq_of_beq sign
    exact shown_fetchOpening here rfl rfl (by decide) (clear rfl) h
  refine of_ite_eq (fun sign => ?_) fun _ => ?_
  · cases eq_of_beq sign
    exact shown_fetchOpening here rfl rfl (by decide) (clear rfl) h
  refine of_ite_eq (fun sign => ?_) fun _ => ?_
  · exact shown_fetchClosing here (by rw [eq_of_beq sign]; rfl) rfl h
  refine of_ite_eq (fun sign => ?_) fun _ => ?_
  · exact shown_fetchClosing here (by rw [eq_of_beq sign]; rfl) rfl h
  refine of_ite_eq (fun sign => ?_) fun _ => ?_
  · cases eq_of_beq sign
    exact shown_fetchFlowEntry here rfl (by decide) h
  refine of_ite_eq (fun sign => ?_) fun _ => ?_
  · obtain ⟨dash, space⟩ := Bool.and_eq_true_iff.mp sign
    exact shown_fetchBlockEntry here (by rw [eq_of_beq dash]; rfl) space h
  refine of_ite_eq (fun sign => ?_) fun _ => ?_
  · cases eq_of_beq (Bool.and_eq_true_iff.mp sign).1
    exact shown_fetchKey here (by decide) (.inr rfl) (clear rfl) h
  refine of_ite_eq (fun sign => ?_) fun _ => ?_
  · cases eq_of_beq (Bool.and_eq_true_iff.mp sign).1
    exact shown_fetchValue here (by decide) rfl (clear rfl) h
  refine of_ite_eq (fun sign => ?_) fun _ => ?_
  · cases eq_of_beq sign
    exact shown_fetchName here rfl (fun _ _ => id) (fun _ => rfl) (clear rfl) h
  refine of_ite_eq (fun sign => ?_) fun _ => ?_
  · cases eq_of_beq sign
    exact shown_fetchName here rfl (fun _ _ => id) (fun _ => rfl) (clear rfl) h
  refine of_ite_eq (fun sign => ?_) fun _ => ?_
  · cases eq_of_beq sign
    exact shown_fetchTag here rfl (clear rfl) h
  refine of_ite_eq (fun sign => ?_) fun _ => ?_
  · exact shown_fetchBlock here (by rw [eq_of_beq (Bool.and_eq_true_iff.mp sign).1]; rfl) h
  refine of_ite_eq (fun sign => ?_) fun _ => ?_
  · exact shown_fetchBlock here (by rw [eq_of_beq (Bool.and_eq_true_iff.mp sign).1]; rfl) h
  refine of_ite_eq (fun sign => ?_) fun _ => ?_
  · cases eq_of_beq sign
    exact shown_fetchQuoted here (clear rfl) h
  refine of_ite_eq (fun sign => ?_) fun _ => ?_
  · cases eq_of_beq sign
    exact shown_fetchQuoted here (clear rfl) h
  refine of_ite_eq (fun starts => ?_) ?_
  · exact shown_fetchPlain here starts (clear (atSpace_of_startsPlain starts)) h
  · intro _ wrong
    cases wrong

end

/-! ## Feeds -/

theorem offDash_skipSpaces (s : Text) : OffDash (' ' :: s) (skipSpaces s) := by
  induction s with
  | nil => exact .inl rfl
  | cons c r ih =>
    rw [skipSpaces, List.dropWhile_cons]
    split
    · next space =>
      rw [eq_of_beq space]
      exact ih.mono (List.suffix_cons ' ' _)
    · exact .of_suffix (List.suffix_refl _) (by decide)

/-- Going over spaces and a comment leads to the end of the line, or behind a space. -/
theorem skipComment_cases (s : Text) :
    skipComment s = s ∨ atSpace (skipComment s) = true ∨ OffDash s (skipComment s) := by
  rw [skipComment]
  split
  · refine .inr (.inl ?_)
    rw [skipLine]
    generalize skipSpaces s = t
    induction t with
    | nil => rfl
    | cons c t ih =>
      rw [List.dropWhile_cons]
      split
      · exact ih
      · next stops =>
        have stops : isBreak c = true := by simpa using stops
        simp [atSpace, endOr, stops]
  · cases s with
    | nil => exact .inl rfl
    | cons c r =>
      rw [skipSpaces, List.dropWhile_cons]
      split
      · next space =>
        rw [eq_of_beq space]
        exact .inr (.inr (offDash_skipSpaces r))
      · exact .inl rfl

theorem Free.skipComment (h : s.Free src) (inside : s.cursor.In src) :
    Free src { s with cursor := s.cursor.reach (Scan.skipComment s.cursor.rest) } := by
  intro allowed dash
  have suffix := (Ahead.skipComment s.cursor.rest).suffix
  have rest := Cursor.rest_reach_of_suffix suffix
  rcases skipComment_cases s.cursor.rest with same | space | off
  · rw [same] at dash ⊢
    have still : s.cursor.reach s.cursor.rest = s.cursor := by rw [Cursor.reach, Nat.sub_self]; rfl
    rw [still] at dash ⊢
    exact h allowed dash
  · exact rest.symm ▸ space
  · refine atSpace_of_offDash (inside.reach _) ?_ dash
    rw [rest]
    exact off.mono (suffix_rest inside)

theorem toNextToken_shown (steps : Nat) (h : s.Shown src) (free : s.Free src) :
    (Scanner.toNextToken steps s).Shown src ∧ (Scanner.toNextToken steps s).Free src := by
  induction steps generalizing s with
  | zero => exact ⟨h, free⟩
  | succ steps ih =>
    rw [Scanner.toNextToken]
    split
    · exact ⟨h.goto _ s.keyAllowed, free.skipComment h.cursor⟩
    · next next stops =>
      refine ih (h.goto _ _) (free_goto h.cursor ?_ fun _ => ?_)
      · exact (Ahead.afterBreak? stops).suffix.trans (Ahead.skipComment _).suffix
      · have inside := (Ahead.skipComment s.cursor.rest).suffix.trans (suffix_rest h.cursor)
        exact (OffDash.afterBreak? stops).mono inside

theorem skipMark_shown (h : s.Shown src) (free : s.Free src) :
    s.skipMark.Shown src ∧ s.skipMark.Free src := by
  rw [Scanner.skipMark]
  split
  · next c r here =>
    split
    · next mark =>
      refine ⟨h.goto _ s.keyAllowed, free_goto h.cursor (here ▸ List.suffix_cons c r) fun _ => ?_⟩
      refine .of_suffix (here ▸ suffix_rest h.cursor) ?_
      rw [eq_of_beq (Bool.and_eq_true_iff.mp mark).2]
      decide
    · exact ⟨h, free⟩
  · exact ⟨h, free⟩

theorem Shown.dropStale (h : s.Shown src) (ht : s.dropStale = .ok t) : t.Shown src := by
  obtain ⟨l, rfl, sub, -⟩ := dropStale_eq_ok ht
  exact h.of_same rfl rfl sub.subset rfl

/-- A fetch goes on, or comes to the end. -/
theorem Shown.fetch (h : s.Shown src) (free : s.Free src) (ht : s.fetch = .ok t) :
    t.Shown src ∧ t.Free src ∨ t.Finished src := by
  rw [Scanner.fetch] at ht
  obtain ⟨u, hu, ht⟩ := bind_eq_ok.mp ht
  obtain ⟨marked, free⟩ := skipMark_shown h free
  obtain ⟨there, free⟩ := toNextToken_shown (s.cursor.rest.length + 1) marked free
  generalize Scanner.toNextToken (s.cursor.rest.length + 1) s.skipMark = v at there free hu
  obtain ⟨l, rfl, sub, -⟩ := dropStale_eq_ok hu
  have before := (there.of_same (t := { v with candidates := l }) rfl rfl sub.subset rfl).unwind
    v.cursor.mark.column
  have free : (Scanner.unwind { v with candidates := l } v.cursor.mark.column).Free src := by
    obtain ⟨q, i, o, shape⟩ := unwind_shape { v with candidates := l } v.cursor.mark.column
    rw [shape]
    exact free
  dsimp only at ht
  generalize Scanner.unwind { v with candidates := l } v.cursor.mark.column = w at before free ht
  split at ht
  · rw [fetchEnd] at ht
    obtain ⟨x, hx, ht⟩ := bind_eq_ok.mp ht
    have ended := ((before.unwind (-1)).dropCandidate hx).pushHere .streamEnd trivial
      (absurd · Bool.false_ne_true)
    cases ht
    exact .inr ⟨ended.queue, ⟨_, List.getLast?_concat, rfl⟩, rfl⟩
  · next c r here => exact .inl (shown_fetchAt here free before ht)

theorem Shown.release (queue : List Token) (h : Shown src { s with queue }) :
    (s.release queue).1.Shown src ∧ (s.Free src → (s.release queue).1.Free src) ∧
      ∀ t ∈ (s.release queue).2, t.Shown src := by
  induction queue generalizing s with
  | nil => exact ⟨h, id, List.forall_mem_nil _⟩
  | cons t queue ih =>
    obtain ⟨first, rest⟩ := List.forall_mem_cons.mp h.queue
    rw [Scanner.release]
    split
    · exact ⟨h, id, List.forall_mem_nil _⟩
    · obtain ⟨kept, free, released⟩ :=
        ih (s := { s with taken := s.taken + 1 }) ⟨h.cursor, rest, h.waits, h.running⟩
      exact ⟨kept, free, List.forall_mem_cons.mpr ⟨first, released⟩⟩

/-- What a feed gives, and what it ends with. -/
theorem shown_feed (steps : Nat) (h : s.Shown src) (free : s.Free src)
    (enough : s.cursor.rest.length < steps) :
    (∀ t ∈ (feed steps s).items, t.Shown src) ∧
      ((feed steps s).fault = none → ∃ t ∈ (feed steps s).items.getLast?, t.kind = .streamEnd) := by
  induction steps generalizing s with
  | zero => omega
  | succ steps ih =>
    rw [feed, if_neg (by rw [h.running]; exact Bool.false_ne_true)]
    generalize checked : (if s.queue.isEmpty then Except.ok s else s.dropStale) = fresh
    cases fresh with
    | error e => exact ⟨List.forall_mem_nil _, (absurd · (Option.some_ne_none e))⟩
    | ok u =>
      have same : u.Shown src ∧ u.Free src ∧ u.cursor = s.cursor := by
        split at checked
        · cases checked
          exact ⟨h, free, rfl⟩
        · obtain ⟨l, rfl, sub, -⟩ := dropStale_eq_ok checked
          exact ⟨h.of_same rfl rfl sub.subset rfl, free, rfl⟩
      obtain ⟨kept, open_, released⟩ := Shown.release (s := u) u.queue same.1
      have free := open_ same.2.1
      have cursor := cursor_release u u.queue
      dsimp only
      generalize u.release u.queue = out at kept free released cursor
      obtain ⟨v, tokens⟩ := out
      cases fetched : v.fetch with
      | error e => exact ⟨released, (absurd · (Option.some_ne_none e))⟩
      | ok w =>
        have more : (∀ t ∈ (feed steps w).items, t.Shown src) ∧ ((feed steps w).fault = none →
            ∃ t ∈ (feed steps w).items.getLast?, t.kind = .streamEnd) := by
          rcases kept.fetch free fetched with ⟨shown, free⟩ | finished
          · refine ih shown free ?_
            rcases (past_fetch fetched).2 with ended | shorter
            · rw [shown.running] at ended
              cases ended
            · rw [cursor, same.2.2] at shorter
              omega
          · rw [feed_of_ended steps finished.ended]
            exact ⟨finished.queue, fun _ => finished.last⟩
        refine ⟨List.forall_mem_append.mpr ⟨released, more.1⟩, fun sound => ?_⟩
        obtain ⟨t, last, kind⟩ := more.2 sound
        exact ⟨t, by rw [List.getLast?_append, last]; rfl, kind⟩

end

end Scan.Scanner

namespace TokenFeed

/-- What is written for every token of a text, and that a feed ends where its text does. -/
theorem shown_ofText (s : Text) : (∀ t ∈ (ofText s).items, t.Shown s) ∧
    ((ofText s).fault = none → ∃ t ∈ (ofText s).items.getLast?, t.kind = .streamEnd) := by
  have start : ({ source := s, cursor := .start s } : Scan.Scanner).Shown s :=
    ⟨⟨Nat.zero_le _, rfl⟩, List.forall_mem_nil _, List.forall_mem_nil _, rfl⟩
  refine Scan.Scanner.shown_feed (s.length + 3)
    (start.pushHere .streamStart trivial (absurd · Bool.false_ne_true)) (fun _ dash => ?_)
    (show s.length < s.length + 3 by omega)
  have none : Text.slice s 0 0 = ['-'] := dash
  rw [slice_self] at none
  cases none

end TokenFeed

end YamlEdit
