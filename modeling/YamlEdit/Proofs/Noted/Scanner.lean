import YamlEdit.Proofs.Noted.Cursor

/-!
# Cutting in front of another comment

Up to the place the two texts are cut alike: the states are the same but for the text that is left.
One lemma for each kind of token says that it leads from such states to such states. A fetch that goes
past the place leads to states at the same rest of the two texts.
-/

namespace YamlEdit.Scan.Scanner

variable {u v post w w' source : Text} {s t : Scanner}

/-- The state in another text, at the same mark. -/
def onto (source rest : Text) (s : Scanner) : Scanner :=
  { s with source, cursor := ⟨rest, s.cursor.mark⟩ }

section Fields

variable (source rest : Text) (s : Scanner)

@[simp] theorem cursor_onto : (s.onto source rest).cursor = ⟨rest, s.cursor.mark⟩ := rfl
@[simp] theorem level_onto : (s.onto source rest).level = s.level := rfl
@[simp] theorem indent_onto : (s.onto source rest).indent = s.indent := rfl
@[simp] theorem outer_onto : (s.onto source rest).outer = s.outer := rfl
@[simp] theorem keyAllowed_onto : (s.onto source rest).keyAllowed = s.keyAllowed := rfl
@[simp] theorem candidates_onto : (s.onto source rest).candidates = s.candidates := rfl
@[simp] theorem queue_onto : (s.onto source rest).queue = s.queue := rfl
@[simp] theorem ended_onto : (s.onto source rest).ended = s.ended := rfl

end Fields

/-- States in front of the place. -/
structure Facing (source v w w' : Text) (s t : Scanner) : Prop where
  rest : s.cursor.rest = v ++ w
  same : t = s.onto source (v ++ w')

/-- What a step leads to that stays in front of the place. -/
def Stays (source v w w' : Text) (s t : Scanner) : Prop :=
  ∃ z, z <:+ v ∧ Facing source z w w' s t

/-! ## Steps of a fetch -/

namespace Facing

variable (f : Facing source v w w' s t)
include f

theorem allow (a : Bool) :
    Facing source v w w' { s with keyAllowed := a } { t with keyAllowed := a } := by
  refine ⟨f.rest, ?_⟩
  rw [f.same]
  rfl

theorem candidate?_eq : t.candidate? = s.candidate? := by
  rw [f.same]
  rfl

theorem forget : Facing source v w w' s.forget t.forget := by
  refine ⟨f.rest, ?_⟩
  rw [f.same]
  rfl

theorem push (kind : Token.Kind) (start stop : Mark) :
    Facing source v w w' (s.push kind start stop) (t.push kind start stop) := by
  refine ⟨f.rest, ?_⟩
  rw [f.same]
  rfl

theorem pushHere (kind : Token.Kind) :
    Facing source v w w' (s.pushHere kind) (t.pushHere kind) := by
  have same := f.same
  have pushed := f.push kind s.cursor.mark s.cursor.mark
  subst same
  exact pushed

theorem insertBefore (k : Candidate) (kind : Token.Kind) :
    Facing source v w w' (s.insertBefore k kind) (t.insertBefore k kind) := by
  refine ⟨f.rest, ?_⟩
  rw [f.same]
  rfl

theorem enter (column : Nat) : Facing source v w w' (s.enter column) (t.enter column) := by
  refine ⟨f.rest, ?_⟩
  rw [f.same]
  rfl

theorem carries_dropCandidate :
    Carries (fun a b => Facing source v w w' a b ∧ a.cursor = s.cursor) s.dropCandidate
      t.dropCandidate := by
  rw [dropCandidate, dropCandidate, f.candidate?_eq]
  cases s.candidate? with
  | none => exact .ok ⟨f, rfl⟩
  | some k => exact .ite (fun _ => .error) fun _ => .ok ⟨f.forget, rfl⟩

theorem carries_addCandidate :
    Carries (fun a b => Facing source v w w' a b ∧ a.cursor = s.cursor) s.addCandidate
      t.addCandidate := by
  have same := f.same
  have dropped := f.carries_dropCandidate
  subst same
  rw [addCandidate, addCandidate]
  refine .ite (fun _ => dropped.bind ?_) fun _ => .ok ⟨f, rfl⟩
  rintro a _ ⟨⟨rest, rfl⟩, cursor⟩
  exact .ok ⟨⟨rest, rfl⟩, cursor⟩

theorem endBlocks (column : Int) (outer : List Int) :
    Facing source v w w' (s.endBlocks column outer) (t.endBlocks column outer) := by
  induction outer generalizing s t with
  | nil => exact f
  | cons around outer ih =>
    have indent : t.indent = s.indent := by rw [f.same]; rfl
    rw [Scanner.endBlocks, Scanner.endBlocks, indent]
    split
    · have pushed := f.pushHere .blockEnd
      refine ih ⟨pushed.rest, ?_⟩
      rw [pushed.same]
      rfl
    · exact f

theorem unwind (column : Int) : Facing source v w w' (s.unwind column) (t.unwind column) := by
  have same := f.same
  have ended := f.endBlocks column s.outer
  subst same
  rw [Scanner.unwind, Scanner.unwind]
  split
  · next outside => rwa [if_pos (by exact outside)]
  · next within => rwa [if_neg (by exact within)]

theorem startBlock (kind : Token.Kind) :
    Facing source v w w' (s.startBlock kind) (t.startBlock kind) := by
  have same := f.same
  have started := (f.enter s.cursor.mark.column).pushHere kind
  subst same
  rw [Scanner.startBlock, Scanner.startBlock]
  split
  · next opens => rwa [if_pos (by exact opens)]
  · next closed => rwa [if_neg (by exact closed)]

end Facing

/-! ## Tokens that stay in front of the place -/

section

variable (h : Fork u post w w') (inside : v <:+ u)
include h inside

theorem Facing.reach (f : Facing source v w w' s t) {z : Text} (suffix : z <:+ v) :
    (s.cursor.reach (z ++ w)).rest = z ++ w ∧
      t.cursor.reach (z ++ w') = ⟨z ++ w', (s.cursor.reach (z ++ w)).mark⟩ := by
  obtain ⟨rest, rfl⟩ := f
  have here : s.cursor = ⟨v ++ w, s.cursor.mark⟩ := by rw [← rest]
  refine ⟨Cursor.rest_reach_of_suffix ?_, ?_⟩
  · obtain ⟨p, rfl⟩ := suffix
    rw [rest, List.append_assoc]
    exact List.suffix_append p (z ++ w)
  · rw [cursor_onto, h.mark_reach inside suffix, ← here]

theorem Facing.goto (f : Facing source v w w' s t) {z : Text} (suffix : z <:+ v) (a : Bool) :
    Facing source z w w' { s with cursor := s.cursor.reach (z ++ w), keyAllowed := a }
      { t with cursor := t.cursor.reach (z ++ w'), keyAllowed := a } := by
  obtain ⟨rest, there⟩ := f.reach h inside suffix
  refine ⟨rest, ?_⟩
  rw [there, f.same]
  rfl

theorem Facing.move (f : Facing source v w w' s t) {z : Text} (suffix : z <:+ v) :
    Facing source z w w' { s with cursor := s.cursor.reach (z ++ w) }
      { t with cursor := t.cursor.reach (z ++ w') } := by
  have moved := f.goto h inside suffix s.keyAllowed
  have same := f.same
  subst same
  exact moved

theorem Facing.takeTo (f : Facing source v w w' s t) {z : Text} (suffix : z <:+ v)
    (kind : Token.Kind) : Facing source z w w' (s.takeTo kind (z ++ w)) (t.takeTo kind (z ++ w')) := by
  obtain ⟨rest, there⟩ := f.reach h inside suffix
  obtain ⟨-, rfl⟩ := f
  rw [cursor_onto] at there
  refine ⟨rest, ?_⟩
  simp only [Scanner.takeTo, Scanner.onto, Scanner.push, there]

theorem Facing.takeChars (f : Facing source v w w' s t) {n : Nat} (room : n ≤ v.length)
    (kind : Token.Kind) :
    Facing source (v.drop n) w w' (s.takeChars kind n) (t.takeChars kind n) := by
  have taken := f.takeTo h inside (List.drop_suffix n v) kind
  rw [Scanner.takeChars, Scanner.takeChars, f.rest, f.same, cursor_onto,
    List.drop_append_of_le_length room, List.drop_append_of_le_length room, ← f.same]
  exact taken

end

section Tokens

variable {c : Char} (h : Fork u post w w') (inside : c :: v <:+ u)
  (f : Facing source (c :: v) w w' s t)
include h inside f

theorem stays_takeChar (kind : Token.Kind) :
    Stays source (c :: v) w w' (s.takeChars kind 1) (t.takeChars kind 1) :=
  ⟨v, List.suffix_cons c v, f.takeChars h inside (Nat.succ_le_succ (Nat.zero_le _)) kind⟩

theorem carries_fetchSeparator (kind : Token.Kind) (room : 3 ≤ (c :: v).length) :
    Carries (Stays source (c :: v) w w') (s.fetchSeparator kind) (t.fetchSeparator kind) := by
  refine (f.unwind (-1)).carries_dropCandidate.bind ?_
  rintro a b ⟨faces, -⟩
  exact .ok ⟨_, List.drop_suffix 3 _, (faces.allow false).takeChars h inside room kind⟩

theorem carries_fetchOpening (kind : Token.Kind) :
    Carries (Stays source (c :: v) w w') (s.fetchOpening kind) (t.fetchOpening kind) := by
  refine f.carries_addCandidate.bind ?_
  rintro a _ ⟨⟨rest, rfl⟩, -⟩
  have deeper : Facing source (c :: v) w w' { a with level := a.level + 1, keyAllowed := true }
      { a.onto source (c :: v ++ w') with level := a.level + 1, keyAllowed := true } := ⟨rest, rfl⟩
  exact .ok (stays_takeChar h inside deeper kind)

theorem carries_fetchClosing (kind : Token.Kind) :
    Carries (Stays source (c :: v) w w') (s.fetchClosing kind) (t.fetchClosing kind) := by
  refine f.carries_dropCandidate.bind ?_
  rintro a _ ⟨⟨rest, rfl⟩, -⟩
  have outer : Facing source (c :: v) w w' { a with level := a.level - 1, keyAllowed := false }
      { a.onto source (c :: v ++ w') with level := a.level - 1, keyAllowed := false } := ⟨rest, rfl⟩
  exact .ok (stays_takeChar h inside outer kind)

theorem carries_fetchFlowEntry :
    Carries (Stays source (c :: v) w w') s.fetchFlowEntry t.fetchFlowEntry := by
  refine (f.allow true).carries_dropCandidate.bind ?_
  rintro a b ⟨faces, -⟩
  exact .ok (stays_takeChar h inside faces _)

/-- A token of one character that may start a block. -/
theorem carries_starts (fault fault' : ScanError) (kind block : Token.Kind) (a : Bool) :
    Carries (Stays source (c :: v) w w')
      (do
        if s.level == 0 && !s.keyAllowed then throw fault
        let u ← { s.startBlock block with keyAllowed := a }.dropCandidate
        return u.takeChars kind 1)
      (do
        if t.level == 0 && !t.keyAllowed then throw fault'
        let u ← { t.startBlock block with keyAllowed := a }.dropCandidate
        return u.takeChars kind 1) := by
  have allowed : (t.level == 0 && !t.keyAllowed) = (s.level == 0 && !s.keyAllowed) := by
    rw [f.same]
    rfl
  rw [allowed]
  refine .guard id fun _ => (((f.startBlock block).allow a).carries_dropCandidate.bind ?_)
  rintro a b ⟨faces, -⟩
  exact .ok (stays_takeChar h inside faces kind)

theorem carries_fetchBlockEntry :
    Carries (Stays source (c :: v) w w') s.fetchBlockEntry t.fetchBlockEntry :=
  carries_starts h inside f _ _ _ _ _

theorem carries_fetchKey : Carries (Stays source (c :: v) w w') s.fetchKey t.fetchKey := by
  have level : t.level = s.level := by rw [f.same]; rfl
  have started := carries_starts h inside f (s.faultHere .keyNotAllowed) (t.faultHere .keyNotAllowed)
    .key .blockMappingStart (s.level == 0)
  rw [fetchKey, fetchKey]
  rw [level] at started ⊢
  exact started

theorem carries_fetchValue : Carries (Stays source (c :: v) w w') s.fetchValue t.fetchValue := by
  have level : t.level = s.level := by rw [f.same]; rfl
  rw [fetchValue, fetchValue, f.candidate?_eq]
  cases s.candidate? with
  | none =>
    have started := carries_starts h inside f (s.faultHere .valueNotAllowed)
      (t.faultHere .valueNotAllowed) .value .blockMappingStart (s.level == 0)
    dsimp only
    rw [level] at started ⊢
    exact started
  | some k =>
    have keyed := f.forget.insertBefore k .key
    have opens : (t.forget.insertBefore k .key).opensBlock k.mark.column =
        (s.forget.insertBefore k .key).opensBlock k.mark.column := by
      rw [keyed.same]
      rfl
    dsimp only
    rw [opens]
    split
    · have opened := (keyed.enter k.mark.column).insertBefore k .blockMappingStart
      exact .ok (stays_takeChar h inside (opened.allow false) .value)
    · exact .ok (stays_takeChar h inside (keyed.allow false) .value)

omit h inside in
theorem Facing.drop_one : s.cursor.rest.drop 1 = v ++ w ∧ t.cursor.rest.drop 1 = v ++ w' := by
  rw [f.rest, f.same]
  exact ⟨rfl, rfl⟩

/-- A token that was read from behind the first character. -/
theorem stays_takeRead {A : Type} {a b : A × Text} (kept : SameRead v w w' a b) (kind : A → Token.Kind) :
    Stays source (c :: v) w w' ({ s with keyAllowed := false }.takeTo (kind a.1) a.2)
      ({ t with keyAllowed := false }.takeTo (kind b.1) b.2) := by
  obtain ⟨same, z, suffix, left, left'⟩ := kept
  have within := suffix.trans (List.suffix_cons c v)
  rw [same, left, left']
  exact ⟨z, within, (f.allow false).takeTo h inside within _⟩

theorem carries_fetchName (of : ScanFault.Owner) (kind : Text → Token.Kind) :
    Carries (Stays source (c :: v) w w') (s.fetchName of kind) (t.fetchName of kind) := by
  refine f.carries_addCandidate.bind ?_
  rintro a b ⟨faces, -⟩
  have reads := h.carries_anchorName of v
  obtain ⟨drop, drop'⟩ := faces.drop_one
  rw [drop, drop']
  cases read : anchorName of (v ++ w) with
  | error e => exact .error
  | ok x =>
    obtain ⟨y, read', kept⟩ := reads x read
    rw [read']
    exact .ok (stays_takeRead h inside faces kept kind)

theorem carries_fetchTag : Carries (Stays source (c :: v) w w') s.fetchTag t.fetchTag := by
  refine f.carries_addCandidate.bind ?_
  rintro a b ⟨faces, -⟩
  have reads := h.carries_tag v
  obtain ⟨drop, drop'⟩ := faces.drop_one
  rw [drop, drop']
  cases read : tag (v ++ w) with
  | error e => exact .error
  | ok x =>
    obtain ⟨y, read', kept⟩ := reads x read
    rw [read']
    exact .ok (stays_takeRead h inside faces kept fun name => .tag name.1 name.2)

/-- A quoted scalar that ends before the place. -/
theorem stays_fetchQuoted {double : Bool} {x : Scanner} (hx : s.fetchQuoted double = .ok x)
    (ends : w.length ≤ x.cursor.rest.length) :
    ∃ y, t.fetchQuoted double = .ok y ∧ Stays source (c :: v) w w' x y := by
  rw [fetchQuoted] at hx ⊢
  obtain ⟨a, added, hx⟩ := bind_eq_ok.mp hx
  obtain ⟨b, added', faces, -⟩ := f.carries_addCandidate a added
  obtain ⟨drop, drop'⟩ := faces.drop_one
  rw [drop] at hx
  cases read : Quoted.read double (v ++ w) with
  | error e =>
    rw [read] at hx
    cases hx
  | ok text =>
    rw [read] at hx
    cases hx
    have left : (a.cursor.reach text.2).rest.length = text.2.length := by
      have shorter := Quoted.length_read_le read
      rw [Cursor.rest_reach, List.length_drop, faces.rest, List.cons_append, List.length_cons]
      omega
    have suffix := (List.suffix_cons c v).trans inside
    obtain ⟨text', read', kept⟩ := Quoted.stays_read h double suffix text read (left ▸ ends)
    refine ⟨_, bind_eq_ok.mpr ⟨b, added', ?_⟩, stays_takeRead h inside faces kept fun text =>
      .scalar text (if double then .double else .single)⟩
    rw [drop', read']
    rfl

end Tokens

/-! ## Past the place -/

/-- Places behind that where the texts part: both at the end, or level with each other in a line behind
those of some candidates. -/
def Rejoined (l : List Candidate) (c e : Cursor) : Prop :=
  c.rest = [] ∧ e.rest = [] ∨
    c.Level e ∧ 0 < c.mark.index ∧ 0 < e.mark.index ∧ ∀ k ∈ l, k.mark.line < c.mark.line

/-- The last token is a scalar. -/
def EndsInScalar (s : Scanner) : Prop :=
  ∃ text quoting, s.queue.getLast?.map (·.kind) = some (.scalar text quoting)

/-- States past the place. Whether a key may start shows behind a plain scalar how far the gap behind it
was read, which in brackets is not made up for. -/
structure Crossed (s t : Scanner) : Prop where
  level : t.level = s.level
  indent : t.indent = s.indent
  outer : t.outer = s.outer
  candidates : t.candidates = s.candidates
  kinds : t.queue.map (·.kind) = s.queue.map (·.kind)
  taken : t.taken = s.taken
  ended : t.ended = s.ended
  allowed : t.keyAllowed = s.keyAllowed ∨ s.level ≠ 0 ∧ s.EndsInScalar
  rejoined : Rejoined s.candidates s.cursor t.cursor

theorem Rejoined.reach {l : List Candidate} {c e : Cursor} (h : Rejoined l c e) (rest : Text) :
    Rejoined l (c.reach rest) (e.reach rest) := by
  rcases h with ⟨none, none'⟩ | ⟨level, index, index', behind⟩
  · refine .inl ?_
    rw [Cursor.rest_reach, Cursor.rest_reach, none, none']
    exact ⟨List.drop_nil, List.drop_nil⟩
  · refine .inr ⟨level.reach rest, ?_, ?_, fun k hk => ?_⟩
    · exact Nat.lt_of_lt_of_le index (le_reach c rest)
    · exact Nat.lt_of_lt_of_le index' (le_reach e rest)
    · exact Nat.lt_of_lt_of_le (behind k hk) (Cursor.line_le_reach c rest)

section

variable (h : Fork u post w w') (inside : v <:+ u) (f : Facing source v w w' s t)
  (early : ∀ k ∈ s.candidates, k.mark.line ≤ s.cursor.mark.line)
include h inside f early

/-- Going on into the line behind that of the place, or to the end of the text. -/
theorem Facing.rejoined {rest : Text} (further : rest <:+ nextLine post) :
    Rejoined s.candidates (s.cursor.reach rest) (t.cursor.reach rest) := by
  obtain ⟨here, rfl⟩ := f
  have place : s.cursor = ⟨v ++ w, s.cursor.mark⟩ := by rw [← here]
  have ends := h.ends
  cases lines : afterBreak? post with
  | none =>
    have none : post = [] := by
      cases post with
      | nil => rfl
      | cons c r =>
        rw [afterBreak?_break ends] at lines
        cases lines
    subst none
    have none : rest = [] := List.suffix_nil.mp further
    subst none
    exact .inl ⟨Cursor.rest_reach_of_suffix List.nil_suffix, Cursor.rest_reach_of_suffix List.nil_suffix⟩
  | some next =>
    have line : nextLine post = next := by rw [nextLine, lines]; rfl
    rw [line] at further
    obtain ⟨level, later⟩ := h.level_nextLine inside s.cursor.mark lines
    have shorter := length_afterBreak?_lt lines
    have old := h.suffix_post.1.length_le
    have new := h.suffix_post.2.length_le
    have there : Rejoined s.candidates (s.cursor.reach next)
        ((s.onto source (v ++ w')).cursor.reach next) := by
      rw [← place] at level later
      refine .inr ⟨level, ?_, ?_, fun k hk => Nat.lt_of_le_of_lt (early k hk) later⟩
      · rw [Cursor.index_reach, here, List.length_append]
        omega
      · rw [Cursor.index_reach, cursor_onto, List.length_append]
        omega
    have suffix := Margin.suffix_afterBreak? lines
    rw [← Cursor.reach_reach (c := s.cursor)
        (here ▸ (suffix.trans h.suffix_post.1).trans (List.suffix_append v w)) further,
      ← Cursor.reach_reach (c := (s.onto source (v ++ w')).cursor)
        ((suffix.trans h.suffix_post.2).trans (List.suffix_append v w')) further]
    exact there.reach rest

end

/-! ## To the next token -/

/-- From states past the place the way to the next token is the same. -/
theorem crossed_toNextToken {m n : Nat} (x : Crossed s t) (hm : s.cursor.rest.length < m)
    (hn : t.cursor.rest.length < n) : Crossed (toNextToken m s) (toNextToken n t) := by
  have rests : t.cursor.rest = s.cursor.rest := by
    rcases x.rejoined with ⟨none, none'⟩ | ⟨level, -⟩
    · rw [none, none']
    · exact level.rest
  induction m generalizing n s t with
  | zero => omega
  | succ m ih =>
    cases n with
    | zero => omega
    | succ n =>
      simp only [toNextToken, rests]
      have going (rest : Text) := x.rejoined.reach rest
      cases line : afterBreak? (skipComment s.cursor.rest) with
      | none => exact { x with rejoined := going _ }
      | some next =>
        have shorter := length_afterBreak?_lt line
        have comment := length_skipComment_le s.cursor.rest
        have left : (s.cursor.reach next).rest.length < s.cursor.rest.length := by
          rw [Cursor.rest_reach, List.length_drop]
          omega
        have left' : (t.cursor.reach next).rest = (s.cursor.reach next).rest := by
          rw [Cursor.rest_reach, Cursor.rest_reach, rests]
        refine ih { x with rejoined := going next, allowed := ?_ } ?_ ?_ left'
        · dsimp only
          rw [x.level]
          rcases x.allowed with same | ⟨within, scalar⟩
          · exact .inl (congrArg (· || s.level == 0) same)
          · exact .inr ⟨within, scalar⟩
        · dsimp only
          omega
        · dsimp only
          rw [left']
          rw [rests] at hn
          omega

/-- What the way to the next token leads to: a place before that where the texts part, or past it. -/
inductive Meets (u source w w' : Text) (s t : Scanner) : Prop
  | facing {c : Char} {v : Text} (inside : c :: v <:+ u) (f : Facing source (c :: v) w w' s t)
  | crossed (x : Crossed s t)

theorem Facing.crossed (f : Facing source v w w' s t) {c e : Cursor} (a : Bool)
    (past : Rejoined s.candidates c e) :
    Crossed { s with cursor := c, keyAllowed := a } { t with cursor := e, keyAllowed := a } := by
  obtain ⟨rest, rfl⟩ := f
  exact ⟨rfl, rfl, rfl, rfl, rfl, rfl, rfl, .inl rfl, past⟩

theorem toNextToken_of_none {n : Nat} (line : afterBreak? (skipComment s.cursor.rest) = none) :
    toNextToken (n + 1) s = { s with cursor := s.cursor.reach (skipComment s.cursor.rest) } := by
  simp only [toNextToken, line]

theorem toNextToken_of_some {n : Nat} {next : Text}
    (line : afterBreak? (skipComment s.cursor.rest) = some next) :
    toNextToken (n + 1) s = toNextToken n
      { s with cursor := s.cursor.reach next, keyAllowed := s.keyAllowed || s.level == 0 } := by
  simp only [toNextToken, line]

theorem length_rest_lt {next : Text} (line : afterBreak? (skipComment s.cursor.rest) = some next) :
    (s.cursor.reach next).rest.length < s.cursor.rest.length := by
  have shorter := length_afterBreak?_lt line
  have comment := length_skipComment_le s.cursor.rest
  rw [Cursor.rest_reach, List.length_drop]
  omega

theorem meets_toNextToken (h : Fork u post w w') {m n : Nat} (inside : v <:+ u)
    (f : Facing source v w w' s t) (early : ∀ k ∈ s.candidates, k.mark.line ≤ s.cursor.mark.line)
    (hm : s.cursor.rest.length < m) (hn : t.cursor.rest.length < n) :
    Meets u source w w' (toNextToken m s) (toNextToken n t) := by
  induction m generalizing n s t v with
  | zero => omega
  | succ m ih =>
    cases n with
    | zero => omega
    | succ n =>
      have same := f.same
      have rest := f.rest
      subst same
      have rest' : (s.onto source (v ++ w')).cursor.rest = v ++ w' := rfl
      have left {next : Text} (line : afterBreak? (skipComment (v ++ w)) = some next) :
          (s.cursor.reach next).rest.length < m := by
        have shorter := length_rest_lt (s := s) (by rw [rest]; exact line)
        omega
      have left' {next : Text} (line : afterBreak? (skipComment (v ++ w')) = some next) :
          ((s.onto source (v ++ w')).cursor.reach next).rest.length < n := by
        have shorter := length_rest_lt (s := s.onto source (v ++ w')) line
        omega
      have past {next : Text} (further : next <:+ nextLine post) := f.rejoined h inside early further
      rcases h.skipComment_eq v with ⟨old, new⟩ | ⟨some, old, new⟩
      · rw [← rest] at old
        cases line : afterBreak? post with
        | none =>
          have ends : nextLine post = post := by rw [nextLine, line, Option.getD_none]
          rw [toNextToken_of_none (by rw [old, line]), toNextToken_of_none (by rw [rest', new, line]), old,
            rest', new]
          exact .crossed (f.crossed s.keyAllowed (past (by simp only [ends, List.suffix_rfl])))
        | some next =>
          have lines : nextLine post = next := by rw [nextLine, line, Option.getD_some]
          rw [toNextToken_of_some (by rw [old, line]), toNextToken_of_some (by rw [rest', new, line])]
          refine .crossed (crossed_toNextToken
            (f.crossed (s.keyAllowed || s.level == 0) (past (by simp only [lines, List.suffix_rfl]))) ?_ ?_)
          · exact left (by rw [← rest, old, line])
          · exact left' (by rw [new, line])
      · obtain ⟨c, r, here⟩ := List.exists_cons_of_ne_nil some
        have suffix := here ▸ Margin.suffix_skipComment v
        rw [here] at old new
        cases stops : isBreak c with
        | false =>
          rw [toNextToken_of_none (by rw [rest, old]; exact afterBreak?_inside stops _),
            toNextToken_of_none (by rw [rest', new]; exact afterBreak?_inside stops _), rest, old, rest',
            new]
          exact .facing (suffix.trans inside) (f.goto h inside suffix s.keyAllowed)
        | true =>
          obtain ⟨z, behind, next, next'⟩ := h.afterBreak?_eq (suffix.trans inside) stops
          rw [toNextToken_of_some (by rw [rest, old, next]),
            toNextToken_of_some (by rw [rest', new, next'])]
          have within := behind.trans ((List.suffix_cons c r).trans suffix)
          refine ih (within.trans inside) (f.goto h inside within (s.keyAllowed || s.level == 0)) ?_ ?_ ?_
          · exact fun k hk => Nat.le_trans (early k hk) (Cursor.line_le_reach _ _)
          · exact left (by rw [old, next])
          · exact left' (by rw [new, next'])

/-! ## Over a gap -/

/-- Going to a place that the way to the next token comes by anyway. -/
theorem toNextToken_reach {n : Nat} {x : Text} (suffix : x <:+ s.cursor.rest)
    (same : skipComment s.cursor.rest = skipComment x) :
    toNextToken (n + 1) s = toNextToken (n + 1) { s with cursor := s.cursor.reach x } := by
  have there := Cursor.rest_reach_of_suffix suffix
  have comment := Margin.suffix_skipComment x
  cases line : afterBreak? (skipComment x) with
  | none =>
    rw [toNextToken_of_none (by rw [same, line]), toNextToken_of_none (by dsimp only; rw [there, line])]
    dsimp only
    rw [there, same, Cursor.reach_reach suffix comment]
  | some next =>
    rw [toNextToken_of_some (by rw [same, line]), toNextToken_of_some (by dsimp only; rw [there, line])]
    dsimp only
    rw [Cursor.reach_reach suffix ((Margin.suffix_afterBreak? line).trans comment)]

/-- In front of a line break a key may start behind it anyway. -/
theorem toNextToken_allow {n : Nat} {next : Text}
    (line : afterBreak? (skipComment s.cursor.rest) = some next) :
    toNextToken (n + 1) { s with keyAllowed := s.keyAllowed || s.level == 0 } =
      toNextToken (n + 1) s := by
  rw [toNextToken_of_some line, toNextToken_of_some (by exact line)]
  dsimp only
  rw [Bool.or_assoc, Bool.or_self]

/-- Spaces and line breaks make no difference but that a line break may make room for a key. -/
theorem toNextToken_spans {g r : Text} (blank : ∀ c ∈ g, c = ' ' ∨ isBreak c = true)
    (here : s.cursor.rest = g ++ r) {m n : Nat} (hm : s.cursor.rest.length < m) (hn : r.length < n) :
    toNextToken m s = toNextToken n
      { s with
        cursor := s.cursor.reach r, keyAllowed := s.keyAllowed || (s.level == 0 && g.any isBreak) } := by
  induction g generalizing s m with
  | nil =>
    have rest : s.cursor.rest = r := here
    have stays : s.cursor.reach r = s.cursor := by rw [← rest, Cursor.reach_self]
    rw [stays, List.any_nil, Bool.and_false, Bool.or_false]
    exact toNextToken_steps hm (by rw [rest]; exact hn)
  | cons c g ih =>
    obtain ⟨first, more⟩ := List.forall_mem_cons.mp blank
    have suffix : g ++ r <:+ s.cursor.rest := here ▸ List.suffix_cons c (g ++ r)
    have there := Cursor.rest_reach_of_suffix suffix
    have shorter : (s.cursor.reach (g ++ r)).rest.length + 1 = s.cursor.rest.length := by
      rw [there, here]
      rfl
    have further := Cursor.reach_reach suffix (List.suffix_append g r)
    have allowed (a : Bool) : (s.keyAllowed || s.level == 0 || (s.level == 0 && a)) =
        (s.keyAllowed || s.level == 0) := by
      cases s.level == 0 <;> simp
    obtain ⟨m, rfl⟩ : ∃ k, m = k + 1 := ⟨m - 1, by omega⟩
    rcases first with rfl | stops
    · have comment : skipComment s.cursor.rest = skipComment (g ++ r) := by
        rw [here]
        exact skipComment_space _
      rw [toNextToken_reach suffix comment, ih more there (by dsimp only; omega)]
      dsimp only
      rw [further]
      rfl
    · have comment : skipComment s.cursor.rest = c :: (g ++ r) := by
        rw [here]
        exact skipComment_of_ends stops
      have any : (c :: g).any isBreak = true := by rw [List.any_cons, stops, Bool.true_or]
      rw [any, Bool.and_true]
      cases pair : isReturnOfPair c (g ++ r) with
      | false =>
        have line : afterBreak? (skipComment s.cursor.rest) = some (g ++ r) := by
          rw [comment, afterBreak?_break stops, pair]
          rfl
        rw [toNextToken_of_some line, ih more there (by dsimp only; omega)]
        dsimp only
        rw [further, allowed]
      | true =>
        -- The line feed ends the line from where the carriage return is and from where it is itself.
        rw [isReturnOfPair, Bool.and_eq_true, beq_iff_eq, beq_iff_eq] at pair
        obtain ⟨rfl, feed⟩ := pair
        obtain ⟨y, hy⟩ := List.head?_eq_some_iff.mp feed
        have line : afterBreak? (skipComment s.cursor.rest) = some y := by
          rw [comment, hy]
          rfl
        have line' : afterBreak? (skipComment (s.cursor.reach (g ++ r)).rest) = some y := by
          rw [there, hy, skipComment_of_ends rfl]
          rfl
        have passed : toNextToken (m + 1) s =
            toNextToken (m + 1) { s with cursor := s.cursor.reach (g ++ r) } := by
          rw [toNextToken_of_some line, toNextToken_of_some (by exact line')]
          dsimp only
          rw [Cursor.reach_reach suffix (hy ▸ List.suffix_cons '\n' y)]
        have allow := toNextToken_allow (s := { s with cursor := s.cursor.reach (g ++ r) }) (n := m) line'
        rw [passed, ← allow, ih more (by exact there) (by dsimp only; omega)]
        dsimp only
        rw [further, allowed]

/-- In brackets the way to the next token leaves it as it is whether a key may start. -/
theorem toNextToken_within {n : Nat} (within : s.level ≠ 0) (a : Bool) :
    toNextToken n { s with keyAllowed := a } = { toNextToken n s with keyAllowed := a } := by
  have outside : (s.level == 0) = false := beq_eq_false_iff_ne.mpr within
  induction n generalizing s with
  | zero => rfl
  | succ n ih =>
    cases line : afterBreak? (skipComment s.cursor.rest) with
    | none =>
      rw [toNextToken_of_none line, toNextToken_of_none (by exact line)]
    | some next =>
      rw [toNextToken_of_some line, toNextToken_of_some (by exact line), outside, Bool.or_false,
        Bool.or_false]
      have goes := ih (s := { s with cursor := s.cursor.reach next }) within outside
      exact goes

end YamlEdit.Scan.Scanner
