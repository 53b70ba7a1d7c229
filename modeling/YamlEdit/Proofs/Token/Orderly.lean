import YamlEdit.Proofs.Token.Nest

/-!
# Orderly tokens

Every token of a feed lies in its text, every two neighbours have nothing but a gap between them, and
the tokens are nested. Each fetch keeps this of the tokens so far, and what is taken off the queue
does not change any more.
-/

namespace YamlEdit

open Scan

namespace Scan.Scanner

variable {src : Text} {all : List Token} {columns : List Nat} {s t u : Scanner}

/-! ## Steps of a fetch -/

/-- A scanner at its next token: every candidate has its token, and the blocks that go on do not
begin behind the cursor. -/
structure Ready (src : Text) (all : List Token) (columns : List Nat) (s : Scanner) : Prop where
  trail : Trail src all columns s
  filled : Filled all s
  low : s.level = 0 → ∀ c ∈ columns.head?, c ≤ s.cursor.mark.column

theorem Onward.of_append (more : List Token) {taken : Nat} (h : Onward src (all ++ more) taken t)
    (room : taken ≤ all.length) : Onward src all taken t := by
  obtain ⟨all', columns', trail, filled, same, prefix_⟩ := h
  exact ⟨all', columns', trail, filled, same,
    prefix_.trans (List.take_append_of_le_length room)⟩

/-- Going on over a gap. -/
theorem Onward.goto {taken : Nat} (h : Onward src all taken t) {rest : Text}
    (ahead : Ahead t.cursor.rest rest) (a : Bool) :
    Onward src all taken { t with cursor := t.cursor.reach rest, keyAllowed := a } := by
  obtain ⟨all', columns', trail, filled, same, prefix_⟩ := h
  exact ⟨all', columns', trail.goto filled (trail.cursor.reach rest) (.of_ahead trail.cursor ahead) a,
    filled, same, prefix_⟩

theorem Trail.onward_takeTo (h : Trail src all columns u) {kind : Token.Kind}
    (inert : kind.isInert = true) (rest : Text) : Onward src all u.taken (u.takeTo kind rest) := by
  obtain ⟨t, trail, filled⟩ := h.takeTo inert rest
  exact trail.onward filled h.room

theorem le_reach (c : Cursor) (rest : Text) : c.mark.index ≤ (c.reach rest).mark.index := by
  rw [Cursor.index_reach]
  exact Nat.le_add_right _ _

theorem Ready.dropCandidate (h : Ready src all columns s) (a : Bool)
    (hu : { s with keyAllowed := a }.dropCandidate = .ok u) :
    Trail src all columns u ∧ u.taken = s.taken ∧ u.level = s.level ∧ u.cursor = s.cursor ∧
      ∀ k ∈ u.candidates, k.level ≠ s.level := by
  obtain ⟨l, rfl, sub, other⟩ := dropCandidate_eq_ok hu
  exact ⟨(h.trail.allow a).keep sub, rfl, rfl, rfl, other⟩

/-- Ending all blocks. -/
theorem Ready.leave (h : Ready src all columns s)
    (hu : (s.unwind (-1)).dropCandidate = .ok u) :
    ∃ more columns', Trail src (all ++ more) columns' u ∧ u.taken = s.taken := by
  obtain ⟨l, rfl, sub, other⟩ := dropCandidate_unwind hu
  obtain ⟨more, columns', trail, -, -⟩ := (h.trail.keep sub).unwind
    (fun k hk => h.filled k (sub.mem hk)) (-1)
    (fun outside => .inl (h.trail.dropped_eq_nil sub other outside))
  refine ⟨more, columns', trail, ?_⟩
  obtain ⟨q, i, o, shape⟩ := unwind_shape { s with candidates := l } (-1)
  rw [shape]

/-- Entering a block, where no candidate may stay. -/
theorem Ready.enter (h : Ready src all columns s) {kind : Token.Kind}
    (block : kind = .blockMappingStart ∨
      kind = .blockSequenceStart ∧ s.cursor.rest.head? = some '-') {a : Bool}
    (hu : { s.startBlock kind with keyAllowed := a }.dropCandidate = .ok u) :
    ∃ more columns', Trail src (all ++ more) columns' u ∧ u.taken = s.taken ∧ u.level = s.level ∧
      u.cursor = s.cursor ∧ (u.level = 0 → columns'.head? = some u.cursor.mark.column) ∧
      ∀ k ∈ u.candidates, k.level ≠ u.level := by
  obtain ⟨l, rfl, sub, other⟩ := dropCandidate_startBlock hu
  obtain ⟨more, columns', trail, -, column⟩ := (h.trail.keep sub).startBlock
    (fun k hk => h.filled k (sub.mem hk)) (h.trail.dropped_eq_nil sub other) h.low block
  obtain ⟨q, i, o, shape⟩ := startBlock_shape { s with candidates := l } kind
  refine ⟨more, columns', trail.allow a, ?_⟩
  rw [shape] at *
  exact ⟨rfl, rfl, rfl, column, other⟩

/-! ## The tokens -/

section Fetch

theorem onward_fetchEnd (h : Ready src all columns s) (ht : s.fetchEnd = .ok t) :
    Onward src all s.taken t := by
  rw [fetchEnd] at ht
  obtain ⟨u, hu, ht⟩ := bind_eq_ok.mp ht
  cases ht
  obtain ⟨more, columns', trail, taken⟩ := h.leave hu
  have room := h.trail.room
  have inside := trail.cursor
  refine .of_append more ?_ room
  obtain ⟨pushed, filled⟩ := trail.push (t := ⟨.streamEnd, u.cursor.mark, u.cursor.mark⟩)
    (u := { ({ u with keyAllowed := false, candidates := [] } : Scanner).pushHere .streamEnd with
      ended := true }) rfl (.of_isInert rfl inside.mark inside.mark (Nat.le_refl _)) inside
    ⟨Nat.le_refl _, fun _ => .refl src _⟩ rfl rfl (List.nil_sublist _) trail.indents rfl
    (fun _ hk => absurd hk List.not_mem_nil) (fun _ hk => absurd hk List.not_mem_nil)
  rw [← taken]
  exact pushed.onward filled trail.room

theorem onward_fetchDirective (h : Ready src all columns s) (ht : s.fetchDirective = .ok t) :
    Onward src all s.taken t := by
  rw [fetchDirective] at ht
  obtain ⟨u, hu, ht⟩ := bind_eq_ok.mp ht
  obtain ⟨more, columns', trail, taken⟩ := h.leave hu
  split at ht
  · cases ht
  · next line _ =>
    cases ht
    refine .of_append more ?_ h.trail.room
    rw [← taken]
    have inside := trail.cursor
    have stop := inside.reach line.stop
    obtain ⟨pushed, filled⟩ := trail.push
      (t := ⟨.directive line.directive, u.cursor.mark, (u.cursor.reach line.stop).mark⟩)
      (u := { u.takeTo (.directive line.directive) line.stop with
        keyAllowed := false, cursor := (u.cursor.reach line.stop).reach line.rest })
      rfl (.of_isInert rfl inside.mark stop.mark (le_reach _ _)) (stop.reach line.rest)
      ⟨le_reach _ _, fun other => Bool.noConfusion other⟩ rfl rfl (.refl _) trail.indents rfl
      (fun k hk => (trail.waits k hk).level) (fun _ _ _ => ⟨rfl, fun _ => rfl⟩)
    exact pushed.onward filled trail.room

theorem onward_fetchSeparator (h : Ready src all columns s) {kind : Token.Kind}
    (inert : kind.isInert = true) (ht : s.fetchSeparator kind = .ok t) :
    Onward src all s.taken t := by
  rw [fetchSeparator] at ht
  obtain ⟨u, hu, ht⟩ := bind_eq_ok.mp ht
  cases ht
  obtain ⟨more, columns', trail, taken⟩ := h.leave hu
  refine .of_append more ?_ h.trail.room
  rw [← taken]
  exact (trail.allow false).onward_takeTo inert _

/-- A bracket or brace: candidates stay only outside of it. -/
theorem Trail.onward_bracket (h : Trail src all columns u) {kind : Token.Kind} {level : Nat}
    {a : Bool} (bracket : (kind != .blockEntry && kind != .blockSequenceStart) = true)
    (took : ∀ start stop cs, Nest.take? ⟨u.level, cs⟩ ⟨kind, start, stop⟩ = some ⟨level, cs⟩)
    (levels : ∀ k ∈ u.candidates, k.level ≤ level) :
    Onward src all u.taken (({ u with level := level, keyAllowed := a } : Scanner).takeChars kind 1) := by
  have inside := h.cursor
  have stop := inside.reach (u.cursor.rest.drop 1)
  obtain ⟨pushed, filled⟩ := h.push
    (t := ⟨kind, u.cursor.mark, (u.cursor.reach (u.cursor.rest.drop 1)).mark⟩)
    (u := ({ u with level := level, keyAllowed := a } : Scanner).takeChars kind 1) rfl
    (.of_other bracket inside.mark stop.mark (le_reach _ _)) stop
    ⟨Nat.le_refl _, fun _ => .refl src _⟩ rfl rfl (.refl _) h.indents (took _ _ columns) levels
    (fun _ _ _ => ⟨rfl, took _ _⟩)
  exact pushed.onward filled h.room

theorem onward_fetchOpening (h : Ready src all columns s) {kind : Token.Kind}
    (opening : kind = .flowSequenceStart ∨ kind = .flowMappingStart)
    (ht : s.fetchOpening kind = .ok t) : Onward src all s.taken t := by
  rw [fetchOpening] at ht
  obtain ⟨u, hu, ht⟩ := bind_eq_ok.mp ht
  cases ht
  obtain ⟨trail, -, taken, -⟩ := h.trail.addCandidate h.filled h.low hu
  rw [← taken]
  refine trail.onward_bracket ?_ ?_ fun k hk => Nat.le_succ_of_le (trail.waits k hk).level
  · rcases opening with rfl | rfl <;> rfl
  · rcases opening with rfl | rfl <;> exact fun _ _ _ => rfl

theorem onward_fetchClosing (h : Ready src all columns s) {kind : Token.Kind}
    (closing : kind = .flowSequenceEnd ∨ kind = .flowMappingEnd)
    (ht : s.fetchClosing kind = .ok t) : Onward src all s.taken t := by
  rw [fetchClosing] at ht
  obtain ⟨u, hu, ht⟩ := bind_eq_ok.mp ht
  cases ht
  obtain ⟨trail, taken, level, -, other⟩ := h.dropCandidate s.keyAllowed hu
  rw [← taken]
  refine trail.onward_bracket ?_ ?_ fun k hk => ?_
  · rcases closing with rfl | rfl <;> rfl
  · rcases closing with rfl | rfl <;> exact fun _ _ _ => rfl
  · have bound := (trail.waits k hk).level
    have apart := other k hk
    omega

theorem onward_fetchFlowEntry (h : Ready src all columns s) (ht : s.fetchFlowEntry = .ok t) :
    Onward src all s.taken t := by
  rw [fetchFlowEntry] at ht
  obtain ⟨u, hu, ht⟩ := bind_eq_ok.mp ht
  cases ht
  obtain ⟨trail, taken, -⟩ := h.dropCandidate true hu
  rw [← taken]
  exact trail.onward_takeTo rfl _

theorem onward_fetchBlockEntry (h : Ready src all columns s) {r : Text}
    (here : s.cursor.rest = '-' :: r) (space : atSpace r = true)
    (ht : s.fetchBlockEntry = .ok t) : Onward src all s.taken t := by
  rw [fetchBlockEntry] at ht
  obtain ⟨-, ht⟩ := guard_eq_ok.mp ht
  obtain ⟨u, hu, ht⟩ := bind_eq_ok.mp ht
  cases ht
  obtain ⟨more, columns', trail, taken, level, cursor, column, other⟩ :=
    h.enter (.inr ⟨rfl, by rw [here]; rfl⟩) hu
  refine .of_append more ?_ h.trail.room
  rw [← taken]
  have inside := trail.cursor
  have stop := inside.reach (u.cursor.rest.drop 1)
  have next : src.drop u.cursor.mark.index = '-' :: r := by rw [← inside.rest, cursor, here]
  have behind : (u.cursor.reach (u.cursor.rest.drop 1)).mark.index = u.cursor.mark.index + 1 := by
    rw [Cursor.index_reach, cursor, here]
    simp
  obtain ⟨pushed, filled⟩ := trail.push
    (t := ⟨.blockEntry, u.cursor.mark, (u.cursor.reach (u.cursor.rest.drop 1)).mark⟩)
    (u := u.takeChars .blockEntry 1) rfl
    ⟨inside.mark, stop.mark, le_reach _ _, fun _ => ⟨r, next, space, behind⟩,
      fun other => by cases other⟩ stop
    ⟨Nat.le_refl _, fun _ => .refl src _⟩ rfl rfl (.refl _) trail.indents
    (if_neg fun wrong => wrong.2 (column wrong.1))
    (fun k hk => (trail.waits k hk).level) (fun k hk outside => by
      have bound := (trail.waits k hk).level
      have apart := other k hk
      exact ⟨rfl, fun cs => if_neg fun none => apart (outside.trans none.1.symm)⟩)
  exact pushed.onward filled trail.room

theorem onward_fetchKey (h : Ready src all columns s) (ht : s.fetchKey = .ok t) :
    Onward src all s.taken t := by
  rw [fetchKey] at ht
  obtain ⟨-, ht⟩ := guard_eq_ok.mp ht
  obtain ⟨u, hu, ht⟩ := bind_eq_ok.mp ht
  cases ht
  obtain ⟨more, columns', trail, taken, -⟩ := h.enter (.inl rfl) hu
  refine .of_append more ?_ h.trail.room
  rw [← taken]
  exact trail.onward_takeTo rfl _

/-- The candidates at another nesting than a candidate's come before it. -/
theorem Trail.earlier (h : Trail src all columns s) {k l : Candidate} (hk : k ∈ s.candidates)
    (level : k.level = s.level) (hl : l ∈ s.forget.candidates) : l.number < k.number := by
  obtain ⟨hl, other⟩ := List.mem_filter.mp hl
  have other : l.level ≠ s.level := by simpa using other
  have bound := (h.waits l hl).level
  have apart : l ≠ k := by
    rintro rfl
    exact other level
  have order := List.pairwise_iff_getElem.mp h.order
  obtain ⟨i, hi, rfl⟩ := List.getElem_of_mem hk
  obtain ⟨j, hj, rfl⟩ := List.getElem_of_mem hl
  rcases Nat.lt_trichotomy i j with less | same | more
  · have := (order i j hi hj less).1
    omega
  · subst same
    exact absurd rfl apart
  · exact (order j i hj hi more).2

/-- The tokens around the one that a candidate stands for. -/
theorem Ready.around (h : Ready src all columns s) {k : Candidate} (hk : k ∈ s.candidates) :
    ∃ before b after, all = before ++ b :: after ∧ k.number = before.length ∧ b.start = k.mark := by
  have inside := h.filled k hk
  have starts := (h.trail.waits k hk).starts
  rw [List.getElem?_eq_getElem inside] at starts
  refine ⟨all.take k.number, all[k.number], all.drop (k.number + 1), ?_, ?_, starts⟩
  · rw [List.getElem_cons_drop, List.take_append_drop]
  · rw [List.length_take, Nat.min_eq_left (Nat.le_of_lt inside)]

/-- The candidate becomes a key, and it starts a mapping if it is past the block that goes on. -/
theorem Ready.makeKey (h : Ready src all columns s) {k : Candidate} (hk : k ∈ s.candidates)
    (level : k.level = s.level) :
    ∃ all' columns', all'.take s.taken = all.take s.taken ∧ Trail src all' columns'
      (if (s.forget.insertBefore k .key).opensBlock k.mark.column then
        ((s.forget.insertBefore k .key).enter k.mark.column).insertBefore k .blockMappingStart
      else s.forget.insertBefore k .key) := by
  have trail := h.trail
  have waits := trail.waits k hk
  obtain ⟨before, b, after, rfl, number, starts⟩ := h.around hk
  have same (more : List Token) :
      (before ++ more).take s.taken = (before ++ b :: after).take s.taken := by
    have room : s.taken ≤ before.length := number ▸ waits.taken
    rw [List.take_append_of_le_length room, List.take_append_of_le_length room]
  have key := And.left (trail.insert (t := ⟨.key, k.mark, k.mark⟩)
    (u := s.forget.insertBefore k .key) number waits.taken starts.symm starts.symm
    (.of_isInert rfl waits.mark waits.mark (Nat.le_refl _)) rfl rfl rfl rfl trail.indents
    ((Nest.run_insert rfl _ _ _).trans trail.nest) List.filter_sublist
    (fun l hl => trail.earlier hk level hl) fun _ _ _ => ⟨rfl, rfl⟩)
  split
  · next opens =>
    have outside : s.level = 0 := eq_of_beq (Bool.and_eq_true_iff.mp opens).1
    have free (l : Candidate) (hl : l ∈ s.forget.candidates) : False := by
      obtain ⟨hl, other⟩ := List.mem_filter.mp hl
      have bound := (trail.waits l hl).level
      have apart : l.level ≠ s.level := by simpa using other
      omega
    refine ⟨_, k.mark.column :: columns, same _, And.left (key.insert (t := ⟨.blockMappingStart, k.mark, k.mark⟩)
      (u := ((s.forget.insertBefore k .key).enter k.mark.column).insertBefore k .blockMappingStart)
      number waits.taken rfl rfl
      (.of_other rfl waits.mark waits.mark (Nat.le_refl _)) rfl rfl rfl rfl
      (congrArg _ trail.indents) ?_ (.refl _) (fun l hl => (free l hl).elim)
      fun l hl => (free l hl).elim)⟩
    have above := waits.above (level.trans outside)
    have still := waits.still (level.trans outside) (k.mark.column :: columns)
    rw [number, List.take_left] at above
    rw [number, List.drop_left] at still
    rw [Nest.run_append, above, Option.bind_some, ← List.singleton_append, Nest.run_append]
    exact (Nest.run_insert rfl _ [] _).trans still
  · exact ⟨_, _, same _, key⟩

theorem onward_fetchValue (h : Ready src all columns s) (ht : s.fetchValue = .ok t) :
    Onward src all s.taken t := by
  rw [fetchValue] at ht
  split at ht
  · next k found =>
    dsimp only at ht
    cases ht
    obtain ⟨all', columns', same, key⟩ :=
      h.makeKey (List.mem_of_find?_eq_some found) (by simpa using List.find?_some found)
    generalize hu : (if (s.forget.insertBefore k .key).opensBlock k.mark.column then
      ((s.forget.insertBefore k .key).enter k.mark.column).insertBefore k .blockMappingStart
      else s.forget.insertBefore k .key) = u at key
    have taken : u.taken = s.taken := by
      rw [← hu]
      split <;> rfl
    obtain ⟨all'', columns'', trail, filled, taken', same'⟩ := (key.allow false).onward_takeTo
      (show Token.Kind.value.isInert = true from rfl) (u.cursor.rest.drop 1)
    refine ⟨all'', columns'', trail, filled, taken'.trans taken, ?_⟩
    rw [← same, ← taken]
    exact same'
  · obtain ⟨-, ht⟩ := guard_eq_ok.mp ht
    obtain ⟨u, hu, ht⟩ := bind_eq_ok.mp ht
    cases ht
    obtain ⟨more, columns', trail, taken, -⟩ := h.enter (.inl rfl) hu
    refine .of_append more ?_ h.trail.room
    rw [← taken]
    exact trail.onward_takeTo rfl _

theorem onward_fetchName (h : Ready src all columns s) {of : ScanFault.Owner}
    {kind : Text → Token.Kind} (inert : ∀ name, (kind name).isInert = true)
    (ht : s.fetchName of kind = .ok t) : Onward src all s.taken t := by
  rw [fetchName] at ht
  obtain ⟨u, hu, ht⟩ := bind_eq_ok.mp ht
  obtain ⟨trail, -, taken, -⟩ := h.trail.addCandidate h.filled h.low hu
  split at ht
  · cases ht
  · cases ht
    rw [← taken]
    exact (trail.allow false).onward_takeTo (inert _) _

theorem onward_fetchTag (h : Ready src all columns s) (ht : s.fetchTag = .ok t) :
    Onward src all s.taken t := by
  rw [fetchTag] at ht
  obtain ⟨u, hu, ht⟩ := bind_eq_ok.mp ht
  obtain ⟨trail, -, taken, -⟩ := h.trail.addCandidate h.filled h.low hu
  split at ht
  · cases ht
  · cases ht
    rw [← taken]
    exact (trail.allow false).onward_takeTo rfl _

theorem onward_fetchBlock (h : Ready src all columns s) {folds : Bool}
    (ht : s.fetchBlock folds = .ok t) : Onward src all s.taken t := by
  rw [fetchBlock] at ht
  obtain ⟨u, hu, ht⟩ := bind_eq_ok.mp ht
  obtain ⟨trail, taken, -⟩ := h.dropCandidate true hu
  split at ht
  · cases ht
  · next r read =>
    cases ht
    rw [← taken]
    obtain ⟨suffix, ahead⟩ := Block.leaves_read read
    refine (trail.onward_takeTo rfl r.stop).goto ?_ u.keyAllowed
    show Ahead (u.cursor.reach r.stop).rest r.rest
    rw [Cursor.rest_reach_of_suffix (suffix.trans (List.drop_suffix 1 _))]
    exact ahead

theorem onward_fetchQuoted (h : Ready src all columns s) {double : Bool}
    (ht : s.fetchQuoted double = .ok t) : Onward src all s.taken t := by
  rw [fetchQuoted] at ht
  obtain ⟨u, hu, ht⟩ := bind_eq_ok.mp ht
  obtain ⟨trail, -, taken, -⟩ := h.trail.addCandidate h.filled h.low hu
  split at ht
  · cases ht
  · cases ht
    rw [← taken]
    exact (trail.allow false).onward_takeTo rfl _

theorem onward_fetchPlain (h : Ready src all columns s) (ht : s.fetchPlain = .ok t) :
    Onward src all s.taken t := by
  rw [fetchPlain] at ht
  obtain ⟨u, hu, ht⟩ := bind_eq_ok.mp ht
  obtain ⟨trail, -, taken, -⟩ := h.trail.addCandidate h.filled h.low hu
  cases ht
  rw [← taken]
  obtain ⟨suffix, ahead⟩ := Plain.leaves_read (u.level != 0) (u.indent + 1).toNat u.cursor.rest
  refine (trail.onward_takeTo rfl _).goto ?_ _
  show Ahead (u.cursor.reach _).rest _
  rw [Cursor.rest_reach_of_suffix suffix]
  exact ahead

theorem onward_fetchAt (h : Ready src all columns s) {c : Char} {r : Text}
    (here : s.cursor.rest = c :: r) : s.fetchAt c r = .ok t → Onward src all s.taken t := by
  rw [fetchAt]
  refine of_ite_eq (fun _ => onward_fetchDirective h) fun _ => ?_
  refine of_ite_eq (fun _ => onward_fetchSeparator h rfl) fun _ => ?_
  refine of_ite_eq (fun _ => onward_fetchSeparator h rfl) fun _ => ?_
  refine of_ite_eq (fun _ => onward_fetchOpening h (.inl rfl)) fun _ => ?_
  refine of_ite_eq (fun _ => onward_fetchOpening h (.inr rfl)) fun _ => ?_
  refine of_ite_eq (fun _ => onward_fetchClosing h (.inl rfl)) fun _ => ?_
  refine of_ite_eq (fun _ => onward_fetchClosing h (.inr rfl)) fun _ => ?_
  refine of_ite_eq (fun _ => onward_fetchFlowEntry h) fun _ => ?_
  refine of_ite_eq (fun dash => ?_) fun _ => ?_
  · obtain ⟨dash, space⟩ := Bool.and_eq_true_iff.mp dash
    rw [eq_of_beq dash] at here
    exact onward_fetchBlockEntry h here space
  refine of_ite_eq (fun _ => onward_fetchKey h) fun _ => ?_
  refine of_ite_eq (fun _ => onward_fetchValue h) fun _ => ?_
  refine of_ite_eq (fun _ => onward_fetchName h fun _ => rfl) fun _ => ?_
  refine of_ite_eq (fun _ => onward_fetchName h fun _ => rfl) fun _ => ?_
  refine of_ite_eq (fun _ => onward_fetchTag h) fun _ => ?_
  refine of_ite_eq (fun _ => onward_fetchBlock h) fun _ => ?_
  refine of_ite_eq (fun _ => onward_fetchBlock h) fun _ => ?_
  refine of_ite_eq (fun _ => onward_fetchQuoted h) fun _ => ?_
  refine of_ite_eq (fun _ => onward_fetchQuoted h) fun _ => ?_
  refine of_ite_eq (fun _ => onward_fetchPlain h) ?_
  intro _ wrong
  cases wrong

end Fetch

/-! ## On the way to the next token -/

theorem Trail.skipMark (h : Trail src all columns s) (filled : Filled all s) :
    Trail src all columns s.skipMark ∧ Filled all s.skipMark ∧ s.skipMark.taken = s.taken := by
  rw [Scanner.skipMark]
  split
  · next c r here =>
    split
    · next mark =>
      obtain ⟨zero, sign⟩ := Bool.and_eq_true_iff.mp mark
      have zero : s.cursor.mark.index = 0 := eq_of_beq zero
      have sign : c = '\uFEFF' := eq_of_beq sign
      subst sign
      have one : (s.cursor.reach r).mark.index = 1 := by
        rw [Cursor.index_reach, here, zero, List.length_cons]
        omega
      have whole : src = '\uFEFF' :: r := by
        rw [← here, h.cursor.rest, zero, List.drop_zero]
      refine ⟨h.goto filled (h.cursor.reach r) ?_ s.keyAllowed, filled, rfl⟩
      rw [zero, one, whole]
      exact ⟨Nat.zero_le 1, .inr ⟨rfl, [], rfl, rfl⟩⟩
    · exact ⟨h, filled, rfl⟩
  · exact ⟨h, filled, rfl⟩

theorem Trail.toNextToken (h : Trail src all columns s) (filled : Filled all s) (steps : Nat) :
    Trail src all columns (Scanner.toNextToken steps s) ∧
      Filled all (Scanner.toNextToken steps s) ∧ (Scanner.toNextToken steps s).taken = s.taken := by
  induction steps generalizing s with
  | zero => exact ⟨h, filled, rfl⟩
  | succ steps ih =>
    have comment := Ahead.skipComment s.cursor.rest
    rw [Scanner.toNextToken]
    split
    · exact ⟨h.goto filled (h.cursor.reach _) (.of_ahead h.cursor comment) s.keyAllowed, filled, rfl⟩
    · next next stops =>
      exact ih (h.goto filled (h.cursor.reach _)
        (.of_ahead h.cursor (comment.trans (.afterBreak? stops))) _) filled

/-- Blocks that the next token is not in have ended. A candidate outside of brackets is on the same
line and in the block that goes on, so there are none to end then. -/
theorem Trail.ready (h : Trail src all columns s) (filled : Filled all s)
    (fresh : ∀ k ∈ s.candidates, s.isStale k = false) :
    ∃ more columns', Ready src (all ++ more) columns' (s.unwind s.cursor.mark.column) ∧
      (s.unwind s.cursor.mark.column).taken = s.taken := by
  have free : s.level = 0 → s.candidates = [] ∨
      ∀ c ∈ columns.head?, (c : Int) ≤ s.cursor.mark.column := by
    intro outside
    cases hl : s.candidates with
    | nil => exact .inl rfl
    | cons k l =>
      refine .inr fun c hc => ?_
      have hk : k ∈ s.candidates := hl ▸ List.mem_cons_self
      have waits := h.waits k hk
      have here := fresh k hk
      rw [isStale, Bool.or_eq_false_iff] at here
      have line : k.mark.line = s.cursor.mark.line := by simpa using here.1
      have level := waits.level
      have block := waits.indent (by omega) c hc
      have ahead := waits.mark.column_le h.cursor.mark waits.before line.symm
      omega
  obtain ⟨more, columns', trail, filled', low⟩ := h.unwind filled s.cursor.mark.column free
  obtain ⟨q, i, o, shape⟩ := unwind_shape s s.cursor.mark.column
  rw [shape] at trail filled' ⊢
  refine ⟨more, columns', ⟨trail, filled', fun outside c hc => ?_⟩, rfl⟩
  have := low outside (by omega) c hc
  exact Int.ofNat_le.mp this

/-- A fetch goes on from the tokens so far. -/
theorem Trail.fetch (h : Trail src all columns s) (filled : Filled all s) (ht : s.fetch = .ok t) :
    Onward src all s.taken t := by
  rw [Scanner.fetch] at ht
  obtain ⟨u, hu, ht⟩ := bind_eq_ok.mp ht
  obtain ⟨behind, filled, same⟩ := h.skipMark filled
  obtain ⟨there, filled, same'⟩ := behind.toNextToken filled (s.cursor.rest.length + 1)
  rw [same] at same'
  generalize Scanner.toNextToken (s.cursor.rest.length + 1) s.skipMark = v at there filled same' hu
  obtain ⟨l, rfl, sub, fresh⟩ := dropStale_eq_ok hu
  obtain ⟨more, columns', ready, taken⟩ :=
    (there.keep sub).ready (fun k hk => filled k (sub.mem hk)) fresh
  refine .of_append more ?_ h.room
  rw [← same']
  refine taken ▸ ?_
  dsimp only at ht
  split at ht
  · exact onward_fetchEnd ready ht
  · next c r here => exact onward_fetchAt ready here ht

/-! ## Feeds -/

/-- Taking tokens off the queue, up to a candidate. -/
theorem Trail.release {queue : List Token} (h : Trail src all columns { s with queue })
    (filled : Filled all s) :
    Trail src all columns (s.release queue).1 ∧ Filled all (s.release queue).1 ∧
      all.take (s.release queue).1.taken = all.take s.taken ++ (s.release queue).2 := by
  induction queue generalizing s with
  | nil => exact ⟨h, filled, (List.append_nil _).symm⟩
  | cons t queue ih =>
    rw [Scanner.release]
    split
    · exact ⟨h, filled, (List.append_nil _).symm⟩
    · next free =>
      have waiting : t :: queue = all.drop s.taken := h.queue
      have room : s.taken < all.length := by
        have length := congrArg List.length waiting
        rw [List.length_cons, List.length_drop] at length
        omega
      obtain ⟨first, rest⟩ := List.cons.inj (waiting.trans (List.drop_eq_getElem_cons room))
      have trail : Trail src all columns { s with queue, taken := s.taken + 1 } := by
        refine ⟨h.cursor, room, rest, h.lies, h.chain, h.last, h.indents, h.nest, ?_, h.order⟩
        intro k hk
        have waits := h.waits k hk
        have ahead : k.number ≠ s.taken := by
          intro same
          exact free (List.any_eq_true.mpr ⟨k, hk, beq_iff_eq.mpr same⟩)
        have taken : s.taken ≤ k.number := waits.taken
        exact { waits with taken := by dsimp only; omega }
      obtain ⟨released, filled, taken⟩ := ih (s := { s with taken := s.taken + 1 }) trail filled
      refine ⟨released, filled, taken.trans ?_⟩
      rw [List.take_succ_eq_append_getElem room, List.append_assoc, ← first]
      rfl

end Scan.Scanner

/-- Tokens in their text: each lies there, from each to the next there is a gap, and they are nested. -/
structure Orderly (src : Text) (tokens : List Token) : Prop where
  lies : ∀ t ∈ tokens, t.Lies src
  chain : tokens.IsChain fun t u => t.Leads src u.start.index
  nested : (Nest.run {} tokens).isSome

theorem Orderly.of_append {src : Text} {tokens more : List Token} (h : Orderly src (tokens ++ more)) :
    Orderly src tokens := by
  refine ⟨fun t ht => h.lies t (List.mem_append_left _ ht), (List.isChain_append.mp h.chain).1, ?_⟩
  have nested := h.nested
  rw [Nest.run_append] at nested
  cases run : Nest.run {} tokens with
  | none =>
    rw [run] at nested
    cases nested
  | some n => rfl

theorem Orderly.take {src : Text} {tokens : List Token} (h : Orderly src tokens) (n : Nat) :
    Orderly src (tokens.take n) := by
  rw [← List.take_append_drop n tokens] at h
  exact h.of_append

/-- Tokens lie one behind another. -/
theorem Orderly.pairwise {src : Text} {tokens : List Token} (h : Orderly src tokens) :
    tokens.Pairwise fun t u => t.stop.index ≤ u.start.index := by
  let before (t u : Token) : Prop := t.stop.index ≤ u.start.index ∧ u.start.index ≤ u.stop.index
  have : Trans before before before :=
    ⟨fun first second => ⟨Nat.le_trans first.1 (Nat.le_trans first.2 second.1), second.2⟩⟩
  have chain : tokens.IsChain before :=
    h.chain.imp_of_mem_imp fun _ u _ hu leads => ⟨leads.le, (h.lies u hu).le⟩
  exact chain.pairwise.imp And.left

namespace Scan.Scanner

variable {src : Text} {all : List Token} {columns : List Nat} {s : Scanner}

theorem Trail.orderly (h : Trail src all columns s) : Orderly src all :=
  ⟨h.lies, h.chain, by rw [h.nest]; rfl⟩

theorem Trail.take_append_queue (h : Trail src all columns s) :
    all.take s.taken ++ s.queue = all := by
  rw [h.queue, List.take_append_drop]

/-- What a feed gives behind the tokens that were taken so far. -/
theorem orderly_feed (steps : Nat) (h : Trail src all columns s) (filled : Filled all s) :
    Orderly src (all.take s.taken ++ (feed steps s).items) := by
  induction steps generalizing s all columns with
  | zero =>
    show Orderly src (all.take s.taken ++ s.queue)
    rw [h.take_append_queue]
    exact h.orderly
  | succ steps ih =>
    rw [feed]
    split
    · show Orderly src (all.take s.taken ++ s.queue)
      rw [h.take_append_queue]
      exact h.orderly
    · generalize checked : (if s.queue.isEmpty then Except.ok s else s.dropStale) = fresh
      cases fresh with
      | error e =>
        show Orderly src (all.take s.taken ++ [])
        rw [List.append_nil]
        exact h.orderly.take _
      | ok u =>
        obtain ⟨l, rfl, sub⟩ : ∃ l, u = { s with candidates := l } ∧ l.Sublist s.candidates := by
          split at checked
          · cases checked
            exact ⟨s.candidates, rfl, .refl _⟩
          · obtain ⟨l, rfl, sub, -⟩ := dropStale_eq_ok checked
            exact ⟨l, rfl, sub⟩
        have kept : Filled all { s with candidates := l } := fun k hk => filled k (sub.mem hk)
        obtain ⟨released, filled, taken⟩ := (h.keep sub).release kept
        dsimp only
        generalize ({ s with candidates := l } : Scanner).release s.queue = out at *
        obtain ⟨u, tokens⟩ := out
        dsimp only at released filled taken ⊢
        cases fetched : u.fetch with
        | error e =>
          dsimp only
          rw [← taken]
          exact h.orderly.take _
        | ok t =>
          obtain ⟨all', columns', trail, filled, same, prefix_⟩ := released.fetch filled fetched
          have rest := ih trail filled
          dsimp only
          rw [same, prefix_, taken, List.append_assoc] at rest
          exact rest

end Scan.Scanner

/-- The tokens of every text are orderly in it. -/
theorem TokenFeed.orderly_ofText (s : Text) : Orderly s (TokenFeed.ofText s).items := by
  have inside : (Cursor.start s).In s := ⟨Nat.zero_le _, rfl⟩
  have none : Scanner.Trail s [] [] { source := s, cursor := .start s } :=
    ⟨inside, Nat.le_refl _, rfl, nofun, .nil, nofun, rfl, rfl, nofun, .nil⟩
  obtain ⟨start, filled⟩ := none.push (t := ⟨.streamStart, .zero, .zero⟩)
    (u := ({ source := s, cursor := .start s } : Scanner).pushHere .streamStart) rfl
    (.of_isInert rfl inside.mark inside.mark (Nat.le_refl _)) inside
    ⟨Nat.le_refl _, fun _ => .refl s _⟩ rfl rfl (.refl _) rfl rfl nofun nofun
  exact Scanner.orderly_feed _ start filled

end YamlEdit
