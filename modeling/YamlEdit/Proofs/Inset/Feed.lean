import YamlEdit.Proofs.Inset.Scanner

/-!
# The feed of a moved text

One lemma for each kind of token: from states that correspond it fails in both texts or leads to
states that correspond. From them a fetch does, and the feed by induction on the characters that are
left.
-/

namespace YamlEdit

open Scan

namespace Scan.Scanner

variable {d : Nat} {s t u v : Scanner}

/-! ## The ends of blocks at the end of the text -/

theorem level_endBlocks (s : Scanner) (column : Int) (outer : List Int) :
    (s.endBlocks column outer).level = s.level := by
  induction outer generalizing s with
  | nil => rfl
  | cons around outer ih =>
    rw [endBlocks]
    split
    · exact ih { s.pushHere .blockEnd with indent := around, outer := outer }
    · rfl

theorem endBlocks_endBlocks {s : Scanner} {column : Int} (inside : -1 ≤ column) {outer : List Int}
    (around : s.outer = outer) :
    (s.endBlocks column outer).endBlocks (-1) (s.endBlocks column outer).outer =
      s.endBlocks (-1) outer := by
  induction outer generalizing s with
  | nil =>
    rw [endBlocks, around]
  | cons next outer ih =>
    by_cases past : column < s.indent
    · have out : -1 < s.indent := by omega
      rw [endBlocks, if_pos past, endBlocks, if_pos out]
      exact ih (s := { s.pushHere .blockEnd with indent := next, outer := outer }) rfl
    · rw [endBlocks, if_neg past, around]

/-- At the end of the text all blocks end, wherever the last line stops. -/
theorem unwind_unwind (s : Scanner) {column : Int} (inside : -1 ≤ column) :
    (s.unwind column).unwind (-1) = s.unwind (-1) := by
  have level : (s.unwind column).level = s.level := by
    rw [unwind]
    split
    · exact level_endBlocks ..
    · rfl
  rw [unwind, level]
  split
  · next outside => rw [unwind, if_pos outside, endBlocks_endBlocks inside rfl, unwind, if_pos outside]
  · next within => rw [unwind, if_neg within, unwind, if_neg within]

namespace Abreast

theorem agree_fetchEnd (h : Abreast d s t) : Agree (Abreast d) s.fetchEnd t.fetchEnd := by
  unfold fetchEnd
  refine (h.unwind (-1)).agree_dropCandidate.bind ?_
  intro u v kept
  have emptied : Abreast d { u with keyAllowed := false, candidates := [] }
      { v with keyAllowed := false, candidates := [] } :=
    { kept.toAbreast with keyAllowed := rfl, candidates := .nil }
  exact { emptied.push .streamEnd _ _ _ _ with ended := rfl }

/-! ## Indicators -/

section Indicators

variable (visible : atLineEnd s.cursor.rest = false)
include visible

theorem agree_fetchOpening (h : Abreast d s t) (kind : Token.Kind) :
    Agree (Abreast d) (s.fetchOpening kind) (t.fetchOpening kind) := by
  unfold fetchOpening
  refine (h.agree_addCandidate visible).bind ?_
  intro u v kept
  have inner : Abreast d { u with level := u.level + 1, keyAllowed := true }
      { v with level := v.level + 1, keyAllowed := true } :=
    { kept.toAbreast with level := congrArg (· + 1) kept.level, keyAllowed := rfl }
  exact inner.takeChar (kept.visible visible) kind

theorem agree_fetchClosing (h : Abreast d s t) (kind : Token.Kind) :
    Agree (Abreast d) (s.fetchClosing kind) (t.fetchClosing kind) := by
  unfold fetchClosing
  refine h.agree_dropCandidate.bind ?_
  intro u v kept
  have outer : Abreast d { u with level := u.level - 1, keyAllowed := false }
      { v with level := v.level - 1, keyAllowed := false } :=
    { kept.toAbreast with level := congrArg (· - 1) kept.level, keyAllowed := rfl }
  exact outer.takeChar (kept.visible visible) kind

omit visible in
/-- Whether a key may start is set in both. -/
theorem allow (h : Abreast d s t) (allowed : Bool) :
    Abreast d { s with keyAllowed := allowed } { t with keyAllowed := allowed } :=
  { h with keyAllowed := rfl }

theorem agree_fetchFlowEntry (h : Abreast d s t) :
    Agree (Abreast d) s.fetchFlowEntry t.fetchFlowEntry := by
  unfold fetchFlowEntry
  refine (h.allow _).agree_dropCandidate.bind ?_
  intro u v kept
  exact kept.takeChar (kept.visible visible) _

theorem agree_fetchBlockEntry (h : Abreast d s t) :
    Agree (Abreast d) s.fetchBlockEntry t.fetchBlockEntry := by
  unfold fetchBlockEntry
  rw [h.level, h.keyAllowed]
  refine AgreeBy.guard ?_ trivial
  have started := h.startBlock visible .blockSequenceStart
  refine (started.allow _).agree_dropCandidate.bind ?_
  intro u v kept
  refine kept.takeChar (kept.visible ?_) _
  rwa [cursor_startBlock]

/-- A question mark, or a colon that stands alone. -/
theorem agree_fetchAlone (h : Abreast d s t) (kind : Token.Kind) (fault fault' : ScanFault) :
    Agree (Abreast d)
      (do
        if s.level == 0 && !s.keyAllowed then throw (s.faultHere fault)
        let u ← { s.startBlock .blockMappingStart with keyAllowed := s.level == 0 }.dropCandidate
        return u.takeChars kind 1)
      (do
        if t.level == 0 && !t.keyAllowed then throw (t.faultHere fault')
        let u ← { t.startBlock .blockMappingStart with keyAllowed := t.level == 0 }.dropCandidate
        return u.takeChars kind 1) := by
  have started := h.startBlock visible .blockMappingStart
  have allowed : (t.level == 0) = (s.level == 0) := by rw [h.level]
  rw [allowed, h.keyAllowed]
  refine AgreeBy.guard ?_ trivial
  refine (started.allow _).agree_dropCandidate.bind ?_
  intro u v kept
  refine kept.takeChar (kept.visible ?_) _
  rwa [cursor_startBlock]

theorem agree_fetchKey (h : Abreast d s t) : Agree (Abreast d) s.fetchKey t.fetchKey :=
  h.agree_fetchAlone visible .key _ _

theorem agree_fetchValue (h : Abreast d s t) : Agree (Abreast d) s.fetchValue t.fetchValue := by
  have candidate := h.rel_candidate?
  unfold fetchValue
  generalize s.candidate? = k, t.candidate? = k' at candidate
  cases candidate with
  | none => exact h.agree_fetchAlone visible .value _ _
  | @some k k' same =>
    have keyed := ({ h with toAlike := h.toAlike.forget } : Abreast d s.forget t.forget).insertBefore
      same .key
    dsimp only
    rw [same.column, keyed.opensBlock_eq]
    split
    · have opened := (keyed.enter k.mark.column).insertBefore same .blockMappingStart
      exact (opened.allow _).takeChar visible .value
    · exact (keyed.allow _).takeChar visible .value

end Indicators

/-! ## Names and scalars -/

section Texts

variable (visible : atLineEnd s.cursor.rest = false)
include visible

omit visible in
/-- A token that was read from behind the first character. -/
theorem takeRead (h : Abreast d s t) {A : Type} {a a' : A} {rest rest' : Text}
    (moved : Moved d (s.cursor.rest.drop 1) (a, rest) (a', rest')) (kind : A → Token.Kind) :
    Abreast d ({ s with keyAllowed := false }.takeTo (kind a) rest)
      ({ t with keyAllowed := false }.takeTo (kind a') rest') := by
  obtain ⟨same, left, suffix⟩ := moved
  dsimp only at same left suffix
  subst same left
  exact (h.allow false).takeTo (suffix.trans (List.drop_suffix _ _)) _

theorem agree_fetchName (h : Abreast d s t) (of : ScanFault.Owner) (kind : Text → Token.Kind) :
    Agree (Abreast d) (s.fetchName of kind) (t.fetchName of kind) := by
  unfold fetchName
  refine (h.agree_addCandidate visible).bind ?_
  intro u v kept
  have reads := moves_anchorName d of (u.cursor.rest.drop 1)
  rw [← kept.drop_one (kept.visible visible)] at reads
  rcases reads.cases with ⟨f, f', hf, hf', -⟩ | ⟨a, a', ha, ha', moved⟩
  · rw [hf, hf']
    trivial
  · rw [ha, ha']
    exact kept.takeRead moved kind

theorem agree_fetchTag (h : Abreast d s t) : Agree (Abreast d) s.fetchTag t.fetchTag := by
  unfold fetchTag
  refine (h.agree_addCandidate visible).bind ?_
  intro u v kept
  have reads := moves_tag d (u.cursor.rest.drop 1)
  rw [← kept.drop_one (kept.visible visible)] at reads
  rcases reads.cases with ⟨f, f', hf, hf', -⟩ | ⟨a, a', ha, ha', moved⟩
  · rw [hf, hf']
    trivial
  · rw [ha, ha']
    exact kept.takeRead moved fun name => .tag name.1 name.2

theorem agree_fetchQuoted (h : Abreast d s t) (double : Bool) :
    Agree (Abreast d) (s.fetchQuoted double) (t.fetchQuoted double) := by
  unfold fetchQuoted
  refine (h.agree_addCandidate visible).bind ?_
  intro u v kept
  have reads := Quoted.moves_read d double (kept.placed.markless.mono (List.drop_suffix 1 _))
  rw [← kept.drop_one (kept.visible visible)] at reads
  rcases reads.cases with ⟨f, f', hf, hf', -⟩ | ⟨a, a', ha, ha', moved⟩
  · rw [hf, hf']
    trivial
  · rw [ha, ha']
    exact kept.takeRead moved fun text => .scalar text (if double then .double else .single)

omit visible in
/-- A token up to `stop`, and the way on over what stands between `stop` and `rest`. -/
theorem goPast (h : Abreast d s t) {rest stop stop' : Text} (suffix : rest <:+ s.cursor.rest)
    (room : stop.length ≤ s.cursor.rest.length ∧ rest.length ≤ stop.length)
    (room' : stop'.length ≤ t.cursor.rest.length ∧ (inset d rest).length ≤ stop'.length)
    (kind : Token.Kind) :
    Abreast d { s.takeTo kind stop with cursor := (s.takeTo kind stop).cursor.reach rest }
      { t.takeTo kind stop' with
        cursor := (t.takeTo kind stop').cursor.reach (inset d rest) } := by
  have there : (s.takeTo kind stop).cursor.reach rest = s.cursor.reach rest :=
    Cursor.reach_reach_of_le room.1 room.2
  have there' : (t.takeTo kind stop').cursor.reach (inset d rest) = t.cursor.reach (inset d rest) :=
    Cursor.reach_reach_of_le room'.1 room'.2
  rw [there, there']
  exact h.go suffix kind _ _ _ _

theorem agree_fetchPlain (h : Abreast d s t) : Agree (Abreast d) s.fetchPlain t.fetchPlain := by
  unfold fetchPlain
  refine (h.agree_addCandidate visible).bind ?_
  intro u v kept
  have bound (column : Nat) :
      (v.indent + 1).toNat ≤ column + d ↔ (u.indent + 1).toNat ≤ column := by
    have least := least_lift (d := d) u.indent
    rw [kept.indent]
    omega
  have reads : Plain.SameReading d u.cursor.rest
      (Plain.read (u.level != 0) (u.indent + 1).toNat u.cursor.rest)
      (Plain.read (v.level != 0) (v.indent + 1).toNat v.cursor.rest) := by
    rw [kept.level, kept.beside.rest]
    exact Plain.sameReading_read bound kept.placed.markless
  have room := Plain.room_read (u.level != 0) (u.indent + 1).toNat u.cursor.rest
  have room' := Plain.room_read (v.level != 0) (v.indent + 1).toNat v.cursor.rest
  dsimp only
  generalize Plain.read (u.level != 0) (u.indent + 1).toNat u.cursor.rest = a at reads room ⊢
  generalize Plain.read (v.level != 0) (v.indent + 1).toNat v.cursor.rest = b at reads room' ⊢
  rw [reads.rest] at room' ⊢
  rw [reads.text, reads.broke]
  exact (kept.goPast reads.suffix room room' _).allow _

theorem agree_fetchBlock (h : Abreast d s t) (folds : Bool)
    (shows : s.indent < 0 → Block.showsIndent (s.cursor.rest.drop 1) = true) :
    Agree (Abreast d) (s.fetchBlock folds) (t.fetchBlock folds) := by
  unfold fetchBlock
  refine (h.allow true).agree_dropCandidate.bind ?_
  intro u v kept
  have more := kept.drop_one (kept.visible visible)
  have indent : u.indent = s.indent := kept.indent_eq
  have cursor : u.cursor = s.cursor := kept.cursor
  rw [← indent, ← cursor] at shows
  have reads : Agree (Block.SameReading d (u.cursor.rest.drop 1))
      (Block.read folds (u.indent + 1).toNat (u.cursor.rest.drop 1))
      (Block.read folds (v.indent + 1).toNat (v.cursor.rest.drop 1)) := by
    rw [kept.indent, more]
    refine Block.agree_read d ?_
    rcases least_lift (d := d) u.indent with inner | ⟨outside, least, least'⟩
    · exact .inl inner
    · exact .inr ⟨least, least', shows outside⟩
  rcases reads.cases with ⟨f, f', hf, hf', -⟩ | ⟨a, b, ha, hb, same⟩
  · rw [hf, hf']
    trivial
  · have room (w : Scanner) {a : Block.Reading}
        (read : Block.read folds (w.indent + 1).toNat (w.cursor.rest.drop 1) = .ok a) :
        a.stop.length ≤ w.cursor.rest.length ∧ a.rest.length ≤ a.stop.length := by
      refine ⟨Nat.le_trans (Block.length_read_stop_le read) ?_, Block.length_read_rest_le read⟩
      exact (List.drop_suffix 1 _).length_le
    have room' := room v hb
    rw [ha, hb]
    dsimp only
    rw [same.rest] at room' ⊢
    rw [same.text]
    exact kept.goPast (same.suffix.trans (List.drop_suffix 1 _)) (room u ha) room' _

end Texts

/-! ## Any token -/

theorem startsPlain_inset (flow : Bool) (c : Char) (d : Nat) (r : Text) :
    startsPlain flow c (inset d r) = startsPlain flow c r := by
  rw [startsPlain, atSpace_inset, startsPlain]

/-- In the first column there is no mark between documents. -/
theorem noSeparator (h : Abreast d s t) {c : Char} {r : Text} (here : s.cursor.rest = c :: r)
    (inside : isBreak c = false) :
    (s.cursor.mark.column == 0 && atSeparator (c :: r)) = false ∧
      (t.cursor.mark.column == 0 && atSeparator (c :: inset d r)) = false := by
  have margin := h.placed.margin
  rw [here] at margin
  have column := h.beside.column (by rw [here]; exact inside)
  constructor
  · by_cases first : s.cursor.mark.column = 0
    · rw [atSeparator_of_startsMark (margin first), Bool.and_false]
    · rw [beq_eq_false_iff_ne.mpr first, Bool.false_and]
  · by_cases first : t.cursor.mark.column = 0
    · have still : d = 0 := by omega
      subst still
      rw [inset_zero, atSeparator_of_startsMark (margin (by omega)), Bool.and_false]
    · rw [beq_eq_false_iff_ne.mpr first, Bool.false_and]

/-- In the first column there is no directive. -/
theorem noDirective (h : Abreast d s t) {c : Char} {r : Text} (here : s.cursor.rest = c :: r)
    (inside : isBreak c = false) :
    (c == '%' && s.cursor.mark.column == 0) = false ∧
      (c == '%' && t.cursor.mark.column == 0) = false := by
  have margin := h.placed.margin
  rw [here] at margin
  have column := h.beside.column (by rw [here]; exact inside)
  cases sign : c == '%' with
  | false => exact ⟨rfl, rfl⟩
  | true =>
    have away : s.cursor.mark.column ≠ 0 := by
      intro first
      have plain := margin first
      simp [startsMark, beq_iff_eq.mp sign] at plain
    rw [Bool.true_and, Bool.true_and, beq_eq_false_iff_ne, beq_eq_false_iff_ne]
    omega

end Abreast

/-- Whether a block scalar that starts here, outside of all blocks, shows its indentation by
itself. -/
def blockShows (s : Scanner) : Bool :=
  match s.cursor.rest with
  | c :: r =>
    !(s.level == 0 && s.indent < 0 && (c == '|' || c == '>')) || Block.showsIndent r
  | [] => true

theorem agree_fetchAt (h : Abreast d s t) {c : Char} {r : Text} (here : s.cursor.rest = c :: r)
    (inside : isBreak c = false) (shows : s.blockShows = true) :
    Agree (Abreast d) (s.fetchAt c r) (t.fetchAt c (inset d r)) := by
  have visible : atLineEnd s.cursor.rest = false := by
    rw [here]
    exact inside
  have showing (folds : Bool) {sign : Char} (sort : sign = '|' ∨ sign = '>')
      (block : (c == sign && !(s.level != 0)) = true) :
      Agree (Abreast d) (s.fetchBlock folds) (t.fetchBlock folds) := by
    refine h.agree_fetchBlock visible folds ?_
    intro outside
    rw [Bool.and_eq_true, beq_iff_eq, Bool.not_eq_true', bne_eq_false_iff_eq] at block
    obtain ⟨rfl, level⟩ := block
    rw [here, List.drop_one, List.tail_cons]
    rw [blockShows, here] at shows
    have known : (c == '|' || c == '>') = true := by simpa using sort
    simpa [level, outside, known] using shows
  obtain ⟨directive, directive'⟩ := h.noDirective here inside
  obtain ⟨separator, separator'⟩ := h.noSeparator here inside
  unfold fetchAt
  dsimp only
  rw [directive, directive', separator, separator', h.level, atSpace_inset,
    Abreast.startsPlain_inset]
  simp only [Bool.and_false, Bool.false_eq_true, if_false]
  refine .ite (fun _ => h.agree_fetchOpening visible _) fun _ => ?_
  refine .ite (fun _ => h.agree_fetchOpening visible _) fun _ => ?_
  refine .ite (fun _ => h.agree_fetchClosing visible _) fun _ => ?_
  refine .ite (fun _ => h.agree_fetchClosing visible _) fun _ => ?_
  refine .ite (fun _ => h.agree_fetchFlowEntry visible) fun _ => ?_
  refine .ite (fun _ => h.agree_fetchBlockEntry visible) fun _ => ?_
  refine .ite (fun _ => h.agree_fetchKey visible) fun _ => ?_
  refine .ite (fun _ => h.agree_fetchValue visible) fun _ => ?_
  refine .ite (fun _ => h.agree_fetchName visible _ _) fun _ => ?_
  refine .ite (fun _ => h.agree_fetchName visible _ _) fun _ => ?_
  refine .ite (fun _ => h.agree_fetchTag visible) fun _ => ?_
  refine .ite (showing false (.inl rfl)) fun _ => ?_
  refine .ite (showing true (.inr rfl)) fun _ => ?_
  refine .ite (fun _ => h.agree_fetchQuoted visible _) fun _ => ?_
  refine .ite (fun _ => h.agree_fetchQuoted visible _) fun _ => ?_
  exact .ite (fun _ => h.agree_fetchPlain visible) fun _ => trivial

/-- The state in which the next token is read, with the blocks before it ended. -/
def approach (s : Scanner) : Step :=
  (toNextToken (s.cursor.rest.length + 1) s.skipMark).dropStale.map fun s =>
    s.unwind s.cursor.mark.column

/-- Whether the next token is no block scalar outside of all blocks, or one that shows its
indentation by itself. -/
def nextShows (s : Scanner) : Bool :=
  match s.approach with
  | .ok s => s.blockShows
  | .error _ => true

theorem fetchEnd_unwind (s : Scanner) (column : Nat) : (s.unwind column).fetchEnd = s.fetchEnd := by
  rw [fetchEnd, unwind_unwind s (by omega), fetchEnd]

theorem agree_fetch (h : Nearing d s t) (shows : s.nextShows = true) :
    Agree (Abreast d) s.fetch t.fetch := by
  have bare : '\uFEFF' ∉ t.cursor.rest := by
    intro mark
    have kept : '\uFEFF' ∈ s.cursor.rest ∨ '\uFEFF' = ' ' := by
      rcases h.place with beside | ⟨fresh, -⟩
      · rw [beside.rest] at mark
        exact mem_inset mark
      · rw [fresh.rest] at mark
        exact mem_insetLine mark
    exact h.placed.bare (kept.resolve_right (by decide))
  obtain ⟨near, visible⟩ := abreast_toNextToken h (Nat.lt_succ_self _) (Nat.lt_succ_self _)
  rw [nextShows, approach, Shift.skipMark_of_not_mem h.placed.bare] at shows
  unfold fetch
  rw [Shift.skipMark_of_not_mem h.placed.bare, Shift.skipMark_of_not_mem bare]
  generalize toNextToken _ s = a at near visible shows ⊢
  generalize toNextToken _ t = b at near ⊢
  rcases near.agree_dropStale.cases with ⟨e, e', he, he', -⟩ | ⟨u, v, hu, hv, kept⟩
  · rw [he, he']
    trivial
  · rw [hu, hv]
    rw [hu] at shows
    rw [← kept.cursor] at visible
    have rest := kept.beside.rest
    dsimp only [bind, Except.bind]
    simp only [cursor_unwind]
    cases here : u.cursor.rest with
    | nil =>
      rw [here] at rest
      rw [rest, inset_nil]
      dsimp only
      rw [fetchEnd_unwind, fetchEnd_unwind]
      exact kept.agree_fetchEnd
    | cons c r =>
      rw [here] at visible rest
      have inside : isBreak c = false := by
        rw [← Bool.not_eq_true]
        intro stops
        cases visible stops
      rw [inset_inside inside] at rest
      rw [rest]
      have column : (v.cursor.mark.column : Int) = lift d u.cursor.mark.column := by
        rw [lift_natCast, kept.beside.column (by rw [here]; exact inside)]
      dsimp only
      rw [column]
      exact agree_fetchAt (kept.unwind _) (by rw [cursor_unwind, here]) inside shows

/-! ## The run -/

theorem abreast_release (h : Abreast d s t) {queue queue' : List Token}
    (same : queue'.map (·.kind) = queue.map (·.kind)) :
    Abreast d (s.release queue).1 (t.release queue').1 ∧
      (t.release queue').2.map (·.kind) = (s.release queue).2.map (·.kind) := by
  induction queue generalizing s t queue' with
  | nil =>
    rw [List.map_nil, List.map_eq_nil_iff] at same
    subst same
    exact ⟨{ h with kinds := rfl }, rfl⟩
  | cons token queue ih =>
    rw [List.map_cons, List.map_eq_cons_iff] at same
    obtain ⟨token', more, rfl, kind, rest⟩ := same
    have head : t.headMayBeKey = s.headMayBeKey := by
      refine any_eq_of_forall₂ h.candidates ?_
      intro k k' same
      rw [same.number, h.taken]
    rw [release, release, head]
    split
    · refine ⟨{ h with kinds := ?_ }, rfl⟩
      rw [List.map_cons, List.map_cons, kind, rest]
    · have taken : Abreast d { s with taken := s.taken + 1 } { t with taken := t.taken + 1 } :=
        { h with taken := congrArg (· + 1) h.taken }
      obtain ⟨states, kinds⟩ := ih taken rest
      refine ⟨states, ?_⟩
      dsimp only
      rw [List.map_cons, List.map_cons, kind, kinds]

/-- Whether all block scalars outside of all blocks show their indentation by themselves, from a
state on. -/
def blocksShow : (steps : Nat) → Scanner → Bool
  | 0, _ => true
  | steps + 1, s =>
    s.ended ||
      match if s.queue.isEmpty then .ok s else s.dropStale with
      | .error _ => true
      | .ok s =>
        let s := (s.release s.queue).1
        s.nextShows &&
          match s.fetch with
          | .error _ => true
          | .ok s => blocksShow steps s

/-- Feeds of the same tokens, but for their marks, that both end well or both do not. -/
structure SameFeed (f g : TokenFeed) : Prop where
  kinds : g.items.map (·.kind) = f.items.map (·.kind)
  fault : g.fault.isNone = f.fault.isNone

/-- From states that correspond on the feeds are the same but for the marks. -/
theorem sameFeed_feed {m n : Nat} (h : Abreast d s t) (hm : s.cursor.rest.length < m)
    (hn : t.cursor.rest.length < n) (shows : s.blocksShow m = true) :
    SameFeed (feed m s) (feed n t) := by
  induction m generalizing n s t with
  | zero => omega
  | succ m ih =>
    cases n with
    | zero => omega
    | succ n =>
      by_cases finished : s.ended = true
      · rw [feed_of_ended _ finished, feed_of_ended _ (h.ended.trans finished)]
        exact ⟨h.kinds, rfl⟩
      · have open' : ¬ t.ended = true := by rwa [h.ended]
        have empty : t.queue.isEmpty = s.queue.isEmpty := by
          rw [← List.isEmpty_map (f := Token.kind), h.kinds, List.isEmpty_map]
        have checked : Agree (Kept d s) (if s.queue.isEmpty then .ok s else s.dropStale)
            (if s.queue.isEmpty then .ok t else t.dropStale) :=
          .ite (fun _ => ⟨h, rfl⟩) fun _ => h.agree_dropStale
        rw [blocksShow, Bool.eq_false_iff.mpr finished, Bool.false_or] at shows
        rw [feed, if_neg finished, feed, if_neg open', empty]
        rcases checked.cases with ⟨e, e', he, he', -⟩ | ⟨u, v, hu, hv, kept⟩
        · rw [he, he']
          exact ⟨rfl, rfl⟩
        · rw [hu] at shows
          rw [hu, hv]
          obtain ⟨waiting, released⟩ := abreast_release kept.toAbreast kept.kinds
          dsimp only at shows ⊢
          rw [Bool.and_eq_true] at shows
          rcases (agree_fetch waiting.nearing shows.1).cases with
            ⟨e, e', he, he', -⟩ | ⟨w, x, hw, hx, there⟩
          · rw [he, he']
            exact ⟨released, rfl⟩
          · rw [hw] at shows
            rw [hw, hx]
            dsimp only
            have more : SameFeed (feed m w) (feed n x) := by
              by_cases done : w.ended = true
              · rw [feed_of_ended _ done, feed_of_ended _ (there.ended.trans done)]
                exact ⟨there.kinds, rfl⟩
              · have shorter := (past_fetch hw).2.resolve_left done
                have shorter' := (past_fetch hx).2.resolve_left (by rwa [there.ended])
                rw [cursor_release] at shorter shorter'
                have same : u.cursor = s.cursor := kept.cursor
                have same' : v.cursor = t.cursor := by
                  split at hv
                  · cases hv
                    rfl
                  · exact cursor_dropStale hv
                rw [same] at shorter
                rw [same'] at shorter'
                exact ih there (by omega) (by omega) shows.2
            refine ⟨?_, more.fault⟩
            rw [List.map_append, List.map_append, released, more.kinds]

/-- At the start of a text that has no mark in front. -/
theorem nearing_first (d : Nat) {s : Text} (markless : Markless s) (start : startsMark s = false)
    (bare : '\uFEFF' ∉ s) : Nearing d (first s) (first (insetLine d s)) where
  level := rfl
  indent := rfl
  outer := rfl
  keyAllowed := rfl
  candidates := .nil
  kinds := rfl
  taken := rfl
  ended := rfl
  placed := ⟨markless, bare, fun _ => start⟩
  place := .inr ⟨⟨rfl, rfl, rfl, rfl⟩, fun _ none => absurd none List.not_mem_nil⟩

end Scan.Scanner

namespace TokenFeed

/-- Whether all block scalars of a text that are outside of all blocks show their indentation by
themselves. -/
def blocksShow (s : Text) : Bool :=
  (Scanner.first s).nextShows &&
    match (Scanner.first s).fetch with
    | .error _ => true
    | .ok t => t.blocksShow (s.length + 2)

/-- A text moved to the right has the same tokens. -/
theorem sameFeed_ofText (d : Nat) {s : Text} (markless : Markless s) (start : startsMark s = false)
    (bare : '\uFEFF' ∉ s) (shows : blocksShow s = true) :
    Scanner.SameFeed (ofText s) (ofText (insetLine d s)) := by
  have near := Scanner.nearing_first d markless start bare
  rw [blocksShow, Bool.and_eq_true] at shows
  rw [ofText_eq, ofText_eq]
  rcases (Scanner.agree_fetch near shows.1).cases with
    ⟨e, e', he, he', -⟩ | ⟨t, u, ht, hu, there⟩
  · rw [he, he']
    exact ⟨rfl, rfl⟩
  · rw [ht] at shows
    rw [ht, hu]
    have rest : t.cursor.rest.length ≤ s.length := (Scanner.past_fetch ht).1.length_le
    have rest' : u.cursor.rest.length ≤ (insetLine d s).length := (Scanner.past_fetch hu).1.length_le
    have more := Scanner.sameFeed_feed there (m := s.length + 2) (n := (insetLine d s).length + 2)
      (by omega) (by omega) shows.2
    exact ⟨congrArg (Token.Kind.streamStart :: ·) more.kinds, more.fault⟩

end TokenFeed

end YamlEdit
