import YamlEdit.Proofs.Lines
import YamlEdit.Proofs.Tree.Dashes
import YamlEdit.Proofs.Tree.Extent

/-!
# Marks as a reader counts

A reader counts a line break at a line feed, at a carriage return that no line feed follows, and at
the three line ends of Unicode. Its column is what it has read since, where the byte order mark counts
for nothing. The marks that a cursor comes to are those of the reader (`Mark.in_iff_reads`).

A place that is found in the text gets its mark from another one nearby: the line feeds in between
are counted, and the column from the last line feed or carriage return on. `reads_markAt_iff` says
where that is what the reader would have said.
-/

namespace YamlEdit

namespace Text

variable {s : Text} {i j k n : Nat}

/-- Whether a line ends behind the character at a position. -/
def endsLineAt (s : Text) (i : Nat) : Bool :=
  s[i]?.any fun c => Mark.endsLine c || (c == '\r' && s[i + 1]? != some '\n')

/-- Whether a line ends there, and not with a line feed. -/
def endsOtherwise (s : Text) (i : Nat) : Bool :=
  s.endsLineAt i && s[i]? != some '\n'

/-- How many line breaks there are before a position. -/
def breaksBefore (s : Text) (i : Nat) : Nat :=
  (List.range i).countP s.endsLineAt

/-- Where the last line break before a position ends, or the text starts. -/
def lineBegin (s : Text) : Nat → Nat
  | 0 => 0
  | i + 1 => if s.endsLineAt i then i + 1 else s.lineBegin i

/-- How many columns a text takes. -/
def width (s : Text) : Nat :=
  s.countP (· != '\uFEFF')

/-! ## Lines -/

theorem breaksBefore_succ (s : Text) (i : Nat) :
    s.breaksBefore (i + 1) = s.breaksBefore i + if s.endsLineAt i then 1 else 0 := by
  rw [breaksBefore, List.range_succ, List.countP_append, List.countP_singleton]
  rfl

theorem slice_succ (inside : j < s.length) (le : i ≤ j) :
    slice s i (j + 1) = slice s i j ++ [s[j]] := by
  rw [← slice_append s le (Nat.le_succ j)]
  congr 1
  rw [slice, List.drop_eq_getElem_cons inside, Nat.succ_sub (Nat.le_refl j), Nat.sub_self]
  rfl

/-- The line breaks from one position to a later one: line feeds and others. -/
theorem breaksBefore_add (inside : i + n ≤ s.length) :
    s.breaksBefore (i + n) = s.breaksBefore i + (slice s i (i + n)).count '\n' +
      (List.range' i n).countP s.endsOtherwise := by
  induction n with
  | zero => simp [slice_self]
  | succ n ih =>
    have here : s[i + n]? = some s[i + n] := List.getElem?_eq_getElem (by omega)
    rw [← Nat.add_assoc, breaksBefore_succ, ih (by omega), slice_succ (by omega) (by omega),
      List.count_append, List.count_singleton, List.range'_concat, List.countP_append,
      List.countP_singleton, Nat.one_mul, endsOtherwise, endsLineAt, here]
    by_cases feed : s[i + n] = '\n'
    · rw [feed]
      simp [Mark.endsLine]
      omega
    · have other : (s[i + n] == '\n') = false := by simpa using feed
      have other' : (some s[i + n] != some '\n') = true := by simpa using feed
      rw [other, other', Bool.and_true]
      simp only [Bool.false_eq_true, if_false]
      omega

theorem lineBegin_le (s : Text) (i : Nat) : s.lineBegin i ≤ i := by
  induction i with
  | zero => exact Nat.le_refl 0
  | succ i ih =>
    rw [lineBegin]
    split
    · exact Nat.le_refl _
    · exact Nat.le_succ_of_le ih

/-- The line begins behind all line breaks. -/
theorem lt_lineBegin (ends : s.endsLineAt k = true) (before : k < i) : k < s.lineBegin i := by
  induction i with
  | zero => omega
  | succ i ih =>
    rw [lineBegin]
    split
    · exact before
    · next stays =>
      have other : k ≠ i := by
        rintro rfl
        exact stays ends
      exact ih (by omega)

theorem lineBegin_eq (le : j ≤ i) (begins : 0 < j → s.endsLineAt (j - 1) = true)
    (none : ∀ k, j ≤ k → k < i → s.endsLineAt k = false) : s.lineBegin i = j := by
  induction i with
  | zero => exact (Nat.le_zero.mp le).symm
  | succ i ih =>
    rw [lineBegin]
    split
    · next ends =>
      by_contra other
      rw [none i (by omega) (Nat.lt_succ_self i)] at ends
      cases ends
    · next stays =>
      rcases Nat.lt_or_ge i j with last | before
      · obtain rfl : j = i + 1 := by omega
        exact absurd (begins (Nat.succ_pos i)) stays
      · exact ih before fun k low high => none k low (by omega)

theorem width_le_length (s : Text) : s.width ≤ s.length :=
  List.countP_le_length

theorem width_eq_length_iff : s.width = s.length ↔ '\uFEFF' ∉ s := by
  rw [width, List.countP_eq_length]
  constructor
  · intro all mark
    exact absurd (all _ mark) (by simp)
  · intro none c hc
    rw [bne_iff_ne]
    rintro rfl
    exact none hc

end Text

/-- A mark with the line and the column that a reader has at its place. -/
structure Mark.Reads (s : Text) (m : Mark) : Prop where
  index : m.index ≤ s.length
  line : m.line = s.breaksBefore m.index
  column : m.column = (Text.slice s (s.lineBegin m.index) m.index).width

namespace Text

variable {s : Text} {i j k n : Nat}

theorem mark_behind (inside : i ≤ s.length) :
    (Cursor.behind s i).mark =
      ⟨i, s.breaksBefore i, (slice s (s.lineBegin i) i).width⟩ := by
  induction i with
  | zero => rfl
  | succ i ih =>
    have within : i < s.length := inside
    have rest := (Cursor.rest_behind s i).trans (List.drop_eq_getElem_cons within)
    have mark := ih (Nat.le_of_lt within)
    have next : Cursor.behind s (i + 1) = Cursor.advance 1 (Cursor.behind s i) :=
      Cursor.advance_add i 1 _
    have here : s[i]? = some s[i] := List.getElem?_eq_getElem within
    have ends : s.endsLineAt i =
        (Mark.endsLine s[i] || (s[i] == '\r' && (s.drop (i + 1)).head? != some '\n')) := by
      rw [endsLineAt, here, List.head?_drop]
      rfl
    rw [next]
    generalize Cursor.behind s i = c at rest mark ⊢
    obtain ⟨rest', mark'⟩ := c
    cases rest
    cases mark
    show Mark.past _ s[i] (s.drop (i + 1)) = _
    rw [Mark.past, ← ends, breaksBefore_succ, lineBegin]
    split
    · rw [slice_self]
      rfl
    · have longer : (slice s (s.lineBegin i) (i + 1)).width =
          (slice s (s.lineBegin i) i).width + if s[i] == '\uFEFF' then 0 else 1 := by
        rw [slice_succ within (lineBegin_le s i), width, List.countP_append, List.countP_singleton]
        cases mark : s[i] == '\uFEFF' <;> simp [bne, mark, width]
      rw [longer]
      split <;> rfl

end Text

/-- A cursor has the marks of a reader. -/
theorem Mark.in_iff_reads {s : Text} {m : Mark} : m.In s ↔ m.Reads s := by
  constructor
  · intro h
    have place := h.place.trans (Text.mark_behind h.index)
    exact ⟨h.index, congrArg Mark.line place, congrArg Mark.column place⟩
  · intro h
    refine ⟨h.index, ?_⟩
    rw [Text.mark_behind h.index, ← h.line, ← h.column]

/-- The column is the distance from the line break unless a byte order mark stands in between. -/
theorem Mark.Reads.column_eq_iff {s : Text} {m : Mark} (h : m.Reads s) :
    m.column = m.index - s.lineBegin m.index ↔
      '\uFEFF' ∉ Text.slice s (s.lineBegin m.index) m.index := by
  have length : (Text.slice s (s.lineBegin m.index) m.index).length =
      m.index - s.lineBegin m.index := by
    have inside := h.index
    rw [Text.slice, List.length_take, List.length_drop]
    omega
  rw [h.column, ← length, Text.width_eq_length_iff]

/-! ## Marks that are found nearby -/

namespace Span

variable {s : Text} {i j : Nat}

/-- Counting from one position to another as the editor does comes to what the reader has there: in
between lines end with line feeds, on the line before the place there is no character that the editor
takes for another one than the reader does, and the place is not inside of a line break. -/
structure Counts (s : Text) (j i : Nat) : Prop where
  feeds : ∀ k, min i j ≤ k → k < max i j → s.endsOtherwise k = false
  plain : ∀ c ∈ Text.slice s (Text.lineStart s i) i, Text.isForeign c = false
  whole : Text.splitsBreak s i = false

theorem countP_endsOtherwise_eq_zero {k n : Nat} :
    (List.range' k n).countP s.endsOtherwise = 0 ↔
      ∀ l, k ≤ l → l < k + n → s.endsOtherwise l = false := by
  rw [List.countP_eq_zero]
  constructor
  · intro none l low high
    simpa using none l (List.mem_range'_1.mpr ⟨low, high⟩)
  · intro none l hl
    obtain ⟨low, high⟩ := List.mem_range'_1.mp hl
    simpa using none l low high

/-- Counting line feeds comes to the reader's line where all line breaks in between are ones. -/
theorem line_markAt_iff {near : Mark} (reads : near.Reads s) (inside : i ≤ s.length)
    (other : i ≠ near.index) :
    (markAt s i near).line = s.breaksBefore i ↔
      ∀ k, min i near.index ≤ k → k < max i near.index → s.endsOtherwise k = false := by
  have within := reads.index
  rw [markAt, if_neg other]
  dsimp only
  split
  · next before =>
    obtain ⟨n, further⟩ := Nat.exists_eq_add_of_le (Nat.le_of_lt before)
    have lines := Text.breaksBefore_add (s := s) (i := i) (n := n) (by omega)
    rw [Nat.min_eq_left (Nat.le_of_lt before), Nat.max_eq_right (Nat.le_of_lt before), reads.line,
      further, ← countP_endsOtherwise_eq_zero]
    dsimp only
    omega
  · next behind =>
    have behind : near.index ≤ i := by omega
    obtain ⟨n, further⟩ := Nat.exists_eq_add_of_le behind
    have lines := Text.breaksBefore_add (s := s) (i := near.index) (n := n) (by omega)
    rw [Nat.min_eq_right behind, Nat.max_eq_left behind, reads.line, further,
      ← countP_endsOtherwise_eq_zero]
    dsimp only
    omega

/-! ### Columns -/

/-- The editor's line of a place holds no line break of the editor, and one comes before it. -/
theorem lineStart_spec (inside : i ≤ s.length) :
    (∀ k, Text.lineStart s i ≤ k → k < i → ∀ c ∈ s[k]?, Text.isBreak c = false) ∧
      (0 < Text.lineStart s i → ∃ c ∈ s[Text.lineStart s i - 1]?, Text.isBreak c = true) := by
  induction i with
  | zero =>
    exact ⟨fun k _ high => absurd high (Nat.not_lt_zero k), fun some_ => absurd some_ (Nat.lt_irrefl 0)⟩
  | succ i ih =>
    have within : i < s.length := inside
    have here : s[i]? = some s[i] := List.getElem?_eq_getElem within
    obtain ⟨line, begins⟩ := ih (Nat.le_of_lt within)
    rw [Text.lineStart_succ (List.drop_eq_getElem_cons within)]
    split
    · next stops =>
      refine ⟨fun k low high => by omega, fun _ => ⟨s[i], here, stops⟩⟩
    · next stays =>
      refine ⟨fun k low high c hc => ?_, begins⟩
      rcases Nat.lt_or_ge k i with before | last
      · exact line k low before c hc
      · obtain rfl : k = i := by omega
        cases here.symm.trans hc
        simpa using stays

theorem splitsBreak_succ :
    Text.splitsBreak s (i + 1) = true ↔ s[i]? = some '\r' ∧ s[i + 1]? = some '\n' := by
  have first : (Text.slice s i (i + 2))[0]? = s[i]? := Text.getElem?_slice (by omega)
  have second : (Text.slice s i (i + 2))[1]? = s[i + 1]? := Text.getElem?_slice (by omega)
  have length : (Text.slice s i (i + 2)).length ≤ 2 := by
    have bound := Text.length_slice_le s i (i + 2)
    omega
  rw [Text.splitsBreak, ← first, ← second, Bool.and_eq_true]
  show _ ∧ (Text.slice s i (i + 2) == ['\r', '\n']) = true ↔ _
  generalize Text.slice s i (i + 2) = pair at length
  constructor
  · rintro ⟨-, same⟩
    rw [eq_of_beq same]
    exact ⟨rfl, rfl⟩
  · rintro ⟨first, second⟩
    refine ⟨by simp, ?_⟩
    obtain _ | ⟨c, _ | ⟨d, _ | ⟨e, r⟩⟩⟩ := pair
    · cases first
    · cases second
    · cases first
      cases second
      rfl
    · simp at length

theorem mem_slice_iff {c : Char} :
    c ∈ Text.slice s j i ↔ ∃ k, j ≤ k ∧ k < i ∧ s[k]? = some c := by
  rw [List.mem_iff_getElem?]
  constructor
  · rintro ⟨k, hk⟩
    have within : k < i - j := by
      have length := Text.length_slice_le s j i
      have bound := (List.getElem?_eq_some_iff.mp hk).1
      omega
    rw [Text.getElem?_slice (by omega)] at hk
    exact ⟨j + k, by omega, by omega, hk⟩
  · rintro ⟨k, low, high, hk⟩
    obtain ⟨n, rfl⟩ := Nat.exists_eq_add_of_le low
    exact ⟨n, by rw [Text.getElem?_slice high]; exact hk⟩

/-- A line ends for the reader at what ends one for the editor too, or at a line end of Unicode. -/
theorem endsLineAt_cases {k : Nat} (ends : s.endsLineAt k = true) :
    ∃ c, s[k]? = some c ∧ (Text.isBreak c = true ∨ Text.isForeign c = true) := by
  rw [Text.endsLineAt] at ends
  cases here : s[k]? with
  | none =>
    rw [here] at ends
    cases ends
  | some c =>
    refine ⟨c, rfl, ?_⟩
    rw [here, Option.any_some] at ends
    simp only [Mark.endsLine, Bool.or_eq_true, Bool.and_eq_true, beq_iff_eq] at ends
    simp only [Text.isBreak, Text.isForeign, Bool.or_eq_true, beq_iff_eq]
    tauto

/-- Outside of line breaks, and on a line that has no line end of Unicode, the reader's line begins
where the editor's does. -/
theorem lineBegin_eq_lineStart (inside : i ≤ s.length) (whole : Text.splitsBreak s i = false)
    (plain : ∀ k, Text.lineStart s i ≤ k → k < i → s.endsLineAt k = false) :
    s.lineBegin i = Text.lineStart s i := by
  obtain ⟨line, begins⟩ := lineStart_spec inside
  refine Text.lineBegin_eq (Text.lineStart_le s i) (fun some_ => ?_) plain
  have le := Text.lineStart_le s i
  obtain ⟨k, start⟩ := Nat.exists_eq_add_one.mpr some_
  obtain ⟨c, here, stops⟩ := begins some_
  rw [start, Nat.add_sub_cancel] at here ⊢
  rw [Text.endsLineAt, here, Option.any_some]
  rcases Bool.or_eq_true_iff.mp stops with feed | return_
  · rw [eq_of_beq feed]
    rfl
  · -- A line feed behind the carriage return would be on the line, or the place inside of the two.
    have alone : s[k + 1]? ≠ some '\n' := by
      intro feed
      rcases Nat.lt_or_eq_of_le le with before | last
      · have inner := line (k + 1) (by omega) (by omega) '\n' feed
        cases inner
      · have inner := splitsBreak_succ.mpr ⟨here.trans (congrArg some (eq_of_beq return_)), feed⟩
        rw [← start, last, whole] at inner
        cases inner
    rw [return_, bne_iff_ne.mpr alone, Bool.and_self, Bool.or_true]

/-- The editor's column of a place is the reader's exactly where the two see the same line before the
place. -/
theorem column_eq_iff (inside : i ≤ s.length) :
    i - Text.lineStart s i = (Text.slice s (s.lineBegin i) i).width ↔
      (∀ c ∈ Text.slice s (Text.lineStart s i) i, Text.isForeign c = false) ∧
        Text.splitsBreak s i = false := by
  have start := Text.lineStart_le s i
  have begin_ := Text.lineBegin_le s i
  have length : ∀ j, (Text.slice s j i).length = i - j := by
    intro j
    rw [Text.slice, List.length_take, List.length_drop]
    omega
  have fits := Text.width_le_length (Text.slice s (s.lineBegin i) i)
  rw [length] at fits
  obtain ⟨line, -⟩ := lineStart_spec inside
  have plain_of (none : ∀ k, Text.lineStart s i ≤ k → k < i → ∀ c ∈ s[k]?, Text.isForeign c = false) :
      ∀ k, Text.lineStart s i ≤ k → k < i → s.endsLineAt k = false := by
    intro k low high
    by_contra ends
    obtain ⟨c, here, stops | foreign⟩ := endsLineAt_cases (by simpa using ends)
    · exact absurd stops (by simp [line k low high c here])
    · exact absurd foreign (by simp [none k low high c here])
  constructor
  · intro same
    have whole : Text.splitsBreak s i = false := by
      cases i with
      | zero => rfl
      | succ k =>
        by_contra splits
        obtain ⟨here, feed⟩ := splitsBreak_succ.mp (by simpa using splits)
        have stays : s.endsLineAt k = false := by rw [Text.endsLineAt, here, feed]; rfl
        obtain ⟨within, last⟩ := List.getElem?_eq_some_iff.mp here
        have starts : Text.lineStart s (k + 1) = k + 1 := by
          rw [Text.lineStart_succ (List.drop_eq_getElem_cons within), last]
          rfl
        have counted : '\r' ∈ Text.slice s (s.lineBegin (k + 1)) (k + 1) := by
          refine mem_slice_iff.mpr ⟨k, ?_, Nat.lt_succ_self k, here⟩
          rw [Text.lineBegin, stays]
          exact Text.lineBegin_le s k
        have some_ : 0 < (Text.slice s (s.lineBegin (k + 1)) (k + 1)).width :=
          List.countP_pos_iff.mpr ⟨'\r', counted, rfl⟩
        omega
    have plain : ∀ k, Text.lineStart s i ≤ k → k < i → s.endsLineAt k = false := by
      intro k low high
      by_contra ends
      have before := Text.lt_lineBegin (by simpa using ends) high
      omega
    refine ⟨fun c hc => ?_, whole⟩
    rw [lineBegin_eq_lineStart inside whole plain, ← length] at same
    have markless := Text.width_eq_length_iff.mp same.symm
    obtain ⟨k, low, high, here⟩ := mem_slice_iff.mp hc
    have stays := plain k low high
    rw [Text.endsLineAt, here, Option.any_some, Bool.or_eq_false_iff] at stays
    have other : c ≠ '\uFEFF' := fun mark => markless (mark ▸ hc)
    have inner := stays.1
    simp only [Mark.endsLine, Bool.or_eq_false_iff] at inner
    simp [Text.isForeign, inner, other]
  · rintro ⟨none, whole⟩
    have none' : ∀ k, Text.lineStart s i ≤ k → k < i → ∀ c ∈ s[k]?, Text.isForeign c = false :=
      fun k low high c hc => none c (mem_slice_iff.mpr ⟨k, low, high, hc⟩)
    rw [lineBegin_eq_lineStart inside whole (plain_of none'), ← length]
    refine (Text.width_eq_length_iff.mpr fun mark => ?_).symm
    have foreign := none _ mark
    cases foreign

/-- Where the mark that is found from another one is what the reader has: at the other one's own
place, or where the two count alike. -/
theorem reads_markAt_iff {near : Mark} (reads : near.Reads s) (inside : i ≤ s.length) :
    (markAt s i near).Reads s ↔ i = near.index ∨ Counts s near.index i := by
  rcases Decidable.em (i = near.index) with same | other
  · rw [markAt, if_pos same]
    exact ⟨fun _ => .inl same, fun _ => reads⟩
  have index := index_markAt s i near
  have column : (markAt s i near).column = i - Text.lineStart s i := by
    rw [markAt, if_neg other]
    dsimp only
    split <;> rfl
  have line := line_markAt_iff reads inside other
  constructor
  · intro found
    have column' := found.column
    have line' := found.line
    rw [index] at column' line'
    obtain ⟨plain, whole⟩ := (column_eq_iff inside).mp (column.symm.trans column')
    exact .inr ⟨line.mp line', plain, whole⟩
  · intro counts
    obtain ⟨feeds, plain, whole⟩ := counts.resolve_left other
    have column' := column.trans ((column_eq_iff inside).mpr ⟨plain, whole⟩)
    refine ⟨?_, ?_, ?_⟩
    · rwa [index]
    · rw [index]
      exact line.mpr feeds
    · rw [index]
      exact column'

end Span

end YamlEdit
