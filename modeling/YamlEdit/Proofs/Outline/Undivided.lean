import YamlEdit.Proofs.Breaks
import YamlEdit.Proofs.Inset.Scalar

/-!
# Fragments are of one document

No line of a fragment starts like a directive or like a mark between documents, so it can stand in
the first column of any document without dividing it. Plain scalars do not start so, further lines
of a scalar are indented, and the end mark behind a bare scalar is taken off.

A pen is ready for a text that starts like no mark if its line is empty or has text that no mark
starts with; it is settled if its line cannot become one that starts like a mark any more.
-/

namespace YamlEdit

open Scan Outline

/-- What directives and marks between documents start with. -/
def Scan.marks : List Text :=
  [['%'], "---".toList, "...".toList]

theorem startsMark_iff {s : Text} : startsMark s = true ↔ ∃ p ∈ marks, p <+: s := by
  have head : s.head? = some '%' ↔ ['%'] <+: s := by
    cases s with
    | nil => simp
    | cons c r => simp [eq_comm]
  have three (p : Text) (len : p.length = 3) : s.take 3 = p ↔ p <+: s := by
    rw [List.prefix_iff_eq_take, len, eq_comm]
  rw [startsMark, Bool.or_eq_true, Bool.or_eq_true, beq_iff_eq, beq_iff_eq, beq_iff_eq, head,
    three "---".toList rfl, three "...".toList rfl]
  simp [marks, or_assoc]

theorem startsMark_eq_false {s : Text} : startsMark s = false ↔ ∀ p ∈ marks, ¬ p <+: s := by
  rw [← Bool.not_eq_true, startsMark_iff]
  simp

/-- A text in front of a character that it does not have ends before the character. -/
theorem prefix_of_prefix_append {p l s : Text} {c : Char} (other : c ∉ p)
    (h : p <+: l ++ c :: s) : p <+: l := by
  induction l generalizing p with
  | nil =>
    cases p with
    | nil => exact List.nil_prefix
    | cons x p =>
      obtain ⟨rfl, -⟩ := List.cons_prefix_cons.mp h
      exact absurd List.mem_cons_self other
  | cons a l ih =>
    cases p with
    | nil => exact List.nil_prefix
    | cons x p =>
      obtain ⟨rfl, rest⟩ := List.cons_prefix_cons.mp h
      exact List.cons_prefix_cons.mpr ⟨rfl, ih (fun hc => other (List.mem_cons_of_mem _ hc)) rest⟩

/-- Whether a character is in no mark. -/
def Scan.isApart (c : Char) : Bool :=
  c != '%' && c != '-' && c != '.'

theorem not_mem_marks {c : Char} (apart : isApart c = true) : ∀ p ∈ marks, c ∉ p := by
  simp only [isApart, Bool.and_eq_true, bne_iff_ne] at apart
  simp [marks, apart]

/-- A line that starts like no mark does not come to when it goes on with something else. -/
theorem startsMark_append {l s : Text} {c : Char} (h : startsMark l = false)
    (apart : isApart c = true) : startsMark (l ++ c :: s) = false := by
  rw [startsMark_eq_false] at h ⊢
  intro p hp within
  exact h p hp (prefix_of_prefix_append (not_mem_marks apart p hp) within)

theorem isApart_of_isBreak {c : Char} (stops : Text.isBreak c = true) : isApart c = true := by
  simp only [Text.isBreak, Bool.or_eq_true, beq_iff_eq] at stops
  rcases stops with rfl | rfl <;> rfl

/-- Whether some line behind the first one starts like a mark. -/
def Scan.divides : Text → Bool
  | [] => false
  | c :: r => Text.isBreak c && startsMark r || divides r

/-- No line starts like a mark. -/
structure Undivided (s : Text) : Prop where
  start : startsMark s = false
  lines : divides s = false

/-- Whatever is put behind the text in its line, no line starts like a mark. -/
def Settled (s : Text) : Prop :=
  ∀ t, Inline t → Undivided (s ++ t)

/-- The text is settled, or it ends with its last line. -/
def Ready (s : Text) : Prop :=
  Settled s ∨ Undivided s ∧ ∀ c ∈ s.getLast?, Text.isBreak c = true

variable {s t : Text} {c : Char}

theorem Settled.undivided (h : Settled s) : Undivided s := by
  have none := h [] (by simp [Inline])
  rwa [List.append_nil] at none

theorem Settled.append (h : Settled s) (inline : Inline t) : Settled (s ++ t) := by
  intro u more
  rw [List.append_assoc]
  exact h (t ++ u) (inline.append more)

theorem divides_of_inline (inline : Inline s) : divides s = false := by
  induction s with
  | nil => rfl
  | cons c r ih =>
    obtain ⟨head, tail⟩ := List.forall_mem_cons.mp inline
    rw [divides, head.1, ih tail]
    rfl

theorem ready_nil : Ready [] :=
  .inr ⟨⟨rfl, rfl⟩, by simp⟩

theorem divides_append (h : divides s = false) (start : isApart c = true)
    (line : Text.isBreak c = true → startsMark t = false) (more : divides t = false) :
    divides (s ++ c :: t) = false := by
  induction s with
  | nil =>
    rw [List.nil_append, divides, more, Bool.or_false, Bool.and_eq_false_imp]
    exact line
  | cons x r ih =>
    rw [divides, Bool.or_eq_false_iff, Bool.and_eq_false_imp] at h
    rw [List.cons_append, divides, ih h.2, Bool.or_false, Bool.and_eq_false_imp]
    exact fun stops => startsMark_append (h.1 stops) start

/-- Behind a character of no mark the line is settled. -/
theorem Undivided.settled (h : Undivided s) (apart : isApart c = true) (inline : Inline (c :: t)) :
    Settled (s ++ c :: t) := by
  intro u more
  obtain ⟨head, tail⟩ := List.forall_mem_cons.mp inline
  have behind : Inline (t ++ u) := Inline.append tail more
  rw [List.append_assoc, List.cons_append]
  refine ⟨startsMark_append h.start apart, ?_⟩
  refine divides_append h.lines apart ?_ (divides_of_inline behind)
  intro stops
  rw [head.1] at stops
  cases stops

/-- Behind a line break a line starts anew. -/
theorem Undivided.line (h : Undivided s) (stops : Text.isBreak c = true) (inline : Inline t)
    (start : startsMark t = false) : Undivided (s ++ c :: t) := by
  have apart := isApart_of_isBreak stops
  exact ⟨startsMark_append h.start apart,
    divides_append h.lines apart (fun _ => start) (divides_of_inline inline)⟩

theorem Undivided.newLine (h : Undivided s) (stops : Text.isBreak c = true) : Ready (s ++ [c]) := by
  refine .inr ⟨h.line stops (by simp [Inline]) rfl, ?_⟩
  intro d hd
  rw [List.getLast?_concat, Option.mem_some] at hd
  rwa [← hd]

theorem Ready.undivided (h : Ready s) : Undivided s :=
  h.elim Settled.undivided And.left

theorem Undivided.mono (h : Undivided t) (inner : s <+: t) : Undivided s := by
  have shorter {u v : Text} (inner : u <+: v) (h : startsMark v = false) : startsMark u = false := by
    rw [startsMark_eq_false] at h ⊢
    exact fun p hp within => h p hp (within.trans inner)
  refine ⟨shorter inner h.start, ?_⟩
  obtain ⟨start, lines⟩ := h
  clear start
  induction s generalizing t with
  | nil => rfl
  | cons c r ih =>
    obtain ⟨u, rfl⟩ := inner
    rw [List.cons_append, divides, Bool.or_eq_false_iff, Bool.and_eq_false_imp] at lines
    rw [divides, ih (List.prefix_append r u) lines.2, Bool.or_false, Bool.and_eq_false_imp]
    exact fun stops => shorter (List.prefix_append r u) (lines.1 stops)

/-- A text that starts like no mark can be put where a pen is ready. -/
theorem Ready.append (h : Ready s) (inline : Inline t) (start : startsMark t = false) :
    Undivided (s ++ t) := by
  rcases h with settled | ⟨undivided, last⟩
  · exact settled t inline
  · rcases List.eq_nil_or_concat' s with rfl | ⟨u, c, rfl⟩
    · exact ⟨start, divides_of_inline inline⟩
    · have stops := last c (by simp)
      rw [List.append_assoc, List.singleton_append]
      exact (undivided.mono (List.prefix_append u [c])).line stops inline start

namespace Outline.Pen

/-- What a pen wrote. -/
def text (p : Pen) : Text :=
  p.written.reverse

/-- No line so far starts like a mark, and the pen is ready behind a gap. -/
structure Plain (p : Pen) : Prop where
  undivided : Undivided p.text
  gap : p.atGap = true → Ready p.text

variable {p q : Pen}

@[simp] theorem text_put (p : Pen) (s : Text) : (p.put s).text = p.text ++ s := by
  simp [text, put]

theorem plain_of_settled (h : Settled p.text) : p.Plain :=
  ⟨h.undivided, fun _ => .inl h⟩

theorem plain_start : Plain {} :=
  ⟨⟨rfl, rfl⟩, fun _ => ready_nil⟩

/-- An indicator of no mark settles the line. -/
theorem Plain.settled_indicator (h : p.Plain) (needsGap isGap inIndent : Bool) (s : Text)
    (apart : isApart c = true) (inline : Inline (c :: s)) :
    Settled (p.indicator (c :: s) needsGap isGap inIndent).text := by
  have put : (p.indicator (c :: s) needsGap isGap inIndent).text =
      (p.put (if p.atGap || !needsGap then c :: s else ' ' :: c :: s)).text := rfl
  rw [put, text_put]
  split
  · exact h.undivided.settled apart inline
  · exact h.undivided.settled rfl ((inline_spaces 1).append inline)

theorem Plain.newLine (h : p.Plain) {c : Char} (ends : isLineEnd c = true) :
    (p.newLine c).Plain := by
  have wrote : (p.newLine c).text = p.text ++ [c] := by simp [Pen.text, Pen.newLine]
  have ready : Ready (p.newLine c).text := by
    rw [wrote]
    cases stops : Text.isBreak c with
    | true => exact h.undivided.newLine stops
    | false =>
      have apart : isApart c = true ∧ c ≠ '\uFEFF' := by
        simp only [isLineEnd, Bool.or_eq_true, beq_iff_eq] at ends
        rcases ends with ((rfl | rfl) | rfl) | rfl <;> decide
      refine .inl (h.undivided.settled apart.1 ?_)
      intro d hd
      rw [List.mem_singleton.mp hd]
      exact ⟨stops, apart.2⟩
  exact ⟨ready.undivided, fun _ => ready⟩

/-- At a column the pen is behind a gap, and settled if spaces were written. -/
theorem Plain.indentTo (h : p.Plain) (column : Nat) :
    Ready (p.indentTo column).text ∧ (p.indentTo column).atGap = true ∧
      (p.column = 0 → 0 < column → Settled (p.indentTo column).text) := by
  have line : (if !p.inIndent || column < p.column || (p.column == column && !p.atGap)
      then p.newLine else p).Plain := by
    split
    · exact h.newLine rfl
    · exact h
  have zero : p.column = 0 → (if !p.inIndent || column < p.column || (p.column == column && !p.atGap)
      then p.newLine else p).column = 0 := by
    intro zero
    split
    · rfl
    · exact zero
  have behind : ¬ (if !p.inIndent || column < p.column || (p.column == column && !p.atGap)
      then p.newLine else p).column < column → (if !p.inIndent || column < p.column ||
        (p.column == column && !p.atGap) then p.newLine else p).atGap = true := by
    split
    · exact fun _ => rfl
    · next stays =>
      simp only [Bool.or_eq_true, Bool.and_eq_true, decide_eq_true_eq, beq_iff_eq,
        Bool.not_eq_true', not_or, not_and, Bool.not_eq_false] at stays
      intro reached
      exact stays.2 (by omega)
  unfold Pen.indentTo
  generalize (if !p.inIndent || column < p.column || (p.column == column && !p.atGap)
      then p.newLine else p) = q at line zero behind ⊢
  dsimp only
  split
  · next less =>
    have spaces : Settled (q.put (List.replicate (column - q.column) ' ')).text := by
      obtain ⟨n, hn⟩ : ∃ n, column - q.column = n + 1 := ⟨column - q.column - 1, by omega⟩
      rw [text_put, hn, List.replicate_succ]
      exact line.undivided.settled rfl (inline_spaces (n + 1))
    exact ⟨.inl spaces, rfl, fun _ _ => spaces⟩
  · next reached =>
    refine ⟨line.gap (behind reached), behind reached, ?_⟩
    intro start some
    have := zero start
    omega

/-! ## Scalars -/

theorem startsMark_of_plain {s : Text}
    (h : (allowed s).flowPlain = true ∨ (allowed s).blockPlain = true) : startsMark s = false := by
  cases s with
  | nil => rfl
  | cons c r =>
    have found : (leadingIndicators (c :: r)).flow = false ∨
        (leadingIndicators (c :: r)).block = false := by
      rcases h with h | h
      · simp only [allowed, Bool.and_eq_true, Bool.not_eq_true', indicators, Indicators.or,
          Bool.or_eq_false_iff] at h
        exact .inl h.2.1
      · simp only [allowed, Bool.and_eq_true, Bool.not_eq_true', indicators, Indicators.or,
          Bool.or_eq_false_iff] at h
        exact .inr h.2.1
    have always : ("---".toList.isPrefixOf (c :: r) || "...".toList.isPrefixOf (c :: r) ||
        "#,[]\x7b\x7d&*!|>'\"%@\x60".toList.contains c) = false := by
      rcases found with found | found
      · simp only [leadingIndicators, Bool.or_eq_false_iff] at found
        simp only [Bool.or_eq_false_iff]
        exact found.1.1.1
      · simp only [leadingIndicators, Bool.or_eq_false_iff] at found
        simp only [Bool.or_eq_false_iff]
        exact found.1
    rw [startsMark_eq_false]
    intro p hp within
    rw [Bool.or_eq_false_iff, Bool.or_eq_false_iff] at always
    simp only [marks, List.mem_cons, List.not_mem_nil, or_false] at hp
    rcases hp with rfl | rfl | rfl
    · obtain ⟨rfl, -⟩ := List.cons_prefix_cons.mp within
      exact absurd always.2 (by decide)
    · rw [List.isPrefixOf_iff_prefix.mpr within] at always
      cases always.1.1
    · rw [List.isPrefixOf_iff_prefix.mpr within] at always
      cases always.1.2

theorem Plain.plain (h : p.Plain) (isRoot : Bool) {s : Text} (inline : Inline s)
    (start : startsMark s = false) : (p.plain isRoot s).Plain := by
  unfold Pen.plain
  dsimp only
  split
  · exact ⟨h.undivided, h.gap⟩
  · refine ⟨?_, fun gap => by cases gap⟩
    split
    · next gap =>
      have more := (h.gap gap).append inline start
      rwa [← text_put] at more
    · have settled := h.undivided.settled (c := ' ') rfl (inline_spaces 1)
      have more := (settled.append inline).undivided
      rwa [← text_put, ← text_put] at more

theorem plain_newLines (h : p.Plain) {breaks : Text} (ends : ∀ c ∈ breaks, isLineEnd c = true) :
    (breaks.foldl (fun p c => p.newLine c) p).Plain ∧
      (breaks ≠ [] → (breaks.foldl (fun p c => p.newLine c) p).column = 0) := by
  induction breaks generalizing p with
  | nil => exact ⟨h, fun some => absurd rfl some⟩
  | cons c r ih =>
    obtain ⟨head, tail⟩ := List.forall_mem_cons.mp ends
    obtain ⟨plain, column⟩ := ih (h.newLine head) tail
    refine ⟨plain, fun _ => ?_⟩
    by_cases last : r = []
    · rw [last]
      rfl
    · exact column last

/-- A line of a scalar behind the first one is indented. -/
theorem settled_foldedBreaks (h : p.Plain) {column : Nat} (room : 0 < column) {breaks : Text}
    (ends : ∀ c ∈ breaks, isLineEnd c = true) (some : breaks ≠ []) :
    Settled (p.foldedBreaks column breaks).text := by
  have first : (if breaks.head? = Option.some '\n' then p.newLine else p).Plain := by
    split
    · exact h.newLine rfl
    · exact h
  obtain ⟨plain, start⟩ := plain_newLines first ends
  exact (plain.indentTo column).2.2 (start some) room

theorem settled_singleQuotedFrom {column : Nat} (room : 0 < column) {s : Text}
    (shown : ∀ c ∈ s, needsEscape c = false) (breaks : Text)
    (ends : ∀ c ∈ breaks, isLineEnd c = true) (h : Settled p.text) :
    Settled (p.singleQuotedFrom column breaks s).text := by
  have waited {p : Pen} {breaks : Text} (ends : ∀ c ∈ breaks, isLineEnd c = true)
      (h : Settled p.text) :
      Settled (if breaks.isEmpty then p else p.foldedBreaks column breaks.reverse).text := by
    split
    · exact h
    · next some =>
      refine settled_foldedBreaks (plain_of_settled h) room
        (fun c hc => ends c (List.mem_reverse.mp hc)) ?_
      rwa [ne_eq, List.reverse_eq_nil_iff, ← List.isEmpty_iff]
  induction s generalizing p breaks with
  | nil => exact waited ends h
  | cons c r ih =>
    obtain ⟨head, tail⟩ := List.forall_mem_cons.mp shown
    rw [singleQuotedFrom]
    split
    · next line => exact ih tail _ (List.forall_mem_cons.mpr ⟨line, ends⟩) h
    · next inside =>
      have inline : Inline (if c == '\'' then ['\'', '\''] else [c]) := by
        split
        · exact .of_all rfl
        · exact inline_of_shown head (by simpa using inside)
      refine ih tail [] (by simp) ?_
      rw [text_put]
      exact (waited ends h).append inline

theorem plain_singleQuoted (h : p.Plain) {column : Nat} (room : 0 < column) {s : Text}
    (shown : ∀ c ∈ s, needsEscape c = false) : (p.singleQuoted column s).Plain := by
  have quote : Inline ['\''] := .of_all rfl
  have opened := h.settled_indicator true false false [] rfl quote
  have inner := settled_singleQuotedFrom room shown [] (by simp) opened
  exact plain_of_settled ((plain_of_settled inner).settled_indicator false false false [] rfl quote)

theorem plain_doubleQuoted (h : p.Plain) (s : Text) : (p.doubleQuoted s).Plain := by
  have quote : Inline ['"'] := .of_all rfl
  have opened := h.settled_indicator true false false [] rfl quote
  have inline : Inline (s.flatMap escaped) := by
    intro c hc
    obtain ⟨d, -, hd⟩ := List.mem_flatMap.mp hc
    exact inline_escaped d c hd
  have inner := opened.append inline
  rw [← text_put] at inner
  exact plain_of_settled ((plain_of_settled inner).settled_indicator false false false [] rfl quote)

theorem plain_literalFrom {column : Nat} (room : 0 < column) (atStart : Bool) {s : Text}
    (shown : ∀ c ∈ s, needsEscape c = false) (h : p.Plain) (start : atStart = true → p.column = 0)
    (within : atStart = false → Settled p.text) : (p.literalFrom column atStart s).Plain := by
  induction s generalizing p atStart with
  | nil =>
    rw [literalFrom]
    split
    · exact h
    · exact h.newLine rfl
  | cons c r ih =>
    obtain ⟨head, tail⟩ := List.forall_mem_cons.mp shown
    rw [literalFrom]
    split
    · next line =>
      exact ih true tail (h.newLine line) (fun _ => rfl) (by simp)
    · next inside =>
      have settled : Settled (if atStart then p.indentTo column else p).text := by
        split
        · next starts => exact (h.indentTo column).2.2 (start starts) room
        · next inner => exact within (by simpa using inner)
      have more := settled.append (inline_of_shown head (by simpa using inside))
      rw [← text_put] at more
      exact ih false tail (plain_of_settled more) (by simp) fun _ => more

theorem plain_literal (h : p.Plain) (step : Nat) {column : Nat} (room : 0 < column) {s : Text}
    (shown : ∀ c ∈ s, needsEscape c = false) : (p.literal step column s).Plain := by
  have opened := h.settled_indicator true false false (blockHints step s) rfl
    (word_blockHints step s).inline
  have flagged : Plain { p.indicator ('|' :: blockHints step s) true with
      openEnded := (blockHints step s).getLast? = some '+' } := plain_of_settled opened
  exact plain_literalFrom room true shown (flagged.newLine rfl) (fun _ => rfl) (by simp)

theorem plain_anchor (h : p.Plain) {anchor : Option Text} (words : ∀ name ∈ anchor, Word name) :
    (p.anchor anchor).Plain := by
  cases anchor with
  | none => exact h
  | some name =>
    have sign : Word ('&' :: name) := Word.append (s := ['&']) (.of_all rfl) (words name rfl)
    exact plain_of_settled (h.settled_indicator true false false name rfl sign.inline)

theorem plain_tag (h : p.Plain) {tag : Tag} (word : Word (shortTag tag)) :
    (p.indicator (shortTag tag) true).Plain :=
  plain_of_settled (h.settled_indicator true false false _ rfl word.inline)

theorem plain_scalar (h : p.Plain) (place : Place) (step : Nat) {column : Nat} (room : 0 < column)
    {tag : Tag} {text : Text} (style : Style) (word : Word (shortTag tag)) :
    (p.scalar place step column tag text style).Plain := by
  have tagged : (if tagIsImplied tag text (form place tag text style) then p
      else p.indicator (shortTag tag) true).Plain := by
    split
    · exact h
    · exact plain_tag h word
  have fits := fits_form place tag text style
  unfold scalar
  dsimp only
  generalize (if tagIsImplied tag text (form place tag text style) then p
      else p.indicator (shortTag tag) true) = q at tagged ⊢
  cases hf : form place tag text style with
  | plain =>
    rw [hf] at fits
    exact tagged.plain place.isRoot (inline_of_plain fits.2).1 (startsMark_of_plain fits.2)
  | singleQuoted =>
    rw [hf] at fits
    exact plain_singleQuoted tagged room fits.shown
  | doubleQuoted => exact plain_doubleQuoted tagged text
  | literal =>
    rw [hf] at fits
    exact plain_literal tagged step room fits.1.shown

end Outline.Pen

/-! ## Nodes -/

namespace Outline

open Pen

variable {p : Pen} {step : Nat}

theorem deeper_pos (room : 0 < step) (indent : Option Nat) : 0 < deeper step step indent := by
  cases indent with
  | none => exact room
  | some column => exact Nat.lt_of_lt_of_le room (Nat.le_add_left _ _)

theorem plain_indentTo (h : p.Plain) (column : Nat) : (p.indentTo column).Plain := by
  obtain ⟨ready, -⟩ := h.indentTo column
  exact ⟨ready.undivided, fun _ => ready⟩

/-- A dash at a column: what follows it comes behind a space or on another line. -/
theorem plain_dashAt (h : p.Plain) (column : Nat) :
    ((p.indentTo column).indicator ['-'] true false true).Plain := by
  obtain ⟨ready, gap, -⟩ := h.indentTo column
  have put : ((p.indentTo column).indicator ['-'] true false true).text =
      (p.indentTo column).text ++ ['-'] := by
    rw [← text_put]
    simp [Pen.text, Pen.indicator, gap]
  refine ⟨?_, fun gap => by cases gap⟩
  rw [put]
  exact ready.append (.of_all rfl) rfl

theorem plain_sign (h : p.Plain) (needsGap isGap inIndent : Bool) {c : Char}
    (apart : isApart c = true) (inline : Inline [c]) :
    (p.indicator [c] needsGap isGap inIndent).Plain :=
  plain_of_settled (h.settled_indicator needsGap isGap inIndent [] apart inline)

/-- The comma before every entry in brackets but the first. -/
theorem plain_comma (h : p.Plain) (more : Bool) :
    (if more then p.indicator [','] false else p).Plain := by
  split
  · exact plain_sign h false false false rfl (.of_all rfl)
  · exact h

mutual

/-- A written node starts no line like a mark. -/
theorem plain_write (room : 0 < step) (flow : Bool) (place : Place) (indent : Option Nat)
    {o : Outline} (proper : Proper o) {p : Pen} (h : p.Plain) :
    (write step flow place indent o p).Plain := by
  cases o with
  | aliasOf name =>
    cases proper with
    | aliasOf word =>
      have sign : Word ('*' :: name) := Word.append (s := ['*']) (.of_all rfl) word
      exact plain_of_settled (h.settled_indicator true false false name rfl sign.inline)
  | scalar anchor tag text style =>
    cases proper with
    | scalar words word nonempty =>
      exact plain_scalar (plain_anchor h words) place step (deeper_pos room indent) style word
  | sequence anchor items =>
    cases proper with
    | sequence words inner =>
      have named := plain_anchor h words
      rw [write]
      dsimp only
      split
      · have opened := plain_sign named true true false (c := '[') rfl (.of_all rfl)
        have filled := plain_writeFlowItems room (deeper step step indent) false inner opened
        exact plain_sign filled false false false rfl (.of_all rfl)
      · exact plain_writeItems room _ inner named
  | mapping anchor tag pairs =>
    cases proper with
    | mapping words word keys values =>
      have named := plain_anchor h words
      have tagged : (if tag = .map then p.anchor anchor
          else (p.anchor anchor).indicator (shortTag tag) true).Plain := by
        split
        · exact named
        · exact plain_tag named word
      rw [write]
      dsimp only
      split
      · have opened := plain_sign tagged true true false (c := '\x7b') rfl (.of_all rfl)
        have filled := plain_writeFlowPairs room (deeper step step indent) false keys values opened
        exact plain_sign filled false false false rfl (.of_all rfl)
      · exact plain_writePairs room _ keys values tagged

theorem plain_writeItems (room : 0 < step) (column : Nat) {items : List Outline}
    (proper : ∀ o ∈ items, Proper o) {p : Pen} (h : p.Plain) :
    (writeItems step column items p).Plain := by
  cases items with
  | nil => exact h
  | cons o r =>
    obtain ⟨head, tail⟩ := List.forall_mem_cons.mp proper
    have item := plain_write room false {} (some column) head (plain_dashAt h column)
    exact plain_writeItems room column tail item

theorem plain_writeFlowItems (room : 0 < step) (column : Nat) (more : Bool) {items : List Outline}
    (proper : ∀ o ∈ items, Proper o) {p : Pen} (h : p.Plain) :
    (writeFlowItems step column more items p).Plain := by
  cases items with
  | nil => exact h
  | cons o r =>
    obtain ⟨head, tail⟩ := List.forall_mem_cons.mp proper
    have item := plain_write room true { inFlow := true } (some column) head (plain_comma h more)
    exact plain_writeFlowItems room column true tail item

theorem plain_writePairs (room : 0 < step) (column : Nat) {pairs : List (Outline × Outline)}
    (keys : ∀ e ∈ pairs, Proper e.1) (values : ∀ e ∈ pairs, Proper e.2) {p : Pen} (h : p.Plain) :
    (writePairs step column pairs p).Plain := by
  cases pairs with
  | nil => exact h
  | cons e r =>
    obtain ⟨k, v⟩ := e
    obtain ⟨key, keys⟩ := List.forall_mem_cons.mp keys
    obtain ⟨value, values⟩ := List.forall_mem_cons.mp values
    have there := plain_indentTo h column
    rw [writePairs]
    dsimp only
    refine plain_writePairs room column keys values ?_
    refine plain_write room false { inMapping := true } (some column) value ?_
    split
    · have named := plain_write room false { inMapping := true, isSimpleKey := true } (some column)
        key there
      exact plain_sign named false false false rfl (.of_all rfl)
    · have mark := plain_sign there true false true (c := '?') rfl (.of_all rfl)
      have named := plain_write room false { inMapping := true } (some column) key mark
      exact plain_sign (plain_indentTo named column) true false true rfl (.of_all rfl)

theorem plain_writeFlowPairs (room : 0 < step) (column : Nat) (more : Bool)
    {pairs : List (Outline × Outline)} (keys : ∀ e ∈ pairs, Proper e.1)
    (values : ∀ e ∈ pairs, Proper e.2) {p : Pen} (h : p.Plain) :
    (writeFlowPairs step column more pairs p).Plain := by
  cases pairs with
  | nil => exact h
  | cons e r =>
    obtain ⟨k, v⟩ := e
    obtain ⟨key, keys⟩ := List.forall_mem_cons.mp keys
    obtain ⟨value, values⟩ := List.forall_mem_cons.mp values
    have comma := plain_comma h more
    rw [writeFlowPairs]
    dsimp only
    generalize (if more then p.indicator [','] false else p) = q at comma ⊢
    refine plain_writeFlowPairs room column true keys values ?_
    refine plain_write room true { inMapping := true, inFlow := true } (some column) value ?_
    split
    · have named := plain_write room true
        { inMapping := true, isSimpleKey := true, inFlow := true } (some column) key comma
      exact plain_sign named false false false rfl (.of_all rfl)
    · have mark := plain_sign comma true false false (c := '?') rfl (.of_all rfl)
      have named := plain_write room true { inMapping := true, inFlow := true } (some column) key mark
      exact plain_sign named true false false rfl (.of_all rfl)

end

end Outline

/-! ## Documents and fragments -/

theorem Value.withoutEnd_append (s : Text) : withoutEnd (s ++ "\n...\n".toList) = s := by
  have cut : (s ++ "\n...\n".toList).take ((s ++ "\n...\n".toList).length - 4) = s ++ ['\n'] := by
    have keep : (s ++ "\n...\n".toList).length - 4 = (s ++ ['\n']).length := by simp
    have whole : s ++ "\n...\n".toList = (s ++ ['\n']) ++ "...\n".toList := by simp
    rw [keep, whole, List.take_left']
    rfl
  rw [withoutEnd, if_pos (List.isSuffixOf_iff_suffix.mpr (List.suffix_append _ _)), cut,
    if_pos (by simp), List.dropLast_concat]

/-- The end mark behind a scalar that could go on is taken off with the end of the document. -/
theorem undivided_withoutEnd_close {p : Outline.Pen} (h : p.Plain) (done : p.Done) :
    Undivided (Value.withoutEnd p.close) := by
  obtain ⟨ready, gap, -⟩ := h.indentTo 0
  have sharp := Outline.Pen.sharp_indentTo_zero done.toSharp
  have some := Outline.Pen.written_indentTo 0 done.some
  unfold Outline.Pen.close
  dsimp only
  generalize p.indentTo 0 = q at ready gap sharp some ⊢
  split
  · have ended : ((q.indicator "...".toList true).indentTo 0).written.reverse =
        q.text ++ "...\n".toList := by
      simp [Outline.Pen.indentTo, Outline.Pen.indicator, gap, Outline.Pen.newLine, Outline.Pen.put,
        Outline.Pen.text]
    rw [ended]
    rcases ready with settled | ⟨undivided, last⟩
    · have line := (settled "...".toList (.of_all rfl)).newLine (c := '\n') rfl
      rw [List.append_assoc] at line
      exact line.undivided.mono (Value.withoutEnd_isPrefix _)
    · rcases List.eq_nil_or_concat' q.text with none | ⟨u, c, cut⟩
      · exact absurd (List.reverse_eq_nil_iff.mp none) some
      · rw [cut] at undivided last ⊢
        have stops := last c (by simp)
        have written : c ∈ q.written := by
          have wrote : q.written.reverse = u ++ [c] := cut
          rw [← List.mem_reverse, wrote]
          exact List.mem_concat_self
        have feed : c = '\n' := by
          rw [Text.isBreak, Bool.or_eq_true, beq_iff_eq, beq_iff_eq] at stops
          exact stops.resolve_right (sharp.allowed c written).2
        subst feed
        rw [List.append_assoc]
        exact (Value.withoutEnd_append u).symm ▸ undivided.mono (List.prefix_append u _)
  · exact ready.undivided.mono (Value.withoutEnd_isPrefix _)

theorem usedStep_pos (step : Nat) : 0 < Outline.usedStep step := by
  unfold Outline.usedStep
  split
  · next used =>
    rw [Bool.and_eq_true, decide_eq_true_eq] at used
    omega
  · omega

theorem undivided_document {v : Value} {indent : Columns} {flow : Bool} {s : Text}
    (h : v.document indent flow = .ok s) : Undivided (Value.withoutEnd s) := by
  rw [Value.document] at h
  split at h
  · cases h
  · cases h
  · next o built =>
    split at h
    · cases h
    · cases h
      have proper := Outline.proper_ofValue built
      exact undivided_withoutEnd_close
        (Outline.plain_write (usedStep_pos _) _ _ none proper Outline.Pen.plain_start)
        (Outline.done_write _ _ _ none proper Outline.Pen.sharp_start.toNeat
          (.inl Outline.Pen.sharp_start))

/-- A mark at the start of a text stays there in another line break. -/
theorem prefix_of_prefix_spread {b : LineBreak} {p s : Text} (inline : ∀ c ∈ p, Text.isBreak c = false)
    (h : p <+: spread b s) : p <+: s := by
  induction s generalizing p with
  | nil => exact h
  | cons c r ih =>
    cases p with
    | nil => exact List.nil_prefix
    | cons x p =>
      obtain ⟨head, tail⟩ := List.forall_mem_cons.mp inline
      rw [spread_cons] at h
      split at h
      · have stops : Text.isBreak x = true := by
          cases b <;> obtain ⟨rfl, -⟩ := List.cons_prefix_cons.mp h <;> rfl
        rw [head] at stops
        cases stops
      · obtain ⟨rfl, rest⟩ := List.cons_prefix_cons.mp h
        exact List.cons_prefix_cons.mpr ⟨rfl, ih tail rest⟩

theorem Undivided.spread {s : Text} (h : Undivided s) (b : LineBreak) :
    Undivided (YamlEdit.spread b s) := by
  have kept {s : Text} (h : startsMark s = false) : startsMark (YamlEdit.spread b s) = false := by
    rw [startsMark_eq_false] at h ⊢
    have inline : ∀ p ∈ marks, ∀ c ∈ p, Text.isBreak c = false := by
      simp [marks, Text.isBreak]
    intro p hp within
    exact h p hp (prefix_of_prefix_spread (inline p hp) within)
  obtain ⟨start, lines⟩ := h
  refine ⟨kept start, ?_⟩
  clear start
  induction s with
  | nil => rfl
  | cons c r ih =>
    rw [divides, Bool.or_eq_false_iff, Bool.and_eq_false_imp] at lines
    have more := ih lines.2
    rw [spread_cons]
    split
    · next feed =>
      subst feed
      have line := kept (lines.1 rfl)
      cases b with
      | lf | cr =>
        simp only [LineBreak.text, List.cons_append, List.nil_append, divides, line, more,
          Bool.and_false, Bool.or_false]
      | crlf =>
        have second (t : Text) : startsMark ('\n' :: t) = false := rfl
        simp only [LineBreak.text, List.cons_append, List.nil_append, divides, second, line, more,
          Bool.and_false, Bool.or_false]
    · rw [List.singleton_append, divides, more, Bool.or_false, Bool.and_eq_false_imp]
      exact fun stops => kept (lines.1 stops)

/-- A fragment does not divide a document that it is put into. -/
theorem Value.undivided_dump {v : Value} {b : LineBreak} {indent : Nat} {flow : Bool} {f : Text}
    (h : v.dump (.of b indent) flow = .ok f) : Undivided f := by
  obtain ⟨s, written, rfl⟩ := dump_spreads h
  exact (undivided_document written).spread b

/-- In a text of common line breaks the lines are those that a scanner goes by. -/
theorem Undivided.markless {s : Text} (h : Undivided s)
    (plain : ∀ c ∈ s, Scan.isBreak c = true → Text.isBreak c = true) : Markless s := by
  obtain ⟨-, lines⟩ := h
  induction s with
  | nil =>
    intro c r within
    exact absurd (List.suffix_nil.mp within) (List.cons_ne_nil c r)
  | cons x t ih =>
    rw [divides, Bool.or_eq_false_iff, Bool.and_eq_false_imp] at lines
    obtain ⟨head, tail⟩ := List.forall_mem_cons.mp plain
    intro c r within stops
    rcases List.suffix_cons_iff.mp within with same | inner
    · obtain ⟨rfl, rfl⟩ := List.cons.inj same
      exact lines.1 (head stops)
    · exact ih tail lines.2 c r inner stops

end YamlEdit
