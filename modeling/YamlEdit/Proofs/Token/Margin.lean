import Mathlib.Data.List.TakeWhile
import YamlEdit.Proofs.Token.Shift
import YamlEdit.Proofs.TrailingBlanks

/-!
# Margins

A text of blank lines and comments, such as those above the first value of a document. The scanner
goes over it without a trace: what is cut after a margin is cut as from a text that starts there.
A text whose first token is its end is a margin, and so is one that loses blanks at the ends of its
lines.
-/

namespace YamlEdit

open Scan

/-- Whether lines hold nothing but spaces and comments; `comment` says that one was begun. -/
def isMarginFrom (comment : Bool) : Text → Bool
  | [] => true
  | c :: r =>
    if Scan.isBreak c then isMarginFrom false r
    else if comment then isMarginFrom true r
    else if c == ' ' then isMarginFrom false r
    else c == '#' && isMarginFrom true r

/-- Blank lines and comments, each with its end. -/
structure Margin (h : Text) : Prop where
  lines : isMarginFrom false h = true
  ended : ∀ c ∈ h.getLast?, Scan.isBreak c = true

namespace Margin

theorem nil : Margin [] := ⟨rfl, by simp⟩

/-! ## One line of a margin -/

theorem isMarginFrom_skipLine (s : Text) :
    isMarginFrom true s = isMarginFrom true (skipLine s) := by
  induction s with
  | nil => rfl
  | cons c r ih =>
    rw [skipLine] at ih ⊢
    by_cases hc : Scan.isBreak c
    · simp [hc]
    · simp [hc, isMarginFrom, ih]

theorem isMarginFrom_skipSpaces (s : Text) :
    isMarginFrom false s = isMarginFrom false (skipSpaces s) := by
  induction s with
  | nil => rfl
  | cons c r ih =>
    rw [skipSpaces] at ih ⊢
    by_cases hc : c = ' '
    · subst hc
      simp [isMarginFrom, Scan.isBreak, ih]
    · simp [hc]

/-- A place behind the spaces and the comment of a line: it is at the end of the line, or at
something else. -/
theorem isMarginFrom_skipComment (s : Text) :
    isMarginFrom false s =
      match skipComment s with
      | [] => true
      | c :: r => Scan.isBreak c && isMarginFrom false r := by
  rw [isMarginFrom_skipSpaces]
  rw [skipComment]
  cases hs : skipSpaces s with
  | nil => rfl
  | cons c r =>
    have space : c ≠ ' ' := by
      intro hc
      have head := List.head?_dropWhile_not (· == ' ') s
      rw [skipSpaces] at hs
      simp [hs, hc] at head
    by_cases number : c = '#'
    · subst number
      have comment : isMarginFrom false ('#' :: r) = isMarginFrom true (skipLine r) := by
        rw [← isMarginFrom_skipLine]
        simp [isMarginFrom, Scan.isBreak]
      have line : skipLine ('#' :: r) = skipLine r := by simp [skipLine, Scan.isBreak]
      rw [comment]
      simp only [List.head?_cons, beq_self_eq_true, if_true, line]
      cases hl : skipLine r with
      | nil => rfl
      | cons d t =>
        have stops : Scan.isBreak d = true := by
          have head := List.head?_dropWhile_not (fun c => !Scan.isBreak c) r
          rw [skipLine] at hl
          simpa [hl] using head
        simp [isMarginFrom, stops]
    · by_cases line : Scan.isBreak c
      · simp [isMarginFrom, number, line]
      · simp [isMarginFrom, number, line, space]

theorem isMarginFrom_afterBreak? (comment : Bool) {s r : Text} (h : afterBreak? s = some r) :
    isMarginFrom comment s = isMarginFrom false r := by
  unfold afterBreak? at h
  split at h
  · cases h
    simp [isMarginFrom, Scan.isBreak]
  · next c t _ =>
    split at h
    · next hc =>
      cases h
      simp [isMarginFrom, hc]
    · cases h
  · cases h

theorem isBreak_of_afterBreak? {s r : Text} (h : afterBreak? s = some r) :
    ∃ c t, s = c :: t ∧ Scan.isBreak c = true := by
  unfold afterBreak? at h
  split at h
  · exact ⟨_, _, rfl, rfl⟩
  · next c t _ =>
    split at h
    · next stops => exact ⟨_, _, rfl, stops⟩
    · cases h
  · cases h

theorem suffix_afterBreak? {s r : Text} (h : afterBreak? s = some r) : r <:+ s := by
  unfold afterBreak? at h
  split at h
  · cases h
    exact ⟨['\r', '\n'], rfl⟩
  · split at h
    · cases h
      exact List.suffix_cons _ _
    · cases h
  · cases h

theorem suffix_skipComment (s : Text) : skipComment s <:+ s := by
  have spaces : skipSpaces s <:+ s := List.dropWhile_suffix _
  simp only [skipComment]
  split
  · exact (List.dropWhile_suffix _).trans spaces
  · exact spaces

/-- A line without its end is left by what goes over comments only if that leaves something. -/
theorem isBreak_eq_false_of_skipComment {s : Text} (h : skipComment s = []) :
    ∀ c ∈ s, Scan.isBreak c = false := by
  induction s with
  | nil => simp
  | cons c r ih =>
    by_cases space : c = ' '
    · subst space
      have rest : skipComment r = [] := by simpa [skipComment, skipSpaces] using h
      intro d hd
      rcases List.mem_cons.mp hd with rfl | hr
      · rfl
      · exact ih rest d hr
    · by_cases number : c = '#'
      · subst number
        have line : skipLine ('#' :: r) = [] := by simpa [skipComment, skipSpaces] using h
        simpa using List.dropWhile_eq_nil_iff.mp line
      · simp [skipComment, skipSpaces, space, number] at h

theorem getLast?_of_suffix {s h : Text} (suffix : s <:+ h) {c : Char} (hc : c ∈ s.getLast?) :
    c ∈ h.getLast? := by
  obtain ⟨p, rfl⟩ := suffix
  have hc : s.getLast? = some c := hc
  simp [hc]

/-- A margin that is not empty starts with a line of its own. -/
theorem line {h : Text} (m : Margin h) (nonempty : h ≠ []) :
    ∃ r, afterBreak? (skipComment h) = some r ∧ Margin r := by
  have lines := m.lines
  rw [isMarginFrom_skipComment] at lines
  cases hs : skipComment h with
  | nil =>
    have hc : h.getLast nonempty ∈ h.getLast? := List.getLast?_eq_some_getLast nonempty
    have stops := m.ended _ hc
    rw [isBreak_eq_false_of_skipComment hs _ (List.getLast_mem nonempty)] at stops
    cases stops
  | cons c t =>
    rw [hs] at lines
    obtain ⟨stops, after⟩ := Bool.and_eq_true_iff.mp lines
    have found : ∃ r, afterBreak? (c :: t) = some r := by
      unfold afterBreak?
      split
      · exact ⟨_, rfl⟩
      · next he =>
        cases he
        simp [stops]
      · next he => cases he
    obtain ⟨r, hr⟩ := found
    have behind : isMarginFrom false (c :: t) = true := by
      simpa [isMarginFrom, stops] using after
    refine ⟨r, hr, ?_, ?_⟩
    · rwa [isMarginFrom_afterBreak? false hr] at behind
    · have suffix : r <:+ h := (suffix_afterBreak? hr).trans (hs ▸ suffix_skipComment h)
      exact fun d hd => m.ended d (getLast?_of_suffix suffix hd)

end Margin

/-! ## What follows a line -/

namespace Cursor

theorem advance_add (m n : Nat) (c : Cursor) : advance (m + n) c = advance n (advance m c) := by
  induction m generalizing c with
  | zero => rw [Nat.zero_add]; rfl
  | succ m ih =>
    obtain ⟨rest, mark⟩ := c
    rw [Nat.succ_add]
    cases rest with
    | nil =>
      cases n with
      | zero => rfl
      | succ n => rfl
    | cons ch r => exact ih _

theorem rest_reach_of_suffix {c : Cursor} {rest : Text} (h : rest <:+ c.rest) :
    (c.reach rest).rest = rest := by
  rw [rest_reach]
  exact (List.suffix_iff_eq_drop.mp h).symm

theorem reach_reach {c : Cursor} {s r : Text} (first : s <:+ c.rest) (second : r <:+ s) :
    (c.reach s).reach r = c.reach r := by
  have there := rest_reach_of_suffix first
  unfold reach at there ⊢
  rw [there, ← advance_add]
  have := first.length_le
  have := second.length_le
  congr 1
  omega

/-- A line break leads to the first column. -/
theorem column_reach {c : Cursor} {s r : Text} (first : s <:+ c.rest)
    (line : afterBreak? s = some r) : (c.reach r).mark.column = 0 := by
  rw [← reach_reach first (Margin.suffix_afterBreak? line)]
  have there := rest_reach_of_suffix first
  generalize c.reach s = d at there
  obtain ⟨rest, m⟩ := d
  subst there
  dsimp only at line
  unfold afterBreak? at line
  split at line
  · cases line
    have two : List.length ('\r' :: '\n' :: r) - r.length = 2 := by
      simp only [List.length_cons]
      omega
    simp only [reach, two]
    rfl
  · next ch t pair =>
    split at line
    · next stops =>
      cases line
      have one : List.length (ch :: r) - r.length = 1 := by simp
      have ends : (Mark.endsLine ch || (ch == '\r' && r.head? != some '\n')) = true := by
        simp only [Scan.isBreak, Bool.or_eq_true, beq_iff_eq] at stops
        rcases stops with (((rfl | rfl) | rfl) | rfl) | rfl
        · cases r with
          | nil => rfl
          | cons d t =>
            have other : d ≠ '\n' := fun same => pair t rfl (by rw [same])
            simp [other]
        all_goals rfl
      simp only [reach, one, advance, Mark.past, ends, if_true]
    · cases line
  · cases line

end Cursor

namespace Margin

theorem skipComment_append {h : Text} (some : skipComment h ≠ []) (t : Text) :
    skipComment (h ++ t) = skipComment h ++ t := by
  have spaces : skipSpaces h ≠ [] := by
    intro none
    simp [skipComment, none] at some
  have first : skipSpaces (h ++ t) = skipSpaces h ++ t := by
    unfold skipSpaces at spaces ⊢
    simp [List.dropWhile_append, spaces]
  have head : (skipSpaces h ++ t).head? = (skipSpaces h).head? := by
    cases hs : skipSpaces h with
    | nil => exact absurd hs spaces
    | cons c r => rfl
  simp only [skipComment, first, head] at some ⊢
  split
  · next number =>
    rw [if_pos number] at some
    unfold skipLine at some ⊢
    simp [List.dropWhile_append, some]
  · rfl

theorem afterBreak?_append {s r t : Text} (h : afterBreak? s = some r)
    (apart : t.head? ≠ some '\n') : afterBreak? (s ++ t) = some (r ++ t) := by
  unfold afterBreak? at h
  split at h
  · cases h; rfl
  · next c u pair =>
    split at h
    · next stops =>
      cases h
      unfold afterBreak?
      split
      · next he =>
        cases r with
        | nil =>
          simp only [List.cons_append, List.nil_append, List.cons.injEq] at he
          rw [he.2] at apart
          simp at apart
        | cons d v =>
          simp only [List.cons_append, List.cons.injEq] at he
          exact (pair v he.1 (by rw [he.2.1])).elim
      · next he =>
        cases he
        simp [stops]
      · next he => cases he
    · cases h
  · cases h

/-- The way to the next token leads over a margin, and what it does behind is the same as there. -/
theorem toNextToken_append {h t : Text} (m : Margin h) (apart : t.head? ≠ some '\n')
    {s : Scanner} (here : s.cursor.rest = h ++ t) (level : s.level = 0)
    (allowed : s.keyAllowed = true) (column : s.cursor.mark.column = 0) :
    ∃ c : Cursor, c.rest = t ∧ c.mark.column = 0 ∧ ∀ n, s.cursor.rest.length < n →
      Scanner.toNextToken n s = Scanner.toNextToken n { s with cursor := c } := by
  induction hn : h.length using Nat.strong_induction_on generalizing h s with
  | _ size ih =>
    by_cases nonempty : h = []
    · subst nonempty
      exact ⟨s.cursor, here, column, fun n _ => rfl⟩
    · obtain ⟨r, hr, rest⟩ := m.line nonempty
      have some : skipComment h ≠ [] := by
        intro none
        rw [none] at hr
        cases hr
      have next : afterBreak? (skipComment s.cursor.rest) = .some (r ++ t) := by
        rw [here, skipComment_append some, afterBreak?_append hr apart]
      have suffix : r ++ t <:+ s.cursor.rest :=
        (suffix_afterBreak? next).trans (suffix_skipComment _)
      have shorter : r.length < h.length :=
        Nat.lt_of_lt_of_le (length_afterBreak?_lt hr) (length_skipComment_le h)
      obtain ⟨c, hc, first, same⟩ := ih r.length (hn ▸ shorter) rest
        (s := { s with cursor := s.cursor.reach (r ++ t) }) (Cursor.rest_reach_of_suffix suffix)
        level allowed (Cursor.column_reach (suffix_skipComment _) next) rfl
      refine ⟨c, hc, first, ?_⟩
      intro n hlt
      have length : (s.cursor.reach (r ++ t)).rest.length + 1 ≤ s.cursor.rest.length := by
        rw [Cursor.rest_reach_of_suffix suffix, here, List.length_append, List.length_append]
        omega
      cases n with
      | zero => omega
      | succ n =>
        have one : Scanner.toNextToken (n + 1) s =
            Scanner.toNextToken n { s with cursor := s.cursor.reach (r ++ t) } := by
          simp only [Scanner.toNextToken, next, allowed, Bool.true_or]
        rw [one, same n (by dsimp only; omega)]
        refine Scanner.toNextToken_steps ?_ ?_
        all_goals
          dsimp only
          rw [hc]
          rw [Cursor.rest_reach_of_suffix suffix, List.length_append] at length
          omega

/-! ## Where margins come from -/

/-- A text that the way to the first token takes up is made of blank lines and comments. -/
theorem isMarginFrom_of_toNextToken {steps : Nat} {s : Scanner}
    (h : (Scanner.toNextToken steps s).cursor.rest = []) :
    isMarginFrom false s.cursor.rest = true := by
  induction steps generalizing s with
  | zero =>
    have none : s.cursor.rest = [] := h
    rw [none]
    rfl
  | succ steps ih =>
    rw [isMarginFrom_skipComment]
    simp only [Scanner.toNextToken] at h
    cases hb : afterBreak? (skipComment s.cursor.rest) with
    | none =>
      rw [hb] at h
      dsimp only at h
      rw [Cursor.rest_reach_of_suffix (suffix_skipComment _)] at h
      rw [h]
    | some next =>
      rw [hb] at h
      have rest := ih h
      dsimp only at rest
      rw [Cursor.rest_reach_of_suffix ((suffix_afterBreak? hb).trans (suffix_skipComment _))] at rest
      have line := isMarginFrom_afterBreak? false hb
      obtain ⟨c, t, ht, stops⟩ := isBreak_of_afterBreak? hb
      rw [ht] at line ⊢
      simpa [isMarginFrom, stops, rest] using line

theorem isBreak_of_isBreak {c : Char} (h : Text.isBreak c = true) : Scan.isBreak c = true := by
  simp only [Text.isBreak, Bool.or_eq_true, beq_iff_eq] at h
  rcases h with rfl | rfl <;> rfl

theorem isMarginFrom_append_break (b : LineBreak) (comment : Bool) (h : Text) :
    isMarginFrom comment (h ++ b.text) = isMarginFrom comment h := by
  induction h generalizing comment with
  | nil => cases b <;> rfl
  | cons c r ih => simp only [List.cons_append, isMarginFrom, ih]

theorem getLast?_text (b : LineBreak) (h : Text) :
    ∃ c, (h ++ b.text).getLast? = some c ∧ Text.isBreak c = true := by
  cases b with
  | lf => exact ⟨'\n', by simp [LineBreak.text], rfl⟩
  | crlf => exact ⟨'\n', by simp [LineBreak.text], rfl⟩
  | cr => exact ⟨'\r', by simp [LineBreak.text], rfl⟩

/-- Blank lines and comments with a line break behind the last one, if it has none of its own. -/
theorem of_isMarginFrom {h : Text} (lines : isMarginFrom false h = true) (b : LineBreak) :
    Margin (if h.getLast?.any Text.isBreak then h else h ++ b.text) := by
  split
  · next ended =>
    refine ⟨lines, fun c hc => isBreak_of_isBreak ?_⟩
    have hc : h.getLast? = some c := hc
    simpa [hc] using ended
  · refine ⟨by rwa [isMarginFrom_append_break], ?_⟩
    intro c hc
    obtain ⟨d, hd, stops⟩ := getLast?_text b h
    rw [hd] at hc
    cases hc
    exact isBreak_of_isBreak stops

/-- Blanks in front of a text change nothing about where its lines are. -/
theorem isMarginFrom_of_blanks {comment : Bool} {blanks s : Text}
    (all : ∀ b ∈ blanks, Text.isSpaceOrTab b = true)
    (h : isMarginFrom comment (blanks ++ s) = true) : isMarginFrom comment s = true := by
  induction blanks with
  | nil => exact h
  | cons b r ih =>
    refine ih (fun c hc => all c (List.mem_cons_of_mem b hc)) ?_
    have blank := all b List.mem_cons_self
    simp only [Text.isSpaceOrTab, Bool.or_eq_true, beq_iff_eq] at blank
    rcases blank with rfl | rfl <;> cases comment <;> simp_all [isMarginFrom, Scan.isBreak]

theorem isMarginFrom_append {s t u : Text} (h : ∀ comment, isMarginFrom comment t = true →
    isMarginFrom comment u = true) {comment : Bool} (whole : isMarginFrom comment (s ++ t) = true) :
    isMarginFrom comment (s ++ u) = true := by
  induction s generalizing comment with
  | nil => exact h comment whole
  | cons c s ih =>
    simp only [List.cons_append, isMarginFrom] at whole ⊢
    split
    · next line => exact ih (by simpa [line] using whole)
    · next line =>
      split
      · next inside => exact ih (by simpa [line, inside] using whole)
      · next inside =>
        split
        · next space => exact ih (by simpa [line, inside, space] using whole)
        · next space =>
          simp only [line, inside, space, Bool.false_eq_true, if_false, Bool.and_eq_true] at whole
          simp only [whole.1, ih whole.2, Bool.and_self]

theorem isMarginFrom_stripFrom {comment : Bool} {blanks s : Text}
    (all : ∀ b ∈ blanks, Text.isSpaceOrTab b = true)
    (h : isMarginFrom comment (blanks.reverse ++ s) = true) :
    isMarginFrom comment (Document.stripFrom blanks s) = true := by
  induction s generalizing comment blanks with
  | nil => rfl
  | cons c r ih =>
    simp only [Document.stripFrom]
    split
    · next blank =>
      exact ih (fun b hb => (List.mem_cons.mp hb).elim (fun same => same ▸ blank) (all b)) (by simpa)
    · have rest (inside : Bool) (hr : isMarginFrom inside r = true) :
          isMarginFrom inside (Document.stripFrom [] r) = true := ih (by simp) hr
      split
      · next stops =>
        have line := isMarginFrom_of_blanks (by simpa using all) h
        simp only [isMarginFrom, isBreak_of_isBreak stops, if_true] at line ⊢
        exact rest false line
      · refine isMarginFrom_append (fun inside hi => ?_) h
        exact isMarginFrom_append (s := [c]) rest hi

/-- A margin without the blanks at the ends of its lines is a margin. -/
theorem withoutTrailingBlanks {h : Text} (m : Margin h)
    (last : ∀ c ∈ h.getLast?, Text.isBreak c = true) :
    Margin (Document.withoutTrailingBlanks h) := by
  refine ⟨isMarginFrom_stripFrom (by simp) m.lines, ?_⟩
  rcases List.eq_nil_or_concat h with rfl | ⟨s, c, rfl⟩
  · simp [Document.withoutTrailingBlanks, Document.stripFrom]
  · have stops := last c (by simp)
    intro d hd
    rw [Document.withoutTrailingBlanks, List.concat_eq_append,
      Document.getLast?_stripFrom stops] at hd
    cases hd
    exact isBreak_of_isBreak stops

end Margin

end YamlEdit
