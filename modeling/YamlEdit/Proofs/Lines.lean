import Mathlib.Data.List.Induction
import Mathlib.Data.List.TakeWhile
import YamlEdit.Text.Lines

/-!
# The lines of a text

A text cut into its lines, each with the line feed, the carriage return or the two together that
ends it. The last line has no terminator, and nothing stands in it where the text ends with one.

The helpers of the editor work at positions and never cut a text. What they find is said here by
the lines: where the line of a position starts, where it ends behind a comment, and where the
terminator of a line starts. All of it follows from one look at a position, which splits the text
into the lines before it, its own line in two parts, and the lines behind it (`exists_line`), and
from what a list of lines is (`Lined`).
-/

namespace YamlEdit.Text

/-- The lines of a text with their terminators. The last one has none and may be empty. -/
def lines : Text → List Text
  | [] => [[]]
  | '\r' :: '\n' :: r => ['\r', '\n'] :: lines r
  | c :: r =>
    if isBreak c then [c] :: lines r
    else
      match lines r with
      | [] => [[c]]
      | line :: rest => (c :: line) :: rest

/-- A line without its terminator. -/
def lineBody (line : Text) : Text :=
  line.takeWhile fun c => !isBreak c

/-- Where a line of a text starts, by its number; the end of the text behind the last line. -/
def lineOffset (s : Text) (k : Nat) : Nat :=
  ((lines s).take k).flatten.length

/-- The number of the line that a position is in, in a list of lines. A position behind a terminator
is in the next line. -/
def lineIn : List Text → Nat → Nat
  | line :: next :: rest, pos =>
    if pos < line.length then 0 else lineIn (next :: rest) (pos - line.length) + 1
  | _, _ => 0

/-- The number of the line that a position of a text is in. -/
def lineAt (s : Text) (pos : Nat) : Nat :=
  lineIn (lines s) pos

/-- Whether a position is between the two characters of one line break. -/
def splitsBreak (s : Text) (pos : Nat) : Bool :=
  pos != 0 && slice s (pos - 1) (pos + 1) == ['\r', '\n']

/-- A text that ends no line. -/
def Unbroken (s : Text) : Prop :=
  ∀ c ∈ s, isBreak c = false

/-- What a list of lines is: each but the last ends with one line break, which is not half of a
longer one. -/
inductive Lined : List Text → Prop
  | last {line : Text} (unbroken : Unbroken line) : Lined [line]
  | line {body : Text} {b : LineBreak} {rest : List Text} (unbroken : Unbroken body)
      (whole : b = .cr → rest.flatten.head? ≠ some '\n') (lined : Lined rest) :
      Lined ((body ++ b.text) :: rest)

variable {s line front rear : Text} {before after ls : List Text} {pos k j : Nat}

/-! ## Texts that end no line -/

theorem unbroken_nil : Unbroken [] := fun _ h => absurd h List.not_mem_nil

theorem Unbroken.append {t : Text} (hs : Unbroken s) (ht : Unbroken t) : Unbroken (s ++ t) :=
  fun c h => (List.mem_append.mp h).elim (hs c) (ht c)

/-- An unbroken part and what comes behind it, from a line break on, are told apart. -/
theorem takeWhile_unbroken {r : Text} (unbroken : Unbroken s)
    (next : ∀ c ∈ r.head?, isBreak c = true) :
    (s ++ r).takeWhile (fun c => !isBreak c) = s := by
  rw [List.takeWhile_append_of_pos (fun c h => by simp [unbroken c h])]
  cases r with
  | nil => simp
  | cons c r => simp [next c rfl]

theorem isBreak_of_mem_head?_text {b : LineBreak} {c : Char} {r : Text}
    (h : c ∈ (b.text ++ r).head?) : isBreak c = true := by
  cases b <;> (cases h; rfl)

theorem getLast_text (b : LineBreak) :
    ∃ t c, b.text = t ++ [c] ∧ isBreak c = true ∧ (c = '\r' → b = .cr) := by
  cases b with
  | lf => exact ⟨[], '\n', rfl, rfl, by simp⟩
  | crlf => exact ⟨['\r'], '\n', rfl, rfl, by simp⟩
  | cr => exact ⟨[], '\r', rfl, rfl, by simp⟩

/-- Only the longer one of the line breaks can be cut. -/
theorem text_cut {b : LineBreak} {u : Text} (h : b.text = u ++ rear) (rest : rear ≠ []) :
    u = [] ∧ rear = b.text ∨ u = ['\r'] ∧ rear = ['\n'] := by
  rcases u with _ | ⟨c, _ | ⟨d, u⟩⟩
  · exact .inl ⟨rfl, h.symm⟩
  · cases b with
    | crlf =>
      obtain ⟨rfl, feed⟩ := List.cons.inj h
      exact .inr ⟨rfl, feed.symm⟩
    | lf => exact absurd (List.cons.inj h).2.symm rest
    | cr => exact absurd (List.cons.inj h).2.symm rest
  · have short : b.text.length ≤ 2 := by cases b <;> decide
    have filled := List.length_pos_iff.mpr rest
    rw [h] at short
    simp only [List.cons_append, List.length_cons, List.length_append] at short
    omega

theorem lineBody_append {b : LineBreak} (unbroken : Unbroken s) : lineBody (s ++ b.text) = s :=
  takeWhile_unbroken unbroken fun c h =>
    isBreak_of_mem_head?_text (r := []) (by rwa [List.append_nil])

/-- A line break at the start of a text is as long as it is, unless it is half of a longer one. -/
theorem breakLength_text {b : LineBreak} {r : Text} (whole : b = .cr → r.head? ≠ some '\n') :
    breakLength (b.text ++ r) = b.text.length := by
  cases b with
  | lf => rfl
  | crlf => rfl
  | cr =>
    cases r with
    | nil => rfl
    | cons c r =>
      have other : c ≠ '\n' := fun h => whole rfl (by rw [h]; rfl)
      show breakLength ('\r' :: c :: r) = 1
      unfold breakLength
      split
      · next h => exact absurd (List.cons.inj (List.cons.inj h).2).1 other
      · next h => rw [← (List.cons.inj h).1]; rfl
      · next h => cases h

/-! ## A text and its lines -/

/-- A character that ends no line goes on the line behind it. -/
theorem Lined.cons {c : Char} (inside : isBreak c = false) (h : Lined (line :: ls)) :
    Lined ((c :: line) :: ls) := by
  have one : Unbroken [c] := by
    intro d hd
    rwa [List.mem_singleton.mp hd]
  cases h with
  | last unbroken => exact .last (one.append unbroken)
  | line unbroken whole lined => exact .line (one.append unbroken) whole lined

theorem flatten_lines (s : Text) : (lines s).flatten = s := by
  fun_induction lines s with
  | case1 => rfl
  | case2 r ih => rw [List.flatten_cons, ih]; rfl
  | case3 c r _ _ ih => rw [List.flatten_cons, ih]; rfl
  | case4 c r _ _ none ih => rw [none] at ih; rw [← ih]; rfl
  | case5 c r _ _ line rest eq ih => rw [← ih, eq]; rfl

theorem lined_lines (s : Text) : Lined (lines s) := by
  fun_induction lines s with
  | case1 => exact .last unbroken_nil
  | case2 r ih => exact .line (b := .crlf) unbroken_nil (by simp) ih
  | case3 c r notPair breaks ih =>
    simp only [isBreak, Bool.or_eq_true, beq_iff_eq] at breaks
    rcases breaks with rfl | rfl
    · exact .line (b := .lf) unbroken_nil (by simp) ih
    · refine .line (b := .cr) unbroken_nil (fun _ starts => ?_) ih
      rw [flatten_lines] at starts
      obtain ⟨r, rfl⟩ := List.head?_eq_some_iff.mp starts
      exact notPair r rfl rfl
  | case4 c r _ _ none ih => rw [none] at ih; cases ih
  | case5 c r _ inside line rest eq ih =>
    rw [eq] at ih
    exact ih.cons (by simpa using inside)

theorem Lined.right (h : Lined (before ++ line :: after)) : Lined (line :: after) := by
  induction before with
  | nil => exact h
  | cons first rest ih =>
    refine ih ?_
    rw [List.cons_append] at h
    generalize tail : rest ++ line :: after = ls at h
    cases h with
    | last _ => simp at tail
    | line _ _ lined => exact lined

/-- A line that is not the last one, with its terminator. -/
theorem Lined.terminated (h : Lined (line :: after)) (more : after ≠ []) :
    ∃ b : LineBreak, line = lineBody line ++ b.text ∧ Unbroken (lineBody line) ∧
      (b = .cr → after.flatten.head? ≠ some '\n') := by
  cases h with
  | last _ => exact absurd rfl more
  | @line body b _ unbroken whole _ =>
    rw [lineBody_append unbroken]
    exact ⟨b, rfl, unbroken, whole⟩

theorem Lined.unbroken (h : Lined [line]) : Unbroken line := by
  generalize none : ([] : List Text) = rest at h
  cases h with
  | last unbroken => exact unbroken
  | line _ _ lined =>
    rw [← none] at lined
    cases lined

/-- What comes before a line ends with a line break, which does not go on in the line. -/
theorem Lined.ends (h : Lined (before ++ line :: after)) :
    ∀ c ∈ before.flatten.getLast?,
      isBreak c = true ∧ (c = '\r' → (line :: after).flatten.head? ≠ some '\n') := by
  induction before using List.reverseRecOn with
  | nil => intro c none; cases none
  | append_singleton init first _ =>
    rw [List.append_assoc] at h
    obtain ⟨b, eq, -, whole⟩ := h.right.terminated (List.cons_ne_nil _ _)
    obtain ⟨t, c, text, breaks, return'⟩ := getLast_text b
    intro d last
    rw [List.flatten_append, List.flatten_cons, List.flatten_nil, List.append_nil, eq, text,
      ← List.append_assoc, ← List.append_assoc, List.getLast?_concat] at last
    cases last
    exact ⟨breaks, fun cr => whole (return' cr)⟩

/-! ## Offsets -/

theorem lineOffset_zero (s : Text) : lineOffset s 0 = 0 := rfl

theorem lineOffset_length (s : Text) : lineOffset s (lines s).length = s.length := by
  rw [lineOffset, List.take_length, flatten_lines]

theorem lineOffset_mono (s : Text) (h : k ≤ j) : lineOffset s k ≤ lineOffset s j := by
  obtain ⟨rest, eq⟩ := List.take_prefix_take_left (l := lines s) h
  rw [lineOffset, lineOffset, ← eq, List.flatten_append, List.length_append]
  omega

theorem lineOffset_le (s : Text) (k : Nat) : lineOffset s k ≤ s.length := by
  rcases Nat.le_total k (lines s).length with inside | behind
  · exact lineOffset_length s ▸ lineOffset_mono s inside
  · rw [lineOffset, List.take_of_length_le behind, flatten_lines]

theorem lineOffset_of_split (h : lines s = before ++ ls) :
    lineOffset s before.length = before.flatten.length := by
  rw [lineOffset, h, List.take_left' rfl]

theorem lineOffset_succ (h : (lines s)[k]? = some line) :
    lineOffset s (k + 1) = lineOffset s k + line.length := by
  rw [lineOffset, lineOffset, List.take_add_one, h, List.flatten_append, List.length_append]
  simp

/-- A position in a line is in a row of lines exactly if the line is. -/
theorem offsets_iff {a b : Nat} (first : lineOffset s k ≤ pos) (last : pos < lineOffset s (k + 1)) :
    lineOffset s a ≤ pos ∧ pos < lineOffset s (b + 1) ↔ a ≤ k ∧ k ≤ b := by
  constructor
  · rintro ⟨starts, ends⟩
    constructor
    · by_contra later
      have := lineOffset_mono s (show k + 1 ≤ a by omega)
      omega
    · by_contra earlier
      have := lineOffset_mono s (show b + 1 ≤ k by omega)
      omega
  · rintro ⟨starts, ends⟩
    have := lineOffset_mono s starts
    have := lineOffset_mono s (show k + 1 ≤ b + 1 by omega)
    exact ⟨by omega, by omega⟩

/-! ## The line of a position -/

/-- Lines before a position, the two parts of its own line, and lines behind it. -/
theorem exists_lineIn (nonempty : ls ≠ []) (inside : pos ≤ ls.flatten.length) :
    ∃ before front rear after, ls = before ++ (front ++ rear) :: after ∧
      pos = before.flatten.length + front.length ∧ lineIn ls pos = before.length ∧
      (after ≠ [] → rear ≠ []) := by
  fun_induction lineIn ls pos with
  | case1 line next rest pos first =>
    refine ⟨[], line.take pos, line.drop pos, next :: rest, ?_, ?_, rfl, fun _ => ?_⟩
    · rw [List.take_append_drop, List.nil_append]
    · rw [List.length_take, Nat.min_eq_left (Nat.le_of_lt first)]
      simp
    · exact fun none => by
        have := List.drop_eq_nil_iff.mp none
        omega
  | case2 line next rest pos later ih =>
    rw [List.flatten_cons, List.length_append] at inside
    obtain ⟨before, front, rear, after, eq, place, number, open'⟩ :=
      ih (List.cons_ne_nil _ _) (by omega)
    refine ⟨line :: before, front, rear, after, by rw [eq]; rfl, ?_, by rw [number]; rfl, open'⟩
    rw [List.flatten_cons, List.length_append]
    omega
  | case3 ls pos single =>
    obtain ⟨line, rfl⟩ : ∃ line, ls = [line] := by
      match ls, nonempty, single with
      | [line], _, _ => exact ⟨line, rfl⟩
      | line :: next :: rest, _, single => exact absurd rfl (single line next rest)
    rw [List.flatten_cons, List.flatten_nil, List.append_nil] at inside
    refine ⟨[], line.take pos, line.drop pos, [], ?_, ?_, rfl, fun more => absurd rfl more⟩
    · rw [List.take_append_drop, List.nil_append]
    · rw [List.length_take, Nat.min_eq_left inside]
      simp

/-- A text looked at from one of its positions. -/
structure Look (s : Text) (pos : Nat) (before : List Text) (front rear : Text)
    (after : List Text) : Prop where
  lines : lines s = before ++ (front ++ rear) :: after
  place : pos = before.flatten.length + front.length
  number : lineAt s pos = before.length
  /-- Behind a terminator a position is in the next line. -/
  opened : after ≠ [] → rear ≠ []

theorem exists_line (inside : pos ≤ s.length) :
    ∃ before front rear after, Look s pos before front rear after := by
  have nonempty : lines s ≠ [] := by
    intro none
    have lined := lined_lines s
    rw [none] at lined
    cases lined
  rw [← flatten_lines s] at inside
  obtain ⟨before, front, rear, after, eq, place, number, open'⟩ := exists_lineIn nonempty inside
  exact ⟨before, front, rear, after, eq, place, number, open'⟩

namespace Look

variable (look : Look s pos before front rear after)
include look

theorem lined : Lined (before ++ (front ++ rear) :: after) :=
  look.lines ▸ lined_lines s

theorem text : s = before.flatten ++ front ++ (rear ++ after.flatten) := by
  rw [← flatten_lines s, look.lines, List.flatten_append, List.flatten_cons]
  simp only [List.append_assoc]

theorem take : s.take pos = before.flatten ++ front := by
  rw [look.text, List.take_left' (by rw [List.length_append, look.place])]

theorem drop : s.drop pos = rear ++ after.flatten := by
  rw [look.text, List.drop_left' (by rw [List.length_append, look.place])]

theorem offset : lineOffset s (lineAt s pos) = before.flatten.length := by
  rw [look.number, lineOffset_of_split look.lines]

theorem offset_succ :
    lineOffset s (lineAt s pos + 1) = before.flatten.length + (front.length + rear.length) := by
  have here : (YamlEdit.Text.lines s)[lineAt s pos]? = some (front ++ rear) := by
    rw [look.lines, look.number, List.getElem?_append_right (Nat.le_refl _), Nat.sub_self]
    rfl
  rw [lineOffset_succ here, look.offset, List.length_append]

theorem last_iff : lineAt s pos + 1 < (YamlEdit.Text.lines s).length ↔ after ≠ [] := by
  rw [look.lines, look.number, List.length_append, List.length_cons, ← List.length_pos_iff]
  omega

/-- Unless the position is between the two characters of a line break, nothing before it in its line
is a terminator. -/
theorem unbroken_front (whole : splitsBreak s pos = false) : Unbroken front := by
  by_cases more : after = []
  · subst more
    exact fun c h => look.lined.right.unbroken c (List.mem_append_left _ h)
  · obtain ⟨b, eq, unbroken, -⟩ := look.lined.right.terminated more
    generalize lineBody (front ++ rear) = body at eq unbroken
    rcases List.append_eq_append_iff.mp eq with ⟨u, rfl, -⟩ | ⟨u, rfl, text⟩
    · exact fun c h => unbroken c (List.mem_append_left _ h)
    · rcases text_cut text (look.opened more) with ⟨rfl, -⟩ | ⟨rfl, rfl⟩
      · rwa [List.append_nil]
      · -- the position is between the two characters of the terminator
        exfalso
        have place := look.place
        rw [List.length_append, List.length_singleton] at place
        have split : s = (before.flatten ++ body) ++ ('\r' :: '\n' :: after.flatten) := by
          rw [look.text]
          simp only [List.append_assoc, List.cons_append, List.nil_append]
        have pair : slice s (pos - 1) (pos + 1) = ['\r', '\n'] := by
          rw [slice, split, List.drop_left' (by rw [List.length_append]; omega),
            show pos + 1 - (pos - 1) = 2 by omega]
          rfl
        rw [splitsBreak, pair] at whole
        simp only [beq_self_eq_true, Bool.and_true, bne_eq_false_iff_eq] at whole
        omega

/-- What is left of a line with a terminator, from a position on. -/
theorem rear_eq (more : after ≠ []) :
    ∃ body, ∃ b : LineBreak, rear = body ++ b.text ∧ Unbroken body ∧
      (b = .cr → after.flatten.head? ≠ some '\n') := by
  obtain ⟨b, eq, unbroken, whole⟩ := look.lined.right.terminated more
  generalize lineBody (front ++ rear) = body at eq unbroken
  rcases List.append_eq_append_iff.mp eq with ⟨u, rfl, rest⟩ | ⟨u, rfl, text⟩
  · exact ⟨u, b, rest, fun c h => unbroken c (List.mem_append_right _ h), whole⟩
  · rcases text_cut text (look.opened more) with ⟨rfl, rfl⟩ | ⟨rfl, rfl⟩
    · exact ⟨[], b, rfl, unbroken_nil, whole⟩
    · exact ⟨[], .lf, rfl, unbroken_nil, by simp⟩

end Look

theorem lineAt_lt (inside : pos ≤ s.length) : lineAt s pos < (lines s).length := by
  obtain ⟨before, front, rear, after, look⟩ := exists_line inside
  rw [look.lines, look.number, List.length_append, List.length_cons]
  omega

theorem lineOffset_lineAt_le (inside : pos ≤ s.length) : lineOffset s (lineAt s pos) ≤ pos := by
  obtain ⟨before, front, rear, after, look⟩ := exists_line inside
  have := look.offset
  have := look.place
  omega

theorem lt_lineOffset (inside : pos ≤ s.length) (more : lineAt s pos + 1 < (lines s).length) :
    pos < lineOffset s (lineAt s pos + 1) := by
  obtain ⟨before, front, rear, after, look⟩ := exists_line inside
  have filled := List.length_pos_iff.mpr (look.opened (look.last_iff.mp more))
  have := look.offset_succ
  have := look.place
  omega

theorem lineAt_mono (h : pos ≤ k) (inside : k ≤ s.length) : lineAt s pos ≤ lineAt s k := by
  by_contra later
  have here := lineAt_lt (Nat.le_trans h inside)
  have ends := lt_lineOffset inside (by omega)
  have starts := lineOffset_lineAt_le (Nat.le_trans h inside)
  have := lineOffset_mono s (show lineAt s k + 1 ≤ lineAt s pos by omega)
  omega

/-! ## What the helpers of the editor find -/

/-- The line of a position starts where it does, unless the position is between the two characters
of a line break. -/
theorem lineStart_eq (inside : pos ≤ s.length) (whole : splitsBreak s pos = false) :
    lineStart s pos = lineOffset s (lineAt s pos) := by
  obtain ⟨before, front, rear, after, look⟩ := exists_line inside
  have unbroken := look.unbroken_front whole
  have ends : ((before.flatten ++ front).reverse.takeWhile fun c => !isBreak c) =
      front.reverse := by
    rw [List.reverse_append]
    refine takeWhile_unbroken (fun c h => unbroken c (List.mem_reverse.mp h)) fun c h => ?_
    rw [List.head?_reverse] at h
    exact (look.lined.ends c h).1
  rw [look.offset, lineStart, look.take, ends, List.length_append, List.length_reverse]
  omega

theorem isBreak_of_mem_head?_fromBreak {c : Char} (h : c ∈ (fromBreak s).head?) : isBreak c = true := by
  have stops := List.head?_dropWhile_not (fun c => !isBreak c) s
  rw [fromBreak] at h
  rw [Option.mem_def.mp h] at stops
  simpa using stops

/-- Behind blanks and a comment comes a line break or the end of the text. -/
theorem afterComment?_eq_some {r : Text} (h : afterComment? s = some r) :
    ∃ body, s = body ++ r ∧ Unbroken body ∧ ∀ c ∈ r.head?, isBreak c = true := by
  induction s with
  | nil =>
    cases h
    exact ⟨[], rfl, unbroken_nil, by simp⟩
  | cons c s ih =>
    rw [afterComment?_cons] at h
    split at h
    · next blank =>
      obtain ⟨body, rfl, unbroken, stops⟩ := ih h
      exact ⟨c :: body, rfl,
        List.forall_mem_cons.mpr ⟨not_isBreak_of_isSpaceOrTab blank, unbroken⟩, stops⟩
    · split at h
      · next comment =>
        cases h
        obtain rfl := beq_iff_eq.mp comment
        refine ⟨'#' :: s.takeWhile fun c => !isBreak c, ?_,
          List.forall_mem_cons.mpr ⟨rfl, fun d hd => ?_⟩, fun _ => isBreak_of_mem_head?_fromBreak⟩
        · rw [fromBreak, List.cons_append, List.takeWhile_append_dropWhile]
        · simpa using List.mem_takeWhile_imp hd
      · split at h
        · next breaks =>
          cases h
          refine ⟨[], rfl, unbroken_nil, fun d hd => ?_⟩
          cases hd
          exact breaks
        · cases h

/-- Behind the end of the line of a position, and the terminator there, the next line starts. -/
theorem skipBreak_lineTail {tail : Nat} (inside : pos ≤ s.length)
    (h : lineTail? s pos = some tail) :
    tail ≤ s.length ∧ skipBreak s tail = lineOffset s (lineAt s pos + 1) ∧
      (tail < skipBreak s tail ↔ lineAt s pos + 1 < (lines s).length) := by
  obtain ⟨before, front, rear, after, look⟩ := exists_line inside
  rw [lineTail?, look.drop, Option.map_eq_some_iff] at h
  obtain ⟨r, h, rfl⟩ := h
  obtain ⟨body, eq, unbroken, stops⟩ := afterComment?_eq_some h
  have size : s.length = before.flatten.length + front.length + (body.length + r.length) := by
    rw [look.text, eq]
    simp only [List.length_append]
  have there : s.drop (s.length - r.length) = r := by
    rw [look.text, eq, ← List.append_assoc, List.drop_left' (by simp only [List.length_append]; omega)]
  rw [skipBreak, there, look.offset_succ, look.last_iff]
  by_cases more : after = []
  · subst more
    rw [List.flatten_nil, List.append_nil] at eq
    have all : Unbroken rear := fun c hc => look.lined.right.unbroken c (List.mem_append_right _ hc)
    have none : r = [] := by
      cases r with
      | nil => rfl
      | cons c r =>
        have breaks := stops c rfl
        rw [all c (by rw [eq]; simp)] at breaks
        cases breaks
    subst none
    rw [List.append_nil] at eq
    subst eq
    exact ⟨Nat.sub_le _ _, by simp only [breakLength, List.length_nil] at size ⊢; omega,
      by simp [breakLength]⟩
  · obtain ⟨body', b, rfl, unbroken', whole⟩ := look.rear_eq more
    -- both ways to cut off what ends no line come to the same
    have same : body' = body := by
      rw [← takeWhile_unbroken (r := b.text ++ after.flatten) unbroken'
        (fun c => isBreak_of_mem_head?_text), ← List.append_assoc, eq,
        takeWhile_unbroken unbroken stops]
    subst same
    rw [List.append_assoc] at eq
    obtain rfl := (List.append_cancel_left eq).symm
    have filled : 0 < b.text.length := by cases b <;> decide
    rw [breakLength_text whole]
    simp only [List.length_append] at size ⊢
    exact ⟨by omega, by omega, by simp only [ne_eq, more, not_false_eq_true, iff_true]; omega⟩

/-- A text around one of its lines that is not the last. -/
theorem line_split (h : (lines s)[k]? = some line) (more : k + 1 < (lines s).length) :
    ∃ before after, lines s = before ++ line :: after ∧ before.flatten.length = lineOffset s k ∧
      ∃ b : LineBreak, line = lineBody line ++ b.text ∧ Unbroken (lineBody line) := by
  obtain ⟨inside, rfl⟩ := List.getElem?_eq_some_iff.mp h
  have split := (List.take_append_drop k (lines s)).symm
  rw [List.drop_eq_getElem_cons inside] at split
  have lined := lined_lines s
  rw [split] at lined
  obtain ⟨b, eq, unbroken, -⟩ := lined.right.terminated (by
    rw [ne_eq, List.drop_eq_nil_iff]
    omega)
  exact ⟨_, _, split, rfl, b, eq, unbroken⟩

theorem slice_pair {t r : Text} {c : Char} (room : 2 ≤ t.length + 1)
    (h : slice (t ++ c :: r) (t.length + 1 - 2) (t.length + 1) = ['\r', '\n']) :
    t.getLast? = some '\r' ∧ c = '\n' := by
  induction t using List.reverseRecOn with
  | nil => simp at room
  | append_singleton init d _ =>
    rw [List.length_append, List.length_singleton, show init.length + 1 + 1 - 2 = init.length by omega,
      slice, List.append_assoc, List.drop_left' rfl,
      show init.length + 1 + 1 - init.length = 2 by omega] at h
    obtain ⟨rfl, second⟩ := List.cons.inj h
    exact ⟨List.getLast?_concat, (List.cons.inj second).1⟩

/-- A line that is not the last one is longer than what stands before its terminator. -/
theorem length_lineBody_lt (h : (lines s)[k]? = some line) (more : k + 1 < (lines s).length) :
    (lineBody line).length < line.length := by
  obtain ⟨-, -, -, -, b, eq, -⟩ := line_split h more
  have size := congrArg List.length eq
  have filled : 0 < b.text.length := by cases b <;> decide
  rw [List.length_append] at size
  omega

/-- The terminator of a line starts behind the rest of the line. -/
theorem breakBefore_lineOffset (h : (lines s)[k]? = some line) (more : k + 1 < (lines s).length) :
    breakBefore s (lineOffset s (k + 1)) = lineOffset s k + (lineBody line).length := by
  obtain ⟨before, after, split, start, b, eq, unbroken⟩ := line_split h more
  have next := lineOffset_succ h
  have length := congrArg List.length eq
  rw [List.length_append] at length
  rw [length, ← Nat.add_assoc] at next
  have lined := lined_lines s
  rw [split] at lined
  have here : line ++ after.flatten = lineBody line ++ (b.text ++ after.flatten) := by
    rw [← List.append_assoc, ← eq]
  have text : s = (before.flatten ++ lineBody line) ++ (b.text ++ after.flatten) := by
    rw [← flatten_lines s, split, List.flatten_append, List.flatten_cons, here, List.append_assoc]
  have size : (before.flatten ++ lineBody line).length = lineOffset s k + (lineBody line).length := by
    rw [List.length_append, start]
  -- the terminator is no second half of a carriage return and a line feed
  have whole : (before.flatten ++ lineBody line).getLast? = some '\r' →
      (b.text ++ after.flatten).head? ≠ some '\n' := by
    intro last
    rw [List.getLast?_append] at last
    cases inside : (lineBody line).getLast? with
    | some c =>
      rw [inside] at last
      cases last
      exact absurd (unbroken _ (List.mem_of_getLast? inside)) (by decide)
    | none =>
      rw [inside] at last
      have ends := (lined.ends _ last).2 rfl
      rwa [List.flatten_cons, here, List.getLast?_eq_none_iff.mp inside] at ends
  rw [next, ← size]
  generalize before.flatten ++ lineBody line = left at text whole
  rw [text, breakBefore]
  cases b with
  | crlf =>
    have pair : slice (left ++ (LineBreak.crlf.text ++ after.flatten)) (left.length + 2 - 2)
        (left.length + 2) = ['\r', '\n'] := by
      rw [slice, Nat.add_sub_cancel, List.drop_left' rfl, Nat.add_sub_cancel_left]
      rfl
    show (if _ then left.length + 2 - 2 else left.length + 2 - 1) = left.length
    rw [if_pos, Nat.add_sub_cancel]
    show (decide (2 ≤ left.length + 2) && slice _ (left.length + 2 - 2) (left.length + 2) == _) = true
    rw [pair]
    simp
  | lf =>
    refine (if_neg fun pair => ?_).trans (Nat.add_sub_cancel ..)
    simp only [Bool.and_eq_true, decide_eq_true_eq, beq_iff_eq] at pair
    exact whole (slice_pair pair.1 pair.2).1 rfl
  | cr =>
    refine (if_neg fun pair => ?_).trans (Nat.add_sub_cancel ..)
    simp only [Bool.and_eq_true, decide_eq_true_eq, beq_iff_eq] at pair
    exact absurd (slice_pair pair.1 pair.2).2 (by decide)

end YamlEdit.Text
