import YamlEdit.Proofs.Remark
import YamlEdit.Text.Position

/-!
# Two searches for a comment

The end of the line behind a position is looked for twice. A remark is read and written at the first
number sign of the line, whatever stands before it (`Remark.scan`). Lines are erased and put below a
node only if nothing but blanks stands before the comment or the end of the line
(`Text.lineTailAt`). Both find the same end, and the second one finds it exactly if what stands before
the place that the first one found is blank.

The argument is one cut of the rest of the line (`exists_plain`): a plain part, and what comes next,
from a number sign, a line break or the end of the text on. The first search stops behind the plain
part (`scan_plain`); the second one comes as far or gives up inside of it.
-/

namespace YamlEdit.Remark

open Text

/-- What stands between a position and the comment found behind it, or the end of the line if there
is no comment. -/
def Place.gap (place : Place) (text : Text) (pos : Nat) : Text :=
  slice text pos (place.sign.getD place.stop)

variable {text line more : Text} {pos : Nat}

/-! ## The search through blanks -/

/-- The search goes through a plain part of a line if that is blank, and fails there if it is not. -/
theorem IsPlain.afterComment?_append (plain : IsPlain line) (more : Text) :
    afterComment? (line ++ more) = if line.all isSpaceOrTab then afterComment? more else none := by
  induction line with
  | nil => rfl
  | cons c line ih =>
    obtain ⟨⟨unsigned, unbroken⟩, plain⟩ := List.forall_mem_cons.mp plain
    rw [List.cons_append, afterComment?_cons, List.all_cons]
    by_cases blank : isSpaceOrTab c = true
    · rw [if_pos blank, ih plain, blank, Bool.true_and]
    · simp only [blank, beq_iff_eq, unsigned, unbroken, Bool.false_and, Bool.false_eq_true, if_false]

/-- At a number sign, a line break or the end of the text the search ends with the line. -/
theorem EndsPlain.afterComment?_eq (ends : EndsPlain more) :
    afterComment? more = some (fromBreak more) := by
  cases more with
  | nil => rfl
  | cons c s =>
    by_cases sign : c = '#'
    · subst sign
      rfl
    · have ended : EndsLine (c :: s) := ends.endsLine (by simpa using sign)
      have breaks : isBreak c = true := ended c rfl
      rw [afterComment?_cons, isSpaceOrTab_of_isBreak breaks, if_neg Bool.false_ne_true,
        if_neg (by simpa using sign), if_pos breaks, ended.fromBreak_eq]

/-! ## Both searches -/

/-- What the scan leaves before its place is the plain part of the line. -/
theorem gap_plain (plain : IsPlain line) (ends : EndsPlain more) (front : Text) :
    (scan (front ++ (line ++ more)) front.length).gap (front ++ (line ++ more)) front.length =
      line := by
  have cut : slice (front ++ (line ++ more)) front.length (front ++ line).length = line := by
    rw [slice, List.drop_left, List.length_append, Nat.add_sub_cancel_left, List.take_left]
  rw [scan_plain plain ends, Place.gap]
  split
  · exact cut
  · next unsigned =>
    rw [Option.getD_none, (ends.endsLine unsigned).fromBreak_eq, ← List.append_assoc,
      List.length_append, Nat.add_sub_cancel, List.append_assoc, cut]

/-- What the search through blanks answers, by what the scan finds. -/
theorem lineTailAt_eq_scan (inside : pos ≤ text.length) :
    lineTailAt text pos =
      .ok (if ((scan text pos).gap text pos).all isSpaceOrTab then some ((scan text pos).stop : Int)
        else none) := by
  obtain ⟨line, more, rest, plain, ends⟩ := exists_plain (text.drop pos)
  have size : (text.take pos).length = pos := List.length_take_of_le inside
  have whole : text.take pos ++ (line ++ more) = text := by rw [← rest, List.take_append_drop]
  have found := scan_plain plain ends (text.take pos)
  have gap := gap_plain plain ends (text.take pos)
  rw [size, whole] at found gap
  rw [lineTailAt_natCast inside, lineTail?, rest, plain.afterComment?_append, ends.afterComment?_eq,
    gap, found]
  split <;> rfl

/-- The two searches agree at every position of a text. The search through blanks ends at a place
exactly if the scan ends there and only spaces and tabs stand before the number sign that the scan
found, or before the end if it found none. Otherwise the search through blanks finds nothing. -/
theorem lineTail_iff_scan (inside : pos ≤ text.length) :
    (∀ t : Int, lineTailAt text pos = .ok (some t) ↔
        (scan text pos).stop = t ∧ ∀ c ∈ (scan text pos).gap text pos, c = ' ' ∨ c = '\t') ∧
      (lineTailAt text pos = .ok none ↔
        ¬ ∀ c ∈ (scan text pos).gap text pos, c = ' ' ∨ c = '\t') := by
  have blank : ((scan text pos).gap text pos).all isSpaceOrTab = true ↔
      ∀ c ∈ (scan text pos).gap text pos, c = ' ' ∨ c = '\t' := by
    simp only [List.all_eq_true, isSpaceOrTab, Bool.or_eq_true, beq_iff_eq]
  rw [lineTailAt_eq_scan inside, ← blank]
  split
  · next all => simp [all]
  · next all => simp [all]

/-- A sequence in brackets with a comment behind it, which holds another number sign and a tab. -/
def notedBrackets : Text :=
  "[a, b]\t # c#\t\r\n".toList

/-- From inside of the brackets and from behind them the scan finds the same comment and the same end of
the line, and the search through blanks finds that end only from behind them. -/
theorem lineTail_iff_scan_brackets :
    (2 ≤ notedBrackets.length ∧ scan notedBrackets 2 = ⟨some 8, 13⟩ ∧
        lineTailAt notedBrackets 2 = .ok none) ∧
      (6 ≤ notedBrackets.length ∧ scan notedBrackets 6 = ⟨some 8, 13⟩ ∧
        lineTailAt notedBrackets 6 = .ok (some 13)) := by
  have within : 2 ≤ notedBrackets.length := by decide
  have behind : 6 ≤ notedBrackets.length := by decide
  have blanks : (scan notedBrackets 6).gap notedBrackets 6 = ['\t', ' '] := by decide
  refine ⟨⟨within, by decide, ?_⟩, behind, by decide, ?_⟩
  · refine (lineTail_iff_scan within).2.mpr fun blank => ?_
    exact absurd (blank ',' (by decide)) (by decide)
  · exact ((lineTail_iff_scan behind).1 13).mpr ⟨by decide, by simp [blanks]⟩

end YamlEdit.Remark
