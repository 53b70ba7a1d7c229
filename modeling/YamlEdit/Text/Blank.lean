import YamlEdit.Text.Basic

/-!
# Blank characters

What counts as space around a line or a number: the spaces and breaks of Unicode and the four
separator controls.
-/

namespace YamlEdit.Text

/-- Whether a character is a space, a tab, a break or a separator control. -/
def isBlank (c : Char) : Bool :=
  let n := c.toNat
  (0x9 ≤ n && n ≤ 0xD) || (0x1C ≤ n && n ≤ 0x20) || n == 0x85 || n == 0xA0 || n == 0x1680 ||
    (0x2000 ≤ n && n ≤ 0x200A) || n == 0x2028 || n == 0x2029 || n == 0x202F || n == 0x205F ||
    n == 0x3000

/-- Whether a text holds blank characters only. -/
def isBlankText (s : Text) : Bool :=
  s.all isBlank

theorem isBlank_of_isWhitespace {c : Char} (h : c.isWhitespace) : isBlank c := by
  simp only [Char.isWhitespace, Bool.or_eq_true, decide_eq_true_eq] at h
  rcases h with ((rfl | rfl) | rfl) | rfl <;> rfl

@[simp] theorem isBlankText_nil : isBlankText [] = true := rfl

end YamlEdit.Text
