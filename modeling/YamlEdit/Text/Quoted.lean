import YamlEdit.Text.Basic
import YamlEdit.Text.Printable

/-!
# Quoted text

How messages and log lines show a text: between single quotes, or between double quotes when it
holds a single quote and no double one, with a backslash before the quote and before a backslash,
and escapes for everything that is not printable.
-/

namespace YamlEdit.Text

/-- The quote that encloses a text. -/
def enclosingQuote (s : Text) : Char :=
  if s.contains '\'' && !s.contains '"' then '"' else '\''

/-- The escapes that quoted texts and quoted bytes share. -/
def commonEscape? (quote c : Char) : Option Text :=
  if c == quote || c == '\\' then some ['\\', c]
  else if c == '\t' then some ['\\', 't']
  else if c == '\n' then some ['\\', 'n']
  else if c == '\r' then some ['\\', 'r']
  else none

/-- One character of a quoted text: the shortest escape that fits an unprintable one. -/
def quotedChar (quote c : Char) : Text :=
  match commonEscape? quote c with
  | some escape => escape
  | none =>
    if isPrintable c then [c]
    else if c.toNat ≤ 0xFF then '\\' :: 'x' :: hex 2 c.toNat
    else if c.toNat ≤ 0xFFFF then '\\' :: 'u' :: hex 4 c.toNat
    else '\\' :: 'U' :: hex 8 c.toNat

/-- A text as messages show it. -/
def quoted (s : Text) : Text :=
  let quote := enclosingQuote s
  quote :: s.flatMap (quotedChar quote) ++ [quote]

/-- Bytes as messages show them: ASCII as it is, the rest in base sixteen. -/
def quotedBytes (bytes : List UInt8) : Text :=
  let s : Text := bytes.map fun b => Char.ofNat b.toNat
  let quote := enclosingQuote s
  let one := fun c : Char =>
    match commonEscape? quote c with
    | some escape => escape
    | none =>
      if 0x20 ≤ c.toNat && c.toNat < 0x7F then [c] else '\\' :: 'x' :: hex 2 c.toNat
  'b' :: quote :: s.flatMap one ++ [quote]

theorem quotedChar_ne_nil (quote c : Char) : quotedChar quote c ≠ [] := by
  unfold quotedChar commonEscape?
  split
  · next escape h =>
    intro he
    subst he
    split at h <;> (try split at h) <;> (try split at h) <;> (try split at h) <;> simp_all
  · split <;> (try split) <;> (try split) <;> simp

theorem length_le_length_quoted (s : Text) : s.length + 2 ≤ (quoted s).length := by
  have h : s.length ≤ (s.flatMap (quotedChar (enclosingQuote s))).length := by
    generalize enclosingQuote s = quote
    induction s with
    | nil => simp
    | cons c r ih =>
      have := List.length_pos_iff.mpr (quotedChar_ne_nil quote c)
      simp only [List.flatMap_cons, List.length_append, List.length_cons]
      omega
  simp only [quoted, List.cons_append, List.length_cons, List.length_append, List.length_nil]
  omega

end YamlEdit.Text
