import YamlEdit.Proofs.Document.RoundTrip
import YamlEdit.Proofs.Inset.Feed
import YamlEdit.Proofs.Outline.Undivided

/-!
# What an indented fragment loads as

A fragment that is put into a block is indented as a whole. Its lines then stand further to the
right and nothing else changes, so it loads as before, unless a line that looks blank is not empty:
of such a line indenting leaves nothing. That is the line of an ideographic space, for one, which
belongs to the scalar that it stands in.
-/

namespace YamlEdit

open Scan

namespace Text

/-- A text that is only moved to the right when it is indented: line breaks of one kind, nothing but
line breaks on lines that look blank, no line that has to stand in the first column, and no block
scalar that the first column tells from what is behind it. -/
structure Movable (b : LineBreak) (s : Text) : Prop where
  uniform : b.Uniform s
  plain : ∀ c ∈ s, Scan.isBreak c = true → Text.isBreak c = true
  blank : BlankLinesEmpty s b.text
  markless : Markless s
  start : startsMark s = false
  bare : '\uFEFF' ∉ s
  shows : TokenFeed.blocksShow s = true

end Text

theorem loadValue_of_unreadable {s : Text} (h : firstUnreadable? s ≠ none) :
    ∃ e, loadValue s = .error e := by
  cases loaded : loadValue s with
  | error e => exact ⟨e, rfl⟩
  | ok v => exact absurd (readable_of_loadValue loaded) h

/-- Spaces in front of lines do not make a text unreadable, and do not make it readable. -/
theorem readable_insetLine (d : Nat) (s : Text) :
    firstUnreadable? (insetLine d s) = none ↔ firstUnreadable? s = none := by
  rw [readable_iff, readable_iff]
  constructor
  · intro h c hc
    exact h c (mem_insetLine_of_mem hc)
  · intro h c hc
    rcases mem_insetLine hc with hc | rfl
    · exact h c hc
    · decide

/-- A text moved to the right loads as the text does, or both do not load. -/
theorem agree_loadValue_insetLine (d : Nat) {s : Text} (markless : Markless s)
    (start : startsMark s = false) (bare : '\uFEFF' ∉ s) (shows : TokenFeed.blocksShow s = true) :
    Agree (· = ·) (loadValue s) (loadValue (insetLine d s)) := by
  by_cases readable : firstUnreadable? s = none
  · have same := TokenFeed.sameFeed_ofText d markless start bare shows
    exact agree_loadValue readable ((readable_insetLine d s).mpr readable) same.kinds.symm
      same.fault.symm
  · obtain ⟨e, he⟩ := loadValue_of_unreadable readable
    obtain ⟨e', he'⟩ := loadValue_of_unreadable (mt (readable_insetLine d s).mp readable)
    rw [he, he']
    trivial

/-- Indenting a text that it only moves changes nothing of what the text loads as. -/
theorem agree_loadValue_indent (d : Nat) {b : LineBreak} {s : Text} (h : Text.Movable b s) :
    Agree (· = ·) (loadValue s) (loadValue (s.indent d b.text)) := by
  rw [Text.indent_eq d h.uniform h.plain h.blank]
  exact agree_loadValue_insetLine d h.markless h.start h.bare h.shows

/-! ## Fragments -/

namespace Value

variable {v : Value} {b : LineBreak} {step : Nat} {flow : Bool} {f : Text}

theorem bare_dump (dumped : v.dump (.of b step) flow = .ok f) : '\uFEFF' ∉ f :=
  fun mark => (clean_dump dumped).unmarked (List.mem_append_left _ mark)

/-- A fragment is moved by indenting, under what its text shows. -/
theorem movable_dump (dumped : v.dump (.of b step) flow = .ok f)
    (plain : ∀ c ∈ f, Scan.isBreak c = true → Text.isBreak c = true)
    (blank : Text.BlankLinesEmpty f b.text) (shows : TokenFeed.blocksShow f = true) :
    Text.Movable b f where
  uniform := uniform_dump dumped
  plain := plain
  blank := blank
  markless := (undivided_dump dumped).markless plain
  start := (undivided_dump dumped).start
  bare := bare_dump dumped
  shows := shows

/-- An indented fragment loads as the very value that the fragment loads as, and fails to load where
the fragment does. Blank lines have to be empty, only line feeds and carriage returns break lines,
and a block scalar outside of all blocks shows its indentation by itself. -/
theorem loadValue_indent_iff (dumped : v.dump (.of b step) flow = .ok f)
    (plain : ∀ c ∈ f, Scan.isBreak c = true → Text.isBreak c = true)
    (blank : Text.BlankLinesEmpty f b.text) (shows : TokenFeed.blocksShow f = true) (d : Nat)
    (w : Value) : loadValue (f.indent d b.text) = .ok w ↔ loadValue f = .ok w := by
  have agree := agree_loadValue_indent d (movable_dump dumped plain blank shows)
  rcases agree.cases with ⟨e, e', he, he', -⟩ | ⟨u, u', hu, hu', same⟩
  · rw [he, he']
    constructor <;> intro h <;> cases h
  · subst same
    rw [hu, hu']

/-- A dictionary with a string of two paragraphs and a list. -/
def paragraphs : Value :=
  .dict none [(.str "a".toList, .str "x y\nz\n\nw".toList),
    (.str "b".toList, .list none [.int 1, .bytes [104, 105]])]

theorem loadValue_indent_iff_paragraphs : ∃ f w,
    paragraphs.dump (.of .crlf 2) = .ok f ∧ loadValue f = .ok w ∧ equal w paragraphs = true ∧
      (∀ c ∈ f, Scan.isBreak c = true → Text.isBreak c = true) ∧
      Text.BlankLinesEmpty f LineBreak.crlf.text ∧ TokenFeed.blocksShow f = true ∧
      loadValue (f.indent 4 LineBreak.crlf.text) = .ok w := by
  obtain ⟨f, dumped, checked⟩ := exists_of_any
    (show (paragraphs.dump (.of .crlf 2)).toOption.any (fun f =>
      (loadValue f).toOption.any (equal · paragraphs) &&
      f.all (fun c => !Scan.isBreak c || Text.isBreak c) &&
      (Text.splitOn f LineBreak.crlf.text).all (fun line => !Text.isBlankText line || line.isEmpty) &&
      TokenFeed.blocksShow f) = true by decide +kernel)
  simp only [Bool.and_eq_true] at checked
  obtain ⟨⟨⟨loads, breaks⟩, blanks⟩, shows⟩ := checked
  obtain ⟨w, loaded, same⟩ := exists_of_any loads
  have plain : ∀ c ∈ f, Scan.isBreak c = true → Text.isBreak c = true := by
    intro c hc stops
    simpa [stops] using List.all_eq_true.mp breaks c hc
  have blank : Text.BlankLinesEmpty f LineBreak.crlf.text := by
    intro line hl looks
    simpa [looks] using List.all_eq_true.mp blanks line hl
  exact ⟨f, w, dumped, loaded, same, plain, blank, shows,
    (loadValue_indent_iff dumped plain blank shows 4 w).mpr loaded⟩

/-- A string whose middle line is an ideographic space. -/
def wideBlank : Value :=
  .str "a\n\u3000\nb".toList

/-- Of the line of the ideographic space nothing is left, so the indented fragment loads as another
string. -/
theorem not_loads_indent_wideBlank : ∃ f w,
    wideBlank.dump (.of .lf 2) = .ok f ∧ loadValue f = .ok w ∧ equal w wideBlank = true ∧
      ¬ ∃ u, loadValue (f.indent 2 LineBreak.lf.text) = .ok u ∧ equal u w = true := by
  obtain ⟨f, dumped, checked⟩ := exists_of_any
    (show (wideBlank.dump (.of .lf 2)).toOption.any (fun f =>
      (loadValue f).toOption.any fun w => equal w wideBlank &&
        (loadValue (f.indent 2 LineBreak.lf.text)).toOption.any fun u => !equal u w) = true
      by decide +kernel)
  obtain ⟨w, loaded, checked⟩ := exists_of_any checked
  rw [Bool.and_eq_true] at checked
  obtain ⟨u, indented, apart⟩ := exists_of_any checked.2
  refine ⟨f, w, dumped, loaded, checked.1, ?_⟩
  rintro ⟨u', indented', same⟩
  rw [indented, Except.ok.injEq] at indented'
  rw [indented', same] at apart
  cases apart

end Value

end YamlEdit
