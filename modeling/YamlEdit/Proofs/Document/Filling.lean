import YamlEdit.Proofs.Document.Returns
import YamlEdit.Proofs.Document.RoundTrip
import YamlEdit.Proofs.Tree.Load

/-!
# Filling a text that has no value

A text of comments gets its first value below them. That text is not loaded again before it is
taken, and blanks are taken off the ends of its lines: the comments stay line by line, the value's
own lines have no such blanks, and what is below comments loads as it does alone.
-/

namespace YamlEdit

/-- Only null equals null. -/
theorem Value.equal_null {v : Value} (other : v ≠ .null) : Value.equal .null v = false := by
  cases v <;> simp_all [Value.equal, Value.equalScalar, Value.isNan, Value.same, Value.sameScalar,
    Value.quantity?]

namespace Document

open Text Noted

variable {d : Document} {v : Value} {s t : List Notice}

/-- The comments end with a break, so that what is put below them starts on a line of its own. -/
theorem filledLines_heading_append (d : Document) (below : Text) :
    filledLines (d.heading ++ below) = filledLines d.text ++ filledLines below := by
  rw [heading]
  split
  · next blank => rw [filledLines_of_isBlankText blank, List.nil_append, List.nil_append]
  · obtain ⟨u, c, ended, stops⟩ := ended_lines d.lineBreak d.text
    have parted : filledLines (u ++ [c] ++ below) = filledLines (u ++ [c]) ++ filledLines below := by
      rw [List.append_assoc, List.singleton_append, filledLines_append_cons stops,
        filledLines_append_breaks (by simpa using stops)]
    rw [ended, parted, ← ended]
    split
    · rfl
    · rw [filledLines_append_breaks fun c hc => isBreak_of_mem_text hc]

/-- The lines of a filled text: the comments, then the value's own, which end without blanks. -/
theorem filledLines_freshText {f : Text} (dumped : v.dump d.layout = .ok f) :
    filledLines (withoutTrailingBlanks (d.heading ++ (f ++ d.lineBreak.text))) =
      (filledLines d.text).map (dropEndWhile · isSpaceOrTab) ++ filledLines f := by
  have breaks : ∀ c ∈ d.lineBreak.text, isBreak c = true := fun c hc => isBreak_of_mem_text hc
  have own : (filledLines f).map (dropEndWhile · isSpaceOrTab) = filledLines f := by
    have tidy := (Value.clean_dump (b := d.lineBreak) dumped).tidy.withoutTrailingBlanks
    rw [← filledLines_append_breaks breaks f, ← filledLines_withoutTrailingBlanks, tidy]
  rw [filledLines_withoutTrailingBlanks, filledLines_heading_append,
    filledLines_append_breaks breaks, List.map_append, own]

/-- A text without a value has the value null. -/
theorem value_of_rootless {tree : Tree} (composed : Tree.compose d.text = .ok tree)
    (rootless : tree.root? = none) : d.value = .ok .null := by
  have agree := Tree.agree_loadValue composed
  have null : tree.value = .ok .null := by rw [Tree.value, rootless]
  rw [value]
  cases loaded : loadValue d.text with
  | error e =>
    rw [loaded, null] at agree
    cases agree
  | ok w =>
    obtain ⟨_, h, rfl⟩ := agree.ok loaded
    rw [null] at h
    exact congrArg Except.ok (Except.ok.inj h).symm

/-- The first value of a text: the assignment returns, its text loads as the value, and above the
lines of the value stand all lines of the comments in order, without the blanks at their ends. -/
theorem assign_fills {tree : Tree} (composed : Tree.compose d.text = .ok tree)
    (rootless : tree.root? = none) (accepted : v.tag?.isSome = true) (other : v ≠ .null)
    (reads : d.ReadsBack v) :
    ∃ d' t, Gives (d.assign v) s d' t ∧ Loads d'.text v ∧
      ∃ f, v.dump d.layout = .ok f ∧
        d'.text.filledLines = d.text.filledLines.map (dropEndWhile · isSpaceOrTab) ++ f.filledLines := by
  have loaded := value_of_rootless composed rootless
  obtain ⟨text, t, written⟩ := gives_freshText (s := s) accepted reads
  obtain ⟨f, dumped, shape⟩ := freshText_cases written
  have gives : Gives (d.assign v) s { d with text := withoutTrailingBlanks text } t := by
    rw [assign_eq accepted]
    refine gives_bind.mpr ⟨_, _, gives_ofLoad.mpr ⟨loaded, rfl⟩, ?_⟩
    rw [if_neg (by simp [Value.equal_null other])]
    refine gives_bind.mpr ⟨_, _, gives_ofLoad.mpr ⟨composed, rfl⟩, ?_⟩
    dsimp only
    rw [rootless]
    exact gives_bind.mpr ⟨_, _, written, gives_pure.mpr ⟨rfl, rfl⟩⟩
  refine ⟨_, t, gives, ?_, f, dumped, ?_⟩
  · exact loads_freshText reads (readable_of_loadValue loaded) composed rootless written
  · rw [shape]
    exact filledLines_freshText dumped

/-- Comments with blanks behind them, and no line break at the end. -/
def remarksOnly : Document :=
  { text := "# a \r\n  \r\n  # b\t".toList, lineBreak := .crlf }

/-- A value of several lines. -/
def firstValue : Value :=
  .dict none [(.str "k".toList, .str "x\ny \n".toList), (.str "l".toList, .bytes [104, 105])]

theorem assign_fills_remarksOnly :
    ∃ tree, Tree.compose remarksOnly.text = .ok tree ∧ tree.root? = none ∧
      firstValue.tag?.isSome = true ∧ firstValue ≠ .null ∧ remarksOnly.ReadsBack firstValue ∧
      ∃ d' t, Gives (remarksOnly.assign firstValue) [] d' t ∧ Loads d'.text firstValue ∧
        ∃ f, firstValue.dump remarksOnly.layout = .ok f ∧
          d'.text.filledLines = ["# a".toList, "  # b".toList] ++ f.filledLines := by
  obtain ⟨tree, composed, rootless⟩ := exists_of_any
    (show (Tree.compose remarksOnly.text).toOption.any (·.root?.isNone) = true by decide +kernel)
  have rootless : tree.root? = none := by simpa using rootless
  have other : firstValue ≠ .null := by
    intro h
    cases h
  have reads : remarksOnly.ReadsBack firstValue := readsBack_of_check (by decide +kernel)
  have lines : remarksOnly.text.filledLines.map (dropEndWhile · isSpaceOrTab) =
      ["# a".toList, "  # b".toList] := by decide +kernel
  have fills := assign_fills (s := []) composed rootless rfl other reads
  rw [lines] at fills
  exact ⟨tree, composed, rootless, rfl, other, reads, fills⟩

end Document

end YamlEdit
