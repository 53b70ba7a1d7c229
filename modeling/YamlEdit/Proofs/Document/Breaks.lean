import YamlEdit.Proofs.Breaks
import YamlEdit.Proofs.Document.Fallback
import YamlEdit.Proofs.Names

/-!
# The line breaks of an assigned text

A value's own text has the line breaks of its document, and a text that gets it below its comments
keeps its own. So an assignment can only mix line breaks by patching: a value that is no string,
such as bytes, is put on the line of its key as it would be dumped by itself, with line feeds. In a
text of line feeds that is as it should be, and nothing that a patch puts in has another break:
neither the texts of values nor the anchors, which are names.
-/

namespace YamlEdit

/-! ## New text without returns -/

namespace Patch

/-- A character of texts of line feeds. -/
def NoReturn (c : Char) : Prop :=
  c ≠ '\r'

theorem spelled_noReturn {s : Text} : Spelled NoReturn s ↔ '\r' ∉ s :=
  ⟨fun h hc => h _ hc rfl, fun h _ hc same => h (same ▸ hc)⟩

/-- Sessions whose drafts are both of some letters, or the first is not. -/
def KeepsSpelled (letter : Char → Prop) (s t : Session) : Prop :=
  Spelled letter s.draft.text → Spelled letter t.draft.text

theorem tolerant_keepsSpelled (letter : Char → Prop) :
    Tolerant (KeepsSpelled letter) Anywhere letter where
  refl := fun _ => id
  trans := fun _ _ _ first second => second ∘ first
  note := fun _ _ _ => id
  splice := fun _ _ _ _ _ text before => ((before.take _).append text).append (before.drop _)

theorem return_not_mem_dump {v : Value} (indent : Nat) {flow : Bool} {f : Text}
    (h : v.dump (.of .lf indent) flow = .ok f) : '\r' ∉ f :=
  (Value.uniform_dump h).return_not_mem

theorem return_not_mem_scalarText {v : Value} {f : Text} (h : v.scalarText = .ok f) : '\r' ∉ f := by
  cases v with
  | str s =>
    cases h
    rw [Outline.doubleQuoted]
    simp only [List.mem_append, List.mem_cons, List.mem_flatMap, not_or, List.not_mem_nil]
    refine ⟨⟨by decide, ?_⟩, by decide, not_false⟩
    rintro ⟨c, -, hc⟩
    cases (Outline.inline_escaped c _ hc).1
  | _ => exact return_not_mem_dump 2 h

/-- New text for a text of line feeds, in line feeds itself. -/
theorem writes_lf {s : Text} {lenient : Bool} {tree : Tree}
    (composed : Tree.compose s lenient = .ok tree) (indent : Nat) :
    Writes ⟨tree, .of .lf indent⟩ NoReturn where
  signs := spelled_noReturn.mpr (by decide)
  breaks := by
    rintro f spells
    cases spells
    exact spelled_noReturn.mpr (by decide)
  dump := fun _ _ _ h => spelled_noReturn.mpr (return_not_mem_dump indent h)
  literal := fun _ _ h => spelled_noReturn.mpr (return_not_mem_scalarText h)
  names := by
    intro i name has c hc same
    subst same
    rw [Editing.node] at has
    cases here : tree.node? i with
    | none =>
      rw [here] at has
      cases has
    | some n =>
      rw [here] at has
      cases Tree.isNamed_of_compose composed i n here name has _ hc

end Patch

namespace Document

variable {d d' : Document} {v : Value} {s t : List Notice}

theorem return_not_mem_patch {ed : Editing} {changes : Patch Unit} {draft : Draft}
    (follows : Patch.Follows (Patch.KeepsSpelled Patch.NoReturn) changes)
    (free : '\r' ∉ ed.tree.text) (h : Gives (Noted.patch ed changes) s draft t) :
    '\r' ∉ draft.text := by
  obtain ⟨session, ran, rfl, -⟩ := Noted.gives_patch.mp h
  exact Patch.spelled_noReturn.mp (follows.gives ran (Patch.spelled_noReturn.mpr free))

theorem return_not_mem_settleRounds {indent rounds : Nat} {text out : Text} (free : '\r' ∉ text)
    (h : Gives (settleRounds v (.of .lf indent) rounds text) s out t) : '\r' ∉ out := by
  induction rounds generalizing text s with
  | zero =>
    obtain ⟨rfl, -⟩ := gives_pure.mp h
    exact free
  | succ rounds ih =>
    rw [settleRounds] at h
    split at h
    · exact absurd h not_gives_throw
    · next tree composed =>
      obtain ⟨draft, u, got, h⟩ := gives_bind.mp h
      have writes := Patch.writes_lf composed indent
      rw [← Tree.text_of_compose composed] at free
      have round := return_not_mem_patch
        ((Patch.tolerant_keepsSpelled _).settleRound _ writes v) free got
      split at h
      · obtain ⟨rfl, -⟩ := gives_pure.mp h
        rwa [Tree.text_of_compose composed] at free
      · exact ih round h

/-- Patching a text of line feeds puts no returns into it. -/
theorem return_not_mem_candidate {text : Text} (feeds : d.lineBreak = .lf) (free : '\r' ∉ d.text)
    (h : d.candidate? v s = some text) : '\r' ∉ text := by
  obtain ⟨old, tree, root, t, -, composed, rooted, h⟩ := gives_of_candidate? h
  have layout : d.layout = .of .lf d.indent := by rw [Document.layout, feeds]
  rw [uncheckedText] at h
  rw [layout] at h
  obtain ⟨tag, _, -, h⟩ := gives_bind.mp h
  obtain ⟨draft, u, got, h⟩ := gives_bind.mp h
  rw [← Tree.text_of_compose composed] at free
  have named : Patch.Anchored Patch.NoReturn root := by
    intro name has c hc same
    subst same
    cases Tree.isNamed_of_compose composed 0 root rooted name has _ hc
  have patched := return_not_mem_patch ((Patch.tolerant_keepsSpelled _).rootChanges
    (Patch.writes_lf composed d.indent) named tag old v) free got
  obtain ⟨_, w, -, h⟩ := gives_bind.mp h
  split at h
  · exact return_not_mem_settleRounds patched h
  · obtain ⟨rfl, -⟩ := gives_pure.mp h
    exact patched

/-! ## Assigning -/

theorem uniform_heading (uniform : d.lineBreak.Uniform d.text) : d.lineBreak.Uniform d.heading := by
  rw [heading]
  split
  · exact LineBreak.uniform_of_unbroken fun _ h => absurd h List.not_mem_nil
  · split
    · exact uniform
    · exact uniform.append (LineBreak.uniform_text _)

theorem candidate?_unset : d.candidate? .unset s = none := by
  rw [candidate?]
  split
  · next current tree _ _ =>
    split
    · split
      · rfl
      · rfl
    · rfl
  · rfl

/-- An assigned text is uniform in the line break of its document exactly if the text that the
changes led to is, where there is one and it is taken. -/
theorem uniform_iff_candidate (uniform : d.lineBreak.Uniform d.text)
    (assigned : Gives (d.assign v) s d' t) :
    d.lineBreak.Uniform d'.text ↔
      ∀ text ∈ d.candidate? v s, Loads text v →
        d.lineBreak.Uniform (withoutTrailingBlanks text) := by
  by_cases set : v = .unset
  · subst set
    rw [text_of_unset assigned, candidate?_unset]
    simp [LineBreak.uniform_of_unbroken]
  cases course_of_set set assigned with
  | keeps loaded same equal _ =>
    rw [equal, candidate?_of_equal loaded same]
    simp [uniform]
  | fills loaded other composed rootless written equal =>
    subst equal
    rw [candidate?_of_rootless composed rootless]
    obtain ⟨f, dumped, rfl⟩ := freshText_cases written
    have fresh : d.lineBreak.Uniform (f ++ d.lineBreak.text) :=
      (Value.uniform_dump dumped).append (LineBreak.uniform_text _)
    have whole := uniform_withoutTrailingBlanks ((uniform_heading uniform).append fresh)
    simp [whole]
  | patches loaded other composed rooted drafted checked equal =>
    subst equal
    rw [candidate?_eq loaded other composed rooted drafted]
    rcases checked_cases checked with ⟨rfl, -, loads⟩ | ⟨fails, -, f, dumped, rfl⟩
    · simp [loads]
    · have anew : d.lineBreak.Uniform (f ++ d.lineBreak.text) :=
        (Value.uniform_dump dumped).append (LineBreak.uniform_text _)
      simp [fails, uniform_withoutTrailingBlanks anew]

/-- An assigned text is always uniform in line feeds, and in another line break exactly if the text
that the changes led to is, where there is one and it is taken. -/
theorem uniform_assign_iff (uniform : d.lineBreak.Uniform d.text)
    (assigned : Gives (d.assign v) s d' t) :
    d.lineBreak.Uniform d'.text ↔
      d.lineBreak = .lf ∨ ∀ text ∈ d.candidate? v s, Loads text v →
        d.lineBreak.Uniform (withoutTrailingBlanks text) := by
  rw [uniform_iff_candidate uniform assigned]
  refine ⟨.inr, fun h => h.elim (fun feeds text drafted _ => ?_) id⟩
  rw [feeds] at uniform ⊢
  have free := return_not_mem_candidate feeds uniform.return_not_mem drafted
  exact uniform_withoutTrailingBlanks (LineBreak.uniform_lf_of_not_mem free)

/-! ## A value of several lines in the place of a scalar -/

/-- A document of one number, in lines that end as they do for printers. -/
def numberInCrlf : Document :=
  { text := "a: 1\r\n".toList, lineBreak := .crlf }

example :
    numberInCrlf.assigned? (.list none [.int 1, .int 2]) [] = some "- 1\r\n- 2\r\n".toList := by
  decide +kernel

/-- A string of two lines, which is put between double quotes. -/
def linesKept : Value :=
  .dict none [(.str "a".toList, .str "x\ny".toList)]

/-- Bytes, which are dumped as a block of lines. -/
def bytesPut : Value :=
  .dict none [(.str "a".toList, .bytes [104, 105])]

theorem uniform_numberInCrlf : numberInCrlf.lineBreak.Uniform numberInCrlf.text :=
  LineBreak.uniform_spread (s := "a: 1\n".toList) (by decide)

theorem uniform_assign_iff_linesKept :
    ∃ d' t, Gives (numberInCrlf.assign linesKept) [] d' t ∧
      d'.text = "a: \"x\\ny\"\r\n".toList ∧
      (LineBreak.crlf.Uniform d'.text ↔ LineBreak.crlf = .lf ∨
        ∀ text ∈ numberInCrlf.candidate? linesKept [],
          Loads text linesKept → LineBreak.crlf.Uniform (withoutTrailingBlanks text)) := by
  obtain ⟨d', t, gives, text, -⟩ := gives_of_assigned?
    (show numberInCrlf.assigned? linesKept [] = some "a: \"x\\ny\"\r\n".toList by decide +kernel)
  exact ⟨d', t, gives, text, uniform_assign_iff uniform_numberInCrlf gives⟩

/-- The bytes have line feeds between them and their key, in a text of other line breaks. -/
theorem not_uniform_bytesPut :
    numberInCrlf.lineBreak.Uniform numberInCrlf.text ∧
      ∃ d' t, Gives (numberInCrlf.assign bytesPut) [] d' t ∧
        ¬ numberInCrlf.lineBreak.Uniform d'.text := by
  obtain ⟨d', t, gives, text, -⟩ := gives_of_assigned?
    (show numberInCrlf.assigned? bytesPut [] = some "a: !!binary |\n  aGk=\r\n".toList
      by decide +kernel)
  refine ⟨uniform_numberInCrlf, d', t, gives, ?_⟩
  rw [text]
  intro uniform
  obtain ⟨p, q, spells, left, -⟩ := uniform "a: !!binary |".toList '\n' "  aGk=\r\n".toList rfl rfl
  cases p with
  | nil => exact absurd (List.cons.inj spells).1 (by decide)
  | cons c r =>
    obtain ⟨rfl, rest⟩ := List.cons.inj spells
    cases r with
    | nil => exact absurd left (by decide)
    | cons e r => simp at rest

end Document

end YamlEdit
