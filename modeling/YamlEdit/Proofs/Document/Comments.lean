import YamlEdit.Proofs.Document.Returns
import YamlEdit.Proofs.Document.RoundTrip
import YamlEdit.Proofs.Event.Delimited
import YamlEdit.Proofs.Mark
import YamlEdit.Proofs.Noted.Feed
import YamlEdit.Proofs.Remark
import YamlEdit.Proofs.Token.Margin
import YamlEdit.Proofs.Value.Selfsame

/-!
# Remarks leave the value

A remark is put behind the first number sign of the rest of a line, or at the line's end, whatever
stands there. If no token lies over that place (`Remark.Clear`), the text has the same tokens as
before, and so the same value. The search for the place does not look for tokens, and in
brackets a quoted scalar with a number sign may come behind a node (`not_loads_quotedBeside`).
-/

namespace YamlEdit

namespace Remark

open Text

/-- Where the comment on the rest of a line begins, or where one is put. -/
def Place.front (place : Place) : Nat :=
  place.sign.getD place.stop

/-- A place on the rest of a line, behind a position, that a comment can be written at: no token lies
over it, it is not inside of a line break, and the comment that is there is in one line. -/
structure Clear (text : Text) (pos : Nat) : Prop where
  tokens : ∀ t ∈ (TokenFeed.ofText text).items, t.Clears (text.take (scan text pos).front)
  whole : splitsBreak text (scan text pos).front = false
  oneLine : ∀ c ∈ slice text (scan text pos).front (scan text pos).stop, Scan.isBreak c = false

-- The characters of a text are looked through, never all the characters that there are.
instance (u : Text) (t : Token) : Decidable (t.Clears u) :=
  haveI := List.decidableBEx (· ≠ ' ') (u.drop t.stop.index)
  haveI := List.decidableBAll (Scan.isBreak · = false) (u.drop t.start.index)
  inferInstanceAs (Decidable (t.start.index < u.length →
    (t.stop.index ≤ u.length ∧
      (t.kind.isBlockScalar = true → ∃ c ∈ u.drop t.stop.index, c ≠ ' ')) ∨
    t.kind.isBlockScalar = true ∧ ∀ c ∈ u.drop t.start.index, Scan.isBreak c = false))

instance (text : Text) (pos : Nat) : Decidable (Clear text pos) :=
  haveI := List.decidableBAll (Scan.isBreak · = false)
    (slice text (scan text pos).front (scan text pos).stop)
  decidable_of_iff
    ((∀ t ∈ (TokenFeed.ofText text).items, t.Clears (text.take (scan text pos).front)) ∧
      splitsBreak text (scan text pos).front = false ∧
      ∀ c ∈ slice text (scan text pos).front (scan text pos).stop, Scan.isBreak c = false)
    ⟨fun ⟨tokens, whole, oneLine⟩ => ⟨tokens, whole, oneLine⟩,
      fun h => ⟨h.tokens, h.whole, h.oneLine⟩⟩

variable {text words line more after before : Text} {pos : Nat}

/-! ## Two ways to go on -/

theorem EndsLine.atLineEnd (h : EndsLine after) : Scan.atLineEnd after = true :=
  Scan.atLineEnd_of_head fun c hc => Margin.isBreak_of_isBreak (h c hc)

theorem fork_of_noted {u post w w' : Text} (noted : Scan.Noted post w w') (ends : EndsLine post)
    (whole : splitsBreak (u ++ w) u.length = false) : Scan.Fork u post w w' := by
  refine ⟨noted, ends.atLineEnd, fun last feed => ?_⟩
  obtain ⟨v, rfl⟩ := List.getLast?_eq_some_iff.mp last
  obtain ⟨r, rfl⟩ := List.head?_eq_some_iff.mp feed
  have torn : splitsBreak (v ++ ['\r'] ++ '\n' :: r) (v.length + 1) = true :=
    Span.splitsBreak_succ.mpr ⟨by simp, by simp⟩
  rw [List.length_append, List.length_singleton, torn] at whole
  cases whole

/-- At the end of a line a comment is added. -/
theorem Bare.fork (h : Bare line after) (oneLine : ∀ c ∈ words, Scan.isBreak c = false)
    (whole : splitsBreak (before ++ line ++ after) (before ++ line).length = false) :
    ∃ w', Scan.Fork (before ++ line) after after w' ∧
      write (before ++ (line ++ after)) before.length words = before ++ line ++ w' := by
  refine ⟨' ' :: '#' :: (' ' :: words ++ after), fork_of_noted (.added ?_) h.ended whole, ?_⟩
  · exact List.forall_mem_cons.mpr ⟨rfl, oneLine⟩
  · rw [h.write_eq]
    simp

/-- Behind a number sign a comment is replaced. -/
theorem fork_of_sign {t : Text} (plain : IsPlain line)
    (old : ∀ c ∈ slice (before ++ (line ++ '#' :: t)) (before ++ line).length
      (scan (before ++ (line ++ '#' :: t)) before.length).stop, Scan.isBreak c = false)
    (oneLine : ∀ c ∈ words, Scan.isBreak c = false)
    (whole : splitsBreak (before ++ line ++ '#' :: t) (before ++ line).length = false) :
    ∃ post w', Scan.Fork (before ++ line) post ('#' :: t) w' ∧
      write (before ++ (line ++ '#' :: t)) before.length words = before ++ line ++ w' := by
  obtain ⟨lead, own, after, rfl, signs, isWords, ended⟩ := exists_words t
  have commented : Commented (line ++ '#' :: lead) own after :=
    ⟨⟨line, lead, rfl, plain, signs⟩, isWords, ended⟩
  have around : before ++ (line ++ '#' :: (lead ++ (own ++ after))) =
      before ++ (line ++ '#' :: lead ++ (own ++ after)) := by simp
  have inside : ∀ c ∈ lead, Scan.isBreak c = false := by
    intro c hc
    rcases signs c hc with rfl | rfl <;> rfl
  have old : ∀ c ∈ lead ++ own, Scan.isBreak c = false := by
    obtain ⟨sign, found, -⟩ := commented.scan_eq before
    have cut : before ++ (line ++ '#' :: lead ++ (own ++ after)) =
        before ++ line ++ ('#' :: (lead ++ own) ++ after) := by simp
    have stop : (before ++ (line ++ '#' :: lead) ++ own).length =
        (before ++ line).length + ('#' :: (lead ++ own)).length := by simp; omega
    rw [around, found, stop, cut, slice, List.drop_left, Nat.add_sub_cancel_left, List.take_left]
      at old
    exact (List.forall_mem_cons.mp old).2
  refine ⟨after, '#' :: (lead ++ words ++ after), fork_of_noted ?_ ended whole, ?_⟩
  · rw [← List.append_assoc]
    exact .replaced old (List.forall_mem_append.mpr ⟨inside, oneLine⟩)
  · rw [around, commented.write_eq]
    simp

/-- Only the rest of the text counts. -/
theorem scan_length_take (text : Text) (pos : Nat) :
    scan text (text.take pos).length = scan text pos := by
  have rest : text.drop (text.take pos).length = text.drop pos := by
    rw [List.length_take]
    rcases Nat.le_total pos text.length with le | le
    · rw [Nat.min_eq_left le]
    · rw [Nat.min_eq_right le, List.drop_length, List.drop_eq_nil_of_le le]
  rw [scan, scan, rest]

/-- Writing words into a text is another way for it to go on behind the place of its comment. -/
theorem Clear.exists_fork (clear : Clear text pos) (oneLine : ∀ c ∈ words, Scan.isBreak c = false) :
    ∃ post w',
      Scan.Fork (text.take (scan text pos).front) post (text.drop (scan text pos).front) w' ∧
      write text pos words = text.take (scan text pos).front ++ w' := by
  obtain ⟨-, whole, old⟩ := clear
  have same : write text pos words = write text (text.take pos).length words := by
    rw [write, write, scan_length_take]
  rw [same]
  rw [← scan_length_take] at whole old ⊢
  have split := (List.take_append_drop pos text).symm
  generalize text.take pos = before at *
  generalize text.drop pos = rest at split
  subst split
  obtain ⟨line, more, rfl, plain, ends⟩ := exists_plain rest
  have front : (scan (before ++ (line ++ more)) before.length).front = (before ++ line).length := by
    rw [scan_plain plain ends, Place.front]
    split
    · rfl
    · next unsigned =>
      rw [(ends.endsLine unsigned).fromBreak_eq, ← List.append_assoc, List.length_append,
        Nat.add_sub_cancel]
      rfl
  rw [front] at whole old ⊢
  rw [← List.append_assoc, List.take_left, List.drop_left, List.append_assoc]
  rw [← List.append_assoc] at whole
  by_cases sign : more.head? = some '#'
  · obtain ⟨t, rfl⟩ := List.head?_eq_some_iff.mp sign
    exact fork_of_sign plain old oneLine whole
  · have bare : Bare line more := ⟨plain, ends.endsLine sign⟩
    obtain ⟨w', fork, written⟩ := bare.fork oneLine whole
    exact ⟨more, w', fork, written⟩

/-- Words at a clear place leave the kinds of the tokens as they were. -/
theorem Clear.kinds_write (clear : Clear text pos) (oneLine : ∀ c ∈ words, Scan.isBreak c = false)
    (sound : (EventFeed.ofText text).fault = none) :
    (TokenFeed.ofText (write text pos words)).kinds = (TokenFeed.ofText text).kinds ∧
      (TokenFeed.ofText (write text pos words)).fault = none ∧
      (TokenFeed.ofText text).fault = none := by
  obtain ⟨post, w', fork, written⟩ := clear.exists_fork oneLine
  obtain ⟨delimited, whole⟩ := EventFeed.delimited_ofText sound
  have same := List.take_append_drop (scan text pos).front text
  obtain ⟨kinds, whole'⟩ := TokenFeed.kinds_noted fork (by rw [same]; exact whole)
    (by rw [same]; exact clear.tokens) (by rw [same]; exact delimited)
  rw [same] at kinds
  rw [written]
  exact ⟨kinds, whole', whole⟩

/-- What is written anew is the words, and perhaps a number sign between spaces. -/
theorem mem_write {c : Char} (hc : c ∈ write text pos words) :
    c ∈ text ∨ c ∈ words ∨ c = ' ' ∨ c = '#' := by
  rw [write] at hc
  split at hc
  · simp only [List.mem_append] at hc
    rcases hc with ((front | sign) | word) | rest
    · exact .inl (List.mem_of_mem_take front)
    · exact .inr (.inr (by simpa [or_comm, or_assoc] using sign))
    · exact .inr (.inl word)
    · exact .inl (List.mem_of_mem_drop rest)
  · simp only [List.mem_append] at hc
    rcases hc with (front | word) | rest
    · exact .inl (List.mem_of_mem_take front)
    · exact .inr (.inl word)
    · exact .inl (List.mem_of_mem_drop rest)

/-- Printable words at a clear place leave the value as it was. -/
theorem Clear.loadValue_write {v : Value} (clear : Clear text pos) (loaded : loadValue text = .ok v)
    (printable : ∀ c ∈ words, isReadable c = true)
    (oneLine : ∀ c ∈ words, Scan.isBreak c = false) :
    loadValue (write text pos words) = .ok v := by
  have readable := readable_of_loadValue loaded
  have readable' : firstUnreadable? (write text pos words) = none := by
    rw [readable_iff] at readable ⊢
    intro c hc
    rcases mem_write hc with old | word | rfl | rfl
    · exact readable c old
    · exact printable c word
    · rfl
    · rfl
  obtain ⟨tree, composed⟩ := Document.compose_of_value (d := { text }) loaded
  obtain ⟨-, -, sound, -⟩ := Tree.exists_of_compose composed
  obtain ⟨kinds, whole, whole'⟩ := clear.kinds_write oneLine sound
  have agree := agree_loadValue readable readable' kinds.symm (by rw [whole, whole'])
  obtain ⟨w, written, rfl⟩ := agree.ok loaded
  exact written

end Remark

namespace Document

variable {d : Document} {tree : Tree} {n : Node} {path : List Segment} {words : Text} {v : Value}

/-- Setting the remark of a node leaves the value as it was, if the place of the remark is clear. -/
theorem value_setRemark (loaded : d.value = .ok v) (composed : Tree.compose d.text = .ok tree)
    (found : tree.find path = .ok (some n)) (printable : ∀ c ∈ words, isReadable c = true)
    (oneLine : ∀ c ∈ words, Scan.isBreak c = false)
    (clear : Remark.Clear d.text (Remark.start tree n)) :
    ∃ d' w, d.setRemark path words = .ok (some d') ∧ d'.value = .ok w ∧ w = v ∧
      (v.Selfsame false → Value.equal w v = true) := by
  refine ⟨{ d with text := Remark.set tree n words }, v, ?_, ?_, rfl, Value.Selfsame.equal⟩
  · rw [setRemark, composed]
    show (tree.find path >>= _) = _
    rw [found]
    rfl
  · show loadValue (Remark.write tree.text (Remark.start tree n) words) = .ok v
    rw [Tree.text_of_compose composed]
    exact clear.loadValue_write loaded printable oneLine

/-- A block scalar, a quoted scalar with a number sign, and a node with a comment behind it. -/
def commentedFlow : Document :=
  { text := "- |  # one\n  a # b\n- [\"c#d\", e]  ## two\n- f\n".toList }

theorem value_setRemark_commentedFlow : ∃ v tree n, commentedFlow.value = .ok v ∧
    Tree.compose commentedFlow.text = .ok tree ∧
    tree.find (Path.split "1.1".toList) = .ok (some n) ∧
    Remark.Clear commentedFlow.text (Remark.start tree n) ∧
    ∃ d', commentedFlow.setRemark (Path.split "1.1".toList) "#3: é".toList = .ok (some d') ∧
      d'.value = .ok v ∧
      d'.text = "- |  # one\n  a # b\n- [\"c#d\", e]  ## #3: é\n- f\n".toList := by
  obtain ⟨v, loaded⟩ := loads_of_isOk (d := commentedFlow) (by decide +kernel)
  obtain ⟨tree, composed, check⟩ := exists_of_any
    (show (Tree.compose commentedFlow.text).toOption.any (fun t =>
      (t.find (Path.split "1.1".toList)).toOption.any fun found => found.any fun n =>
        decide (Remark.Clear commentedFlow.text (Remark.start t n))) = true by decide +kernel)
  obtain ⟨found, looked, check⟩ := exists_of_any check
  obtain ⟨n, rfl, check⟩ := Option.any_eq_true _ _ |>.mp check
  have clear := of_decide_eq_true check
  have printable : ∀ c ∈ "#3: é".toList, isReadable c = true := List.all_eq_true.mp (by decide)
  have oneLine : ∀ c ∈ "#3: é".toList, Scan.isBreak c = false := fun c hc =>
    Bool.eq_false_of_not_eq_true (List.any_eq_false.mp (by decide) c hc)
  obtain ⟨d', w, written, value, rfl, -⟩ :=
    value_setRemark loaded composed looked printable oneLine clear
  refine ⟨w, tree, n, loaded, composed, looked, clear, d', written, value, ?_⟩
  have text : (commentedFlow.setRemark (Path.split "1.1".toList) "#3: é".toList).toOption.any
      (fun changed => changed.any fun d' =>
        d'.text == "- |  # one\n  a # b\n- [\"c#d\", e]  ## #3: é\n- f\n".toList) = true := by
    decide +kernel
  rw [written] at text
  exact eq_of_beq text

/-! ### A number sign in quotes -/

/-- A quoted scalar with a number sign, behind another node in brackets. -/
def quotedBeside : Document :=
  { text := "[a, \"b#c\"]\n".toList }

/-- The quoted scalar lies over the place that is taken for that of the remark. -/
theorem not_loads_quotedBeside : ∃ v d', quotedBeside.value = .ok v ∧
    quotedBeside.setRemark (Path.split "0".toList) "R".toList = .ok (some d') ∧
    d'.text = "[a, \"b#R\n".toList ∧ ¬ ∃ w, d'.value = .ok w := by
  obtain ⟨v, loaded⟩ := loads_of_isOk (d := quotedBeside) (by decide +kernel)
  obtain ⟨found, written, check⟩ := exists_of_any
    (show (quotedBeside.setRemark (Path.split "0".toList) "R".toList).toOption.any (fun changed =>
      changed.any fun d' => d'.text == "[a, \"b#R\n".toList && !d'.value.isOk) = true by
        decide +kernel)
  obtain ⟨d', rfl, check⟩ := Option.any_eq_true _ _ |>.mp check
  obtain ⟨text, fails⟩ := Bool.and_eq_true_iff.mp check
  refine ⟨v, d', loaded, written, eq_of_beq text, ?_⟩
  rintro ⟨w, value⟩
  rw [value] at fails
  cases fails

end Document

end YamlEdit
