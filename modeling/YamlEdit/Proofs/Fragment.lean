import YamlEdit.Fragment
import YamlEdit.Proofs.Outline.Write

/-!
# Fragments are clean

A fragment has no blank at the end of a line, no byte order mark and no empty first line, in every
line break. So it can stand behind any comments, and nothing is taken off its lines.
-/

namespace YamlEdit

/-- A tidy text without a byte order mark that starts with a line of its own. -/
structure Clean (s : Text) : Prop where
  tidy : Document.Tidy s
  unmarked : '\uFEFF' ∉ s
  first : ∃ c r, s = c :: r ∧ Text.isBreak c = false

namespace Clean

/-! ## Documents -/

theorem of_done {p : Outline.Pen} (h : p.Done) : Clean p.written.reverse := by
  refine ⟨⟨?_, ?_⟩, fun hc => (h.allowed _ (List.mem_reverse.mp hc)).1 rfl, ?_⟩
  · rw [Outline.hasPair_reverse]
    exact h.lines
  · rw [List.getLast?_reverse]
    exact h.last
  · cases hr : p.written.reverse with
    | nil => exact absurd (List.reverse_eq_nil_iff.mp hr) h.some
    | cons c r =>
      refine ⟨c, r, rfl, h.first c ?_⟩
      rw [← List.head?_reverse, hr]
      rfl

/-- A document ends with what a pen wrote that is done. -/
theorem done_close {p : Outline.Pen} (h : p.Done) :
    ∃ q : Outline.Pen, q.Done ∧ p.close = q.written.reverse := by
  have zero : ∀ {q : Outline.Pen}, q.Done → (q.indentTo 0).Done := fun hq =>
    ⟨Outline.Pen.sharp_indentTo_zero hq.toSharp, Outline.Pen.written_indentTo 0 hq.some⟩
  rw [Outline.Pen.close]
  refine ⟨_, ?_, rfl⟩
  split
  · exact zero (Outline.Pen.done_indicator (zero h).toNeat true false false
      (.of_all rfl) (by simp))
  · exact zero h

theorem done_render {v : Value} {o : Outline} (h : Outline.ofValue v = .ok o) (step : Nat)
    (flow : Bool) : ∃ q : Outline.Pen, q.Done ∧ o.render step flow = q.written.reverse := by
  have proper := Outline.proper_ofValue h
  exact done_close (Outline.done_write _ flow _ none proper Outline.Pen.sharp_start.toNeat
    (.inl Outline.Pen.sharp_start))

theorem done_document {v : Value} {indent : Columns} {flow : Bool} {s : Text}
    (h : v.document indent flow = .ok s) :
    ∃ q : Outline.Pen, q.Done ∧ s = q.written.reverse := by
  rw [Value.document] at h
  split at h
  · cases h
  · cases h
  · next o built =>
    split at h
    · cases h
    · cases h
      exact done_render built ..

theorem document {v : Value} {indent : Columns} {flow : Bool} {s : Text}
    (h : v.document indent flow = .ok s) : Clean s := by
  obtain ⟨q, done, rfl⟩ := done_document h
  exact of_done done

/-! ## Without the end -/

/-- What is left of a clean text when it is cut before a line break. -/
theorem of_append_break {s t : Text} (h : Clean (s ++ '\n' :: t)) : Clean s := by
  have head : ∃ c r, s = c :: r ∧ Text.isBreak c = false := by
    obtain ⟨c, r, hs, inside⟩ := h.first
    cases s with
    | nil =>
      cases hs
      cases inside
    | cons d u =>
      cases hs
      exact ⟨_, _, rfl, inside⟩
  refine ⟨⟨?_, ?_⟩, fun hc => h.unmarked (List.mem_append_left _ hc), head⟩
  · cases hp : Outline.hasPair Text.isSpaceOrTab Text.isBreak s with
    | false => rfl
    | true =>
      obtain ⟨a, b, inside, ha, hb⟩ := Outline.hasPair_iff.mp hp
      have whole := Outline.hasPair_iff.mpr
        ⟨a, b, inside.trans (List.prefix_append s ('\n' :: t)).isInfix, ha, hb⟩
      rw [h.tidy.lines] at whole
      cases whole
  · intro c hc
    cases blank : Text.isSpaceOrTab c with
    | false => rfl
    | true =>
      obtain ⟨u, rfl⟩ := List.getLast?_eq_some_iff.mp hc
      have whole : Outline.hasPair Text.isSpaceOrTab Text.isBreak (u ++ [c] ++ '\n' :: t) = true :=
        Outline.hasPair_iff.mpr ⟨c, '\n', ⟨u, t, by simp⟩, blank, rfl⟩
      rw [h.tidy.lines] at whole
      cases whole

theorem dropLast {s : Text} (h : Clean s) :
    Clean (if s.getLast? = some '\n' then s.dropLast else s) := by
  split
  · next last =>
    obtain ⟨u, rfl⟩ := List.getLast?_eq_some_iff.mp last
    rw [List.dropLast_concat]
    exact of_append_break (t := []) h
  · exact h

theorem withoutEnd {s : Text} (h : Clean s) : Clean (Value.withoutEnd s) := by
  unfold Value.withoutEnd
  dsimp only
  split
  · next marked =>
    obtain ⟨u, rfl⟩ := List.isSuffixOf_iff_suffix.mp marked
    have cut : (u ++ "\n...\n".toList).take ((u ++ "\n...\n".toList).length - 4) = u ++ ['\n'] := by
      have : (u ++ "\n...\n".toList).length - 4 = (u ++ ['\n']).length := by simp
      rw [this]
      have whole : u ++ "\n...\n".toList = (u ++ ['\n']) ++ "...\n".toList := by simp
      rw [whole, List.take_left']
      rfl
    rw [cut, if_pos (by simp), List.dropLast_concat]
    exact of_append_break (t := "...\n".toList) h
  · exact h.dropLast

end Clean

/-! ## In other line breaks -/

/-- A text with a line break in place of every line feed. -/
def spread (b : LineBreak) (s : Text) : Text :=
  s.flatMap fun c => if c = '\n' then b.text else [c]

theorem splitAfter_ne_nil (sep : Text) (skip : Nat) (s : Text) : Text.splitAfter sep skip s ≠ [] := by
  induction s generalizing skip with
  | nil => simp
  | cons c r ih =>
    cases skip with
    | succ skip => exact ih skip
    | zero =>
      rw [Text.splitAfter]
      split
      · simp
      · split <;> simp

theorem replaceAll_lineFeed (b : LineBreak) (s : Text) :
    Text.replaceAll s ['\n'] b.text = spread b s := by
  unfold Text.replaceAll Text.splitOn
  induction s with
  | nil => rfl
  | cons c r ih =>
    obtain ⟨piece, pieces, cut⟩ := List.exists_cons_of_ne_nil (splitAfter_ne_nil ['\n'] 0 r)
    rw [cut] at ih
    by_cases line : c = '\n'
    · subst line
      have split : Text.splitAfter ['\n'] 0 ('\n' :: r) = [] :: piece :: pieces := by
        simp [Text.splitAfter, cut]
      rw [split]
      simpa [spread, List.intercalate] using ih
    · have split : Text.splitAfter ['\n'] 0 (c :: r) = (c :: piece) :: pieces := by
        simp [Text.splitAfter, cut, Ne.symm line]
      rw [split]
      cases pieces with
      | nil => simpa [spread, line, List.intercalate] using ih
      | cons p ps => simpa [spread, line, List.intercalate] using ih

theorem spread_lf (s : Text) : spread .lf s = s := by
  induction s with
  | nil => rfl
  | cons c r ih =>
    by_cases line : c = '\n'
    · subst line
      exact congrArg ('\n' :: ·) ih
    · have spreads : spread .lf (c :: r) = c :: spread .lf r := by simp [spread, line]
      rw [spreads, ih]

theorem spread_append_break (b : LineBreak) (s : Text) :
    spread b (s ++ ['\n']) = spread b s ++ b.text := by
  simp [spread]

theorem isBreak_of_mem_text {b : LineBreak} {c : Char} (h : c ∈ b.text) : Text.isBreak c = true := by
  cases b <;> simp only [LineBreak.text, List.mem_cons, List.not_mem_nil, or_false] at h
  · subst h; rfl
  · rcases h with rfl | rfl <;> rfl
  · subst h; rfl

theorem head?_spread (b : LineBreak) (s : Text) :
    (spread b s).head?.any Text.isBreak = s.head?.any Text.isBreak := by
  cases s with
  | nil => rfl
  | cons c r =>
    by_cases line : c = '\n'
    · subst line
      cases b <;> rfl
    · simp [spread, line]

theorem hasPair_cons (p q : Char → Bool) (c : Char) (s : Text) :
    Outline.hasPair p q (c :: s) = (p c && s.head?.any q || Outline.hasPair p q s) := by
  cases s with
  | nil => simp [Outline.hasPair]
  | cons d r => rfl

theorem hasPair_spread (b : LineBreak) (s : Text) :
    Outline.hasPair Text.isSpaceOrTab Text.isBreak (spread b s) =
      Outline.hasPair Text.isSpaceOrTab Text.isBreak s := by
  induction s with
  | nil => rfl
  | cons c r ih =>
    rw [hasPair_cons, ← ih, ← head?_spread b r]
    by_cases line : c = '\n'
    · subst line
      have apart : ∀ c ∈ b.text, Text.isSpaceOrTab c = false :=
        fun c hc => Text.isSpaceOrTab_of_isBreak (isBreak_of_mem_text hc)
      have spreads : spread b ('\n' :: r) = b.text ++ spread b r := by simp [spread]
      rw [spreads, Outline.hasPair_append apart]
      rfl
    · have spreads : spread b (c :: r) = c :: spread b r := by simp [spread, line]
      rw [spreads, hasPair_cons]

theorem Clean.spread {s : Text} (h : Clean s) (b : LineBreak) : Clean (spread b s ++ b.text) := by
  rw [← spread_append_break]
  refine ⟨⟨?_, ?_⟩, ?_, ?_⟩
  · have last : s.getLast?.any Text.isSpaceOrTab = false := by
      cases hl : s.getLast? with
      | none => rfl
      | some c => exact h.tidy.last c hl
    rw [hasPair_spread, ← Outline.hasPair_reverse, List.reverse_append, List.reverse_singleton,
      List.singleton_append, hasPair_cons, List.head?_reverse, last, Outline.hasPair_reverse,
      h.tidy.lines]
    rfl
  · intro c hc
    rw [spread_append_break] at hc
    have stops : Text.isBreak c = true := by
      cases b <;> simp [LineBreak.text] at hc <;> simp [← hc, Text.isBreak]
    exact Text.isSpaceOrTab_of_isBreak stops
  · rw [spread_append_break]
    simp only [List.mem_append, not_or]
    constructor
    · intro marked
      obtain ⟨c, hc, hm⟩ := List.mem_flatMap.mp marked
      split at hm
      · cases isBreak_of_mem_text hm
      · exact h.unmarked (List.mem_singleton.mp hm ▸ hc)
    · intro marked
      cases isBreak_of_mem_text marked
  · obtain ⟨c, r, rfl, inside⟩ := h.first
    have line : c ≠ '\n' := by
      rintro rfl
      cases inside
    exact ⟨c, _, by simp [YamlEdit.spread, line]; rfl, inside⟩

namespace Value

variable {v : Value} {b : LineBreak} {indent : Nat} {flow : Bool} {f : Text}

/-- The lines of a document end with line feeds alone. -/
theorem return_not_mem_document {columns : Columns} {s : Text}
    (h : v.document columns flow = .ok s) : '\r' ∉ s := by
  obtain ⟨q, done, rfl⟩ := Clean.done_document h
  intro hc
  exact (done.allowed _ (List.mem_reverse.mp hc)).2 rfl

/-- The text for a value is its document with other line breaks. -/
theorem dump_spreads (h : v.dump (.of b indent) flow = .ok f) :
    ∃ s, v.document (.whole indent) flow = .ok s ∧ f = spread b (withoutEnd s) := by
  rw [dump] at h
  obtain ⟨s, written, broken⟩ := bind_eq_ok.mp h
  refine ⟨s, written, ?_⟩
  simp only [Layout.of, inBreaks] at broken
  split at broken
  · next same =>
    cases b with
    | lf =>
      cases broken
      exact (spread_lf _).symm
    | crlf => cases same
    | cr => cases same
  · cases broken
    exact replaceAll_lineFeed b _

/-- The text for a value, with the line break behind it. -/
theorem clean_dump (h : v.dump (.of b indent) flow = .ok f) : Clean (f ++ b.text) := by
  obtain ⟨s, written, rfl⟩ := dump_spreads h
  exact (Clean.document written).withoutEnd.spread b

end Value

end YamlEdit
