import YamlEdit.Proofs.Mark

/-!
# Where spans begin and end

What the editor finds in the text of a node: the place behind the anchor and the tag, where no blank
is, and the end of a block scalar, behind which there are only blanks up to the end of its token.
-/

namespace YamlEdit

namespace Text

variable {s : Text} {i j : Nat} {c : Char}

theorem length_slice (inside : j ≤ s.length) : (slice s i j).length = j - i := by
  rw [slice, List.length_take, List.length_drop]
  omega

theorem eq_of_slice_eq_nil (inside : j ≤ s.length) (le : i ≤ j) (h : slice s i j = []) : j = i := by
  have length := length_slice (i := i) inside
  rw [h, List.length_nil] at length
  omega

theorem of_slice_eq_singleton (inside : j ≤ s.length) (le : i ≤ j) (h : slice s i j = [c]) :
    j = i + 1 ∧ s[i]? = some c := by
  have length := length_slice (i := i) inside
  rw [h, List.length_singleton] at length
  have first : (slice s i j)[0]? = s[i]? := getElem?_slice (by omega)
  rw [h] at first
  exact ⟨by omega, first.symm⟩

theorem getLast?_slice (inside : j ≤ s.length) (some_ : i < j) :
    (slice s i j).getLast? = s[j - 1]? := by
  rw [List.getLast?_eq_getElem?, length_slice inside, getElem?_slice (by omega)]
  congr 1
  omega

theorem drop_slice (n : Nat) : (slice s i j).drop n = slice s (i + n) j := by
  rw [slice, slice, List.drop_take, List.drop_drop]
  congr 1
  omega

end Text

namespace Span

variable {s : Text} {start stop : Nat}

theorem propertiesFrom_le (place : Place) (s : Text) : propertiesFrom place s ≤ s.length := by
  induction s generalizing place with
  | nil => exact Nat.le_refl 0
  | cons c r ih =>
    have later (place : Place) : 1 + propertiesFrom place r ≤ (c :: r).length := by
      rw [List.length_cons, Nat.add_comm]
      exact Nat.succ_le_succ (ih place)
    cases place with
    | start =>
      rw [propertiesFrom]
      split
      · exact later _
      · exact Nat.zero_le _
    | property | comment =>
      rw [propertiesFrom]
      exact later _
    | gap =>
      rw [propertiesFrom]
      split
      · exact later _
      · split
        · exact later _
        · split
          · exact later _
          · exact Nat.zero_le _

/-- Behind anchors and tags there is no blank. -/
theorem isBlank_propertiesFrom (place : Place) (inside : place ≠ .start) {c : Char}
    (here : s[propertiesFrom place s]? = some c) : isBlank c = false := by
  induction s generalizing place with
  | nil => cases here
  | cons d r ih =>
    have later {place : Place} (here : (d :: r)[1 + propertiesFrom place r]? = some c)
        (inside : place ≠ .start) : isBlank c = false := by
      rw [Nat.add_comm, List.getElem?_cons_succ] at here
      exact ih _ inside here
    cases place with
    | start => exact absurd rfl inside
    | property | comment =>
      rw [propertiesFrom] at here
      exact later here (by split <;> exact nofun)
    | gap =>
      rw [propertiesFrom] at here
      split at here
      · exact later here nofun
      · next other =>
        split at here
        · exact later here nofun
        · split at here
          · exact later here nofun
          · cases here
            simpa using other

theorem scalarContent_le (le : start ≤ stop) : scalarContent s start stop ≤ stop := by
  have few := propertiesFrom_le .start (Text.slice s start stop)
  have length := Text.length_slice_le s start stop
  rw [scalarContent]
  omega

/-- A scalar begins at its start, or at its end, or behind its anchor and tag where there is no
blank. -/
theorem scalarContent_cases (inside : stop ≤ s.length) (le : start ≤ stop) :
    scalarContent s start stop = start ∨ scalarContent s start stop = stop ∨
      ∃ c ∈ s[scalarContent s start stop]?, isBlank c = false := by
  have bound := scalarContent_le (s := s) le
  have length := Text.length_slice (i := start) inside
  rw [scalarContent] at bound ⊢
  cases word : Text.slice s start stop with
  | nil => exact .inl rfl
  | cons d r =>
    rw [word] at bound length
    rw [propertiesFrom] at bound ⊢
    split
    · next opens =>
      rw [if_pos opens] at bound
      rcases Nat.lt_or_eq_of_le bound with before | last
      · refine .inr (.inr ?_)
        have here : (d :: r)[1 + propertiesFrom .property r]? =
            s[start + (1 + propertiesFrom .property r)]? := by
          rw [← word, Text.getElem?_slice before]
        rw [← here, Nat.add_comm 1, List.getElem?_cons_succ]
        have within : propertiesFrom .property r < r.length := by
          rw [List.length_cons] at length
          omega
        exact ⟨_, List.getElem?_eq_getElem within,
          isBlank_propertiesFrom .property nofun (List.getElem?_eq_getElem within)⟩
      · exact .inr (.inl last)
    · exact .inl rfl

theorem dropEndWhile_append (s : Text) (p : Char → Bool) :
    ∃ tail, s = Text.dropEndWhile s p ++ tail ∧ (∀ c ∈ tail, p c = true) ∧
      ∀ c ∈ (Text.dropEndWhile s p).getLast?, p c = false := by
  refine ⟨(s.reverse.takeWhile p).reverse, ?_, fun c hc => ?_, fun c hc => ?_⟩
  · rw [Text.dropEndWhile, ← List.reverse_append, List.takeWhile_append_dropWhile, List.reverse_reverse]
  · exact List.all_eq_true.mp List.all_takeWhile c (List.mem_reverse.mp hc)
  · rw [Text.dropEndWhile, List.getLast?_reverse] at hc
    have stops := List.head?_dropWhile_not p s.reverse
    rw [Option.mem_def.mp hc] at stops
    simpa using stops

/-- Behind the end of a block scalar there are only blanks up to the end of its token. -/
theorem isBlank_of_withoutBlanks (s : Text) (start stop : Nat) :
    ∀ c ∈ Text.slice s (withoutBlanks s start stop) stop, isBlank c = true := by
  obtain ⟨tail, cut, blank, -⟩ := dropEndWhile_append (Text.slice s start stop) isBlank
  rw [withoutBlanks, ← Text.drop_slice]
  generalize Text.dropEndWhile (Text.slice s start stop) isBlank = kept at cut
  rw [cut, List.drop_left' rfl]
  exact blank

/-- A span that is not all blank has no blank before its end. -/
theorem withoutBlanks_spec (inside : stop ≤ s.length) {c : Char} (hc : c ∈ Text.slice s start stop)
    (shows : isBlank c = false) :
    start < withoutBlanks s start stop ∧
      ∃ d ∈ s[withoutBlanks s start stop - 1]?, isBlank d = false := by
  obtain ⟨tail, cut, blank, last⟩ := dropEndWhile_append (Text.slice s start stop) isBlank
  have length := Text.length_slice (i := start) inside
  rw [withoutBlanks]
  generalize Text.dropEndWhile (Text.slice s start stop) isBlank = kept at cut last
  cases final : kept.getLast? with
  | none =>
    rw [List.getLast?_eq_none_iff.mp final, List.nil_append] at cut
    rw [cut] at hc
    rw [blank c hc] at shows
    cases shows
  | some d =>
    have some_ : 0 < kept.length := List.length_pos_of_mem (List.mem_of_getLast? final)
    rw [cut, List.length_append] at length
    refine ⟨by omega, d, ?_, last d final⟩
    rw [List.getLast?_eq_getElem?] at final
    have here : (Text.slice s start stop)[kept.length - 1]? = some d := by
      rw [cut, List.getElem?_append_left (by omega)]
      exact final
    rw [Text.getElem?_slice (by omega)] at here
    rwa [Nat.add_sub_assoc some_]

/-! ## Line breaks -/

theorem splitsBreak_of_ne {i : Nat} {c : Char} (here : s[i]? = some c) (other : c ≠ '\n') :
    Text.splitsBreak s i = false := by
  cases i with
  | zero => rfl
  | succ i =>
    by_contra splits
    have feed := (splitsBreak_succ.mp (by simpa using splits)).2
    cases here.symm.trans feed
    exact other rfl

theorem splitsBreak_of_before {i : Nat} {c : Char} (here : s[i - 1]? = some c) (other : c ≠ '\r') :
    Text.splitsBreak s i = false := by
  cases i with
  | zero => rfl
  | succ i =>
    by_contra splits
    have return_ := (splitsBreak_succ.mp (by simpa using splits)).1
    cases here.symm.trans return_
    exact other rfl

end Span

end YamlEdit
