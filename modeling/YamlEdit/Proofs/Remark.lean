import YamlEdit.Proofs.Lines
import YamlEdit.Remark

/-!
# Remarks as a lens

What is read behind a position of a text and what is written there fit together: what was written is
read again, the last writing counts, and writing what was read changes nothing.

All of it follows from how the line of the position goes on. Either no comment follows (`Bare`), and
one would stand at the end of the line, or one does (`Commented`), and its words stand behind a number
sign and all signs and spaces next to it. Writing words leads to a line of the second kind.
-/

namespace YamlEdit.Remark

open Text

/-- A text that can be told from the signs and spaces before it and from what follows its line. -/
structure IsWords (r : Text) : Prop where
  oneLine : Unbroken r
  head : ∀ c ∈ r.head?, c ≠ '#' ∧ c ≠ ' '

/-- What comes from the end of a line on. -/
def EndsLine (after : Text) : Prop :=
  ∀ c ∈ after.head?, isBreak c = true

/-- What cannot be part of a comment or of the end of a line. -/
def IsPlain (s : Text) : Prop :=
  ∀ c ∈ s, c ≠ '#' ∧ isBreak c = false

/-- What comes from a comment or from the end of a line on. -/
def EndsPlain (more : Text) : Prop :=
  ∀ c ∈ more.head?, c = '#' ∨ isBreak c = true

/-- The rest of a line without a comment, and what comes behind. -/
structure Bare (line after : Text) : Prop where
  plain : IsPlain line
  ended : EndsLine after

/-- The rest of a line with a comment: what comes before its words, the words, and what comes behind. -/
structure Commented (line words after : Text) : Prop where
  sign : ∃ plain lead, line = plain ++ '#' :: lead ∧ IsPlain plain ∧ ∀ c ∈ lead, c = '#' ∨ c = ' '
  words : IsWords words
  ended : EndsLine after

variable {front line words after more r : Text}

/-! ## What is found on a line -/

theorem dropWhile_exact {p : Char → Bool} {body rest : Text} (all : ∀ c ∈ body, p c = true)
    (stops : ∀ c ∈ rest.head?, p c = false) : (body ++ rest).dropWhile p = rest := by
  rw [List.dropWhile_append_of_pos all]
  cases rest with
  | nil => rfl
  | cons c r => exact List.dropWhile_cons_of_neg (by simp [stops c rfl])

theorem EndsLine.endsPlain (h : EndsLine after) : EndsPlain after :=
  fun c hc => .inr (h c hc)

theorem EndsPlain.endsLine (h : EndsPlain more) (unsigned : more.head? ≠ some '#') :
    EndsLine more := by
  intro c hc
  refine (h c hc).resolve_left ?_
  rintro rfl
  exact unsigned hc

theorem EndsLine.fromBreak_eq (h : EndsLine after) : fromBreak after = after := by
  show ([] ++ after).dropWhile (fun c => !isBreak c) = after
  exact dropWhile_exact (by simp) fun c hc => by simp [h c hc]

/-- The scan goes over what is plain, and it ends with the line. -/
theorem scan_plain (plain : IsPlain line) (ends : EndsPlain more) (front : Text) :
    scan (front ++ (line ++ more)) front.length =
      ⟨if more.head? = some '#' then some (front ++ line).length else none,
        (front ++ (line ++ more)).length - (fromBreak more).length⟩ := by
  have found : (line ++ more).dropWhile (fun c => c ≠ '#' && !isBreak c) = more := by
    refine dropWhile_exact (fun c hc => by simp [plain c hc]) fun c hc => ?_
    rcases ends c hc with rfl | stop
    · rfl
    · simp [stop]
  have passed : (front ++ (line ++ more)).length - more.length = (front ++ line).length := by
    rw [← List.append_assoc, List.length_append, Nat.add_sub_cancel]
  rw [scan, List.drop_left, found, passed]
  split
  · rfl
  · next unsigned => rw [(ends.endsLine unsigned).fromBreak_eq, passed]

theorem Bare.scan_eq (h : Bare line after) (front : Text) :
    scan (front ++ (line ++ after)) front.length = ⟨none, (front ++ line).length⟩ := by
  have unsigned : after.head? ≠ some '#' := by
    intro sign
    cases h.ended '#' sign
  rw [scan_plain h.plain h.ended.endsPlain, if_neg unsigned, h.ended.fromBreak_eq,
    ← List.append_assoc, List.length_append, Nat.add_sub_cancel]

theorem Commented.scan_eq (h : Commented line words after) (front : Text) :
    ∃ sign, scan (front ++ (line ++ (words ++ after))) front.length =
        ⟨some sign, (front ++ line ++ words).length⟩ ∧
      bodyStart (front ++ (line ++ (words ++ after))) sign = (front ++ line).length := by
  obtain ⟨plain, lead, rfl, none, signs⟩ := h.sign
  have unbroken : Unbroken ('#' :: (lead ++ words)) := by
    refine List.forall_mem_cons.mpr ⟨rfl, List.forall_mem_append.mpr ⟨?_, h.words.oneLine⟩⟩
    intro c hc
    rcases signs c hc with rfl | rfl <;> rfl
  have ends : EndsPlain ('#' :: (lead ++ words) ++ after) := by simp [EndsPlain]
  have behind : fromBreak ('#' :: (lead ++ words) ++ after) = after :=
    dropWhile_exact (fun c hc => by simp [unbroken c hc]) fun c hc => by simp [h.ended c hc]
  have body : ('#' :: lead ++ (words ++ after)).dropWhile (fun c => c == '#' || c == ' ') =
      words ++ after := by
    refine dropWhile_exact ?_ fun c hc => ?_
    · refine List.forall_mem_cons.mpr ⟨rfl, fun c hc => ?_⟩
      rcases signs c hc with rfl | rfl <;> rfl
    · cases words with
      | nil =>
        have stop := h.ended c hc
        simp only [Bool.or_eq_false_iff, beq_eq_false_iff_ne]
        constructor <;> rintro rfl <;> cases stop
      | cons d w =>
        cases hc
        simpa using h.words.head c rfl
  have whole : front ++ (plain ++ '#' :: lead ++ (words ++ after)) =
      front ++ plain ++ ('#' :: (lead ++ words) ++ after) := by simp
  refine ⟨(front ++ plain).length, ?_, ?_⟩
  · rw [whole, List.append_assoc, scan_plain none ends, if_pos (by simp), behind]
    simp
    omega
  · rw [bodyStart, whole, List.drop_left]
    simp only [List.cons_append, List.append_assoc] at body ⊢
    rw [body]
    simp
    omega

/-! ## What is read and written -/

theorem Bare.read_eq (h : Bare line after) : read (front ++ (line ++ after)) front.length = [] := by
  rw [read, h.scan_eq]

theorem Bare.write_eq (h : Bare line after) (r : Text) :
    write (front ++ (line ++ after)) front.length r =
      front ++ (line ++ " # ".toList ++ (r ++ after)) := by
  rw [write, h.scan_eq]
  dsimp only
  rw [← List.append_assoc, List.take_left, List.drop_left]
  simp only [List.append_assoc]

theorem Commented.read_eq (h : Commented line words after) :
    read (front ++ (line ++ (words ++ after))) front.length = words := by
  obtain ⟨sign, found, body⟩ := h.scan_eq front
  rw [read, found]
  dsimp only
  rw [body, slice, ← List.append_assoc, List.drop_left, List.length_append, Nat.add_sub_cancel_left,
    List.take_left]

theorem Commented.write_eq (h : Commented line words after) (r : Text) :
    write (front ++ (line ++ (words ++ after))) front.length r = front ++ (line ++ (r ++ after)) := by
  obtain ⟨sign, found, body⟩ := h.scan_eq front
  rw [write, found]
  dsimp only
  rw [body, ← List.append_assoc, List.take_left, ← List.append_assoc, List.drop_left]
  simp only [List.append_assoc]

/-- A comment with other words is one. -/
theorem Commented.rewrite (h : Commented line words after) (hr : IsWords r) : Commented line r after :=
  ⟨h.sign, hr, h.ended⟩

/-- A comment put at the end of a line is one. -/
theorem Bare.comment (h : Bare line after) (hr : IsWords r) :
    Commented (line ++ " # ".toList) r after := by
  refine ⟨⟨line ++ [' '], [' '], by simp, ?_, by simp⟩, hr, h.ended⟩
  exact List.forall_mem_append.mpr ⟨h.plain, by simp [isBreak]⟩

/-- What stands behind the number sign of a comment: signs and spaces, the words, and what comes from
the end of the line on. -/
theorem exists_words (t : Text) :
    ∃ lead words after, t = lead ++ (words ++ after) ∧ (∀ c ∈ lead, c = '#' ∨ c = ' ') ∧
      IsWords words ∧ EndsLine after := by
  generalize hp : (fun c : Char => c == '#' || c == ' ') = p
  have ended : EndsLine (fromBreak (t.dropWhile p)) := fun _ => isBreak_of_mem_head?_fromBreak
  refine ⟨t.takeWhile p, lineBody (t.dropWhile p), fromBreak (t.dropWhile p), ?_, ?_, ⟨?_, ?_⟩, ended⟩
  · rw [lineBody, fromBreak, List.takeWhile_append_dropWhile, List.takeWhile_append_dropWhile]
  · intro c hc
    have lead := List.mem_takeWhile_imp hc
    subst hp
    simpa using lead
  · intro c hc
    simpa using List.mem_takeWhile_imp hc
  · intro c hc
    have stops := List.head?_dropWhile_not p t
    cases rest : t.dropWhile p with
    | nil =>
      rw [rest] at hc
      cases hc
    | cons d u =>
      rw [rest] at hc stops
      rw [lineBody, List.takeWhile_cons] at hc
      split at hc
      · cases hc
        subst hp
        simpa using stops
      · cases hc

/-- A line goes on with a plain part, and behind that comes a number sign, a line break or the end of
the text. -/
theorem exists_plain (rest : Text) :
    ∃ line more, rest = line ++ more ∧ IsPlain line ∧ EndsPlain more := by
  generalize hp : (fun c => decide (c ≠ '#') && !isBreak c) = p
  refine ⟨_, _, (List.takeWhile_append_dropWhile (p := p)).symm, ?_, ?_⟩
  · intro c hc
    have inside := List.mem_takeWhile_imp hc
    subst hp
    simpa using inside
  · intro c hc
    have stops := List.head?_dropWhile_not p rest
    rw [Option.mem_def.mp hc] at stops
    subst hp
    by_cases sign : c = '#'
    · exact .inl sign
    · exact .inr (by simpa [sign] using stops)

/-- A text goes on behind a position without a comment or with one. -/
theorem bare_or_commented (rest : Text) :
    (∃ line after, rest = line ++ after ∧ Bare line after) ∨
      ∃ line words after, rest = line ++ (words ++ after) ∧ Commented line words after := by
  obtain ⟨line, more, rfl, plain, ends⟩ := exists_plain rest
  by_cases sign : more.head? = some '#'
  · obtain ⟨t, rfl⟩ := List.head?_eq_some_iff.mp sign
    obtain ⟨lead, words, after, rfl, signs, isWords, ended⟩ := exists_words t
    exact .inr ⟨line ++ '#' :: lead, words, after, by simp, ⟨line, lead, rfl, plain, signs⟩,
      isWords, ended⟩
  · exact .inl ⟨line, more, rfl, plain, ends.endsLine sign⟩

/-- Writing and reading behind a position of a text. What was written is read again, and the last
writing counts. The text before the words of the comment, and the text from the end of the line on,
stay as they were: if there is no comment, one is put at the end of the line, and if there is one,
writing what is read there changes nothing. -/
theorem write_lens {text : Text} {pos : Nat} (inside : pos ≤ text.length) (hr : IsWords r)
    (s : Text) :
    read (write text pos r) pos = r ∧ write (write text pos r) pos s = write text pos s ∧
      ((∃ line after, text = text.take pos ++ (line ++ after) ∧ Bare line after ∧
          write text pos r = text.take pos ++ (line ++ " # ".toList ++ (r ++ after))) ∨
        ∃ line words after, text = text.take pos ++ (line ++ (words ++ after)) ∧
          Commented line words after ∧ write text pos (read text pos) = text ∧
          write text pos r = text.take pos ++ (line ++ (r ++ after))) := by
  generalize hf : text.take pos = front
  obtain rfl : front.length = pos := by
    rw [← hf, List.length_take, Nat.min_eq_left inside]
  have split : text = front ++ text.drop front.length := by
    conv_lhs => rw [← List.take_append_drop front.length text, hf]
  rcases bare_or_commented (text.drop front.length) with
    ⟨line, after, rest, bare⟩ | ⟨line, words, after, rest, commented⟩
  · rw [rest] at split
    rw [split, bare.write_eq, (bare.comment hr).read_eq, (bare.comment hr).write_eq, bare.write_eq]
    exact ⟨rfl, rfl, .inl ⟨line, after, rfl, bare, rfl⟩⟩
  · rw [rest] at split
    rw [split, commented.write_eq, (commented.rewrite hr).read_eq, (commented.rewrite hr).write_eq,
      commented.write_eq, commented.read_eq, commented.write_eq]
    exact ⟨rfl, rfl, .inr ⟨line, words, after, rfl, commented, rfl, rfl⟩⟩

/-- A comment with more than one number sign and no words, on a line that ends with a carriage return. -/
theorem write_lens_twoSigns :
    4 ≤ "a: b ## \rc".toList.length ∧ IsWords "x #y".toList ∧
      write "a: b ## \rc".toList 4 "x #y".toList = "a: b ## x #y\rc".toList ∧
      read (write "a: b ## \rc".toList 4 "x #y".toList) 4 = "x #y".toList ∧
      write (write "a: b ## \rc".toList 4 "x #y".toList) 4 [] = write "a: b ## \rc".toList 4 [] := by
  have inside : 4 ≤ "a: b ## \rc".toList.length := by decide
  have words : IsWords "x #y".toList := ⟨by simp [Unbroken, isBreak], by simp⟩
  obtain ⟨reads, last, -⟩ := write_lens inside words []
  exact ⟨inside, words, by decide +kernel, reads, last⟩

end YamlEdit.Remark
