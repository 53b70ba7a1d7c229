import YamlEdit.Proofs.Token.Margin

/-!
# Places of tokens

Tokens lie over their text from left to right: the marks of a token are places of the text, a dash is
where its token says, and from one token to the next there is nothing but blanks, line breaks and
comments. Only the rest of a directive line may hold anything, and a byte order mark may stand before
the first token.

A reader answers what it leaves of the text, behind the token and behind the blanks after it. So what
lies between the two is known from the reader, and the marks from the lengths alone.
-/

namespace YamlEdit

open Scan

/-! ## Marks of a text -/

namespace Cursor

/-- The cursor behind the first characters of a text. -/
def behind (s : Text) (n : Nat) : Cursor :=
  advance n (.start s)

theorem index_advance (n : Nat) (c : Cursor) :
    (advance n c).mark.index = c.mark.index + min n c.rest.length := by
  induction n generalizing c with
  | zero => simp [advance]
  | succ n ih =>
    obtain ⟨rest, mark⟩ := c
    cases rest with
    | nil => simp [advance]
    | cons ch r =>
      rw [advance, ih, Mark.index_past]
      simp only [List.length_cons]
      omega

theorem index_behind {s : Text} {n : Nat} (h : n ≤ s.length) : (behind s n).mark.index = n := by
  rw [behind, index_advance, start, Nat.min_eq_left h]
  exact Nat.zero_add n

theorem rest_behind (s : Text) (n : Nat) : (behind s n).rest = s.drop n :=
  rest_advance n (.start s)

/-- A cursor that has come to its place from the start of the text. -/
structure In (s : Text) (c : Cursor) : Prop where
  index : c.mark.index ≤ s.length
  place : c = behind s c.mark.index

variable {s : Text} {c : Cursor}

theorem In.rest (h : c.In s) : c.rest = s.drop c.mark.index := by
  conv_lhs => rw [h.place]
  exact rest_behind s _

theorem In.advance (h : c.In s) (n : Nat) : (Cursor.advance n c).In s := by
  have length : c.rest.length = s.length - c.mark.index := by rw [h.rest, List.length_drop]
  have index := index_advance n c
  have bound := h.index
  refine ⟨by omega, ?_⟩
  by_cases inside : n ≤ c.rest.length
  · rw [index, Nat.min_eq_left inside, behind, advance_add]
    exact congrArg (Cursor.advance n) h.place
  · have enough : Cursor.advance n c = Cursor.advance c.rest.length c := by
      obtain ⟨k, rfl⟩ := Nat.exists_eq_add_of_le (Nat.le_of_not_le inside)
      rw [advance_add]
      have none : (Cursor.advance c.rest.length c).rest = [] := by rw [rest_advance, List.drop_length]
      generalize Cursor.advance c.rest.length c = d at none
      obtain ⟨rest, mark⟩ := d
      cases none
      cases k <;> rfl
    rw [index, Nat.min_eq_right (Nat.le_of_not_le inside), enough, behind, advance_add]
    exact congrArg (Cursor.advance c.rest.length) h.place

theorem In.reach (h : c.In s) (rest : Text) : (c.reach rest).In s :=
  h.advance _

theorem index_reach (c : Cursor) (rest : Text) :
    (c.reach rest).mark.index = c.mark.index + (c.rest.length - rest.length) := by
  rw [Cursor.reach, index_advance, Nat.min_eq_left (Nat.sub_le _ _)]

end Cursor

/-- A mark of a place in a text. -/
structure Mark.In (s : Text) (m : Mark) : Prop where
  index : m.index ≤ s.length
  place : m = (Cursor.behind s m.index).mark

theorem Cursor.In.mark {s : Text} {c : Cursor} (h : c.In s) : c.mark.In s :=
  ⟨h.index, congrArg Cursor.mark h.place⟩

/-- A place further on in the same line is in a later column. -/
theorem Cursor.column_le_advance (n : Nat) {c : Cursor}
    (line : (advance n c).mark.line = c.mark.line) :
    c.mark.column ≤ (advance n c).mark.column := by
  have step : ∀ (n : Nat) (c : Cursor), c.mark.line ≤ (advance n c).mark.line ∧
      ((advance n c).mark.line = c.mark.line → c.mark.column ≤ (advance n c).mark.column) := by
    intro n
    induction n with
    | zero => exact fun c => ⟨Nat.le_refl _, fun _ => Nat.le_refl _⟩
    | succ n ih =>
      rintro ⟨rest, mark⟩
      cases rest with
      | nil => exact ⟨Nat.le_refl _, fun _ => Nat.le_refl _⟩
      | cons ch r =>
        obtain ⟨lines, columns⟩ := ih ⟨r, mark.past ch r⟩
        rw [advance]
        have past : (mark.past ch r).line = mark.line + 1 ∨
            (mark.past ch r).line = mark.line ∧ mark.column ≤ (mark.past ch r).column := by
          rw [Mark.past]
          split
          · exact .inl rfl
          · split
            · exact .inr ⟨rfl, Nat.le_refl _⟩
            · exact .inr ⟨rfl, Nat.le_succ _⟩
        dsimp only at lines columns ⊢
        rcases past with further | ⟨same, column⟩
        · exact ⟨by omega, fun back => by omega⟩
        · exact ⟨by omega, fun back => Nat.le_trans column (columns (by omega))⟩
  exact (step n c).2 line

theorem Mark.In.column_le {s : Text} {m n : Mark} (h : m.In s) (h' : n.In s)
    (le : m.index ≤ n.index) (line : n.line = m.line) : m.column ≤ n.column := by
  obtain ⟨k, further⟩ := Nat.exists_eq_add_of_le le
  have place : (Cursor.behind s n.index) = Cursor.advance k (Cursor.behind s m.index) := by
    rw [further, Cursor.behind, Cursor.advance_add]
    rfl
  rw [h.place, h'.place, place] at line ⊢
  exact Cursor.column_le_advance k line

/-! ## What lies between tokens -/

theorem isMarginFrom_comment {h : Text} (margin : isMarginFrom false h = true) :
    isMarginFrom true h = true := by
  induction h with
  | nil => rfl
  | cons c r ih =>
    rw [isMarginFrom] at margin ⊢
    split at margin
    · next stops => rwa [if_pos stops]
    · next stays =>
      rw [if_neg stays, if_pos rfl]
      rw [if_neg Bool.false_ne_true] at margin
      split at margin
      · exact ih margin
      · exact (Bool.and_eq_true_iff.mp margin).2

theorem isMarginFrom_append_of {s t : Text} {comment : Bool} (h : isMarginFrom comment s = true)
    (h' : isMarginFrom false t = true) : isMarginFrom comment (s ++ t) = true := by
  induction s generalizing comment with
  | nil =>
    cases comment with
    | false => exact h'
    | true => exact isMarginFrom_comment h'
  | cons c r ih =>
    rw [List.cons_append]
    rw [isMarginFrom] at h ⊢
    split at h
    · next stops => rw [if_pos stops]; exact ih h
    · next stays =>
      rw [if_neg stays]
      split at h
      · next inside => rw [if_pos inside]; exact ih h
      · next outside =>
        rw [if_neg outside]
        split at h
        · next space => rw [if_pos space]; exact ih h
        · next other =>
          obtain ⟨number, more⟩ := Bool.and_eq_true_iff.mp h
          rw [if_neg other, number, ih more]
          rfl

/-- A text that goes on behind a margin. -/
def Ahead (s rest : Text) : Prop :=
  ∃ h, s = h ++ rest ∧ isMarginFrom false h = true

namespace Ahead

variable {s t u : Text}

theorem refl (s : Text) : Ahead s s :=
  ⟨[], rfl, rfl⟩

theorem trans (first : Ahead s t) (second : Ahead t u) : Ahead s u := by
  obtain ⟨h, rfl, margin⟩ := first
  obtain ⟨h', rfl, margin'⟩ := second
  exact ⟨h ++ h', (List.append_assoc ..).symm, isMarginFrom_append_of margin margin'⟩

theorem of_break {c : Char} (stops : Scan.isBreak c = true) (r : Text) : Ahead (c :: r) r :=
  ⟨[c], rfl, by simp [isMarginFrom, stops]⟩

theorem of_space (r : Text) : Ahead (' ' :: r) r :=
  ⟨[' '], rfl, rfl⟩

theorem suffix (h : Ahead s t) : t <:+ s := by
  obtain ⟨p, rfl, -⟩ := h
  exact List.suffix_append p t

theorem afterBreak? {r : Text} (h : Scan.afterBreak? s = some r) : Ahead s r := by
  unfold Scan.afterBreak? at h
  split at h
  · cases h
    exact (of_break rfl _).trans (of_break rfl _)
  · split at h
    · next stops =>
      cases h
      exact of_break stops _
    · cases h
  · cases h

theorem skipSpaces (s : Text) : Ahead s (Scan.skipSpaces s) := by
  induction s with
  | nil => exact refl []
  | cons c r ih =>
    rw [Scan.skipSpaces, List.dropWhile_cons]
    split
    · next space =>
      rw [eq_of_beq space]
      exact (of_space r).trans ih
    · exact refl _

theorem skipComment (s : Text) : Ahead s (Scan.skipComment s) := by
  have line : ∀ r : Text, ∃ h, r = h ++ skipLine r ∧ isMarginFrom true h = true := by
    intro r
    refine ⟨r.takeWhile fun c => !Scan.isBreak c, (List.takeWhile_append_dropWhile).symm, ?_⟩
    induction r with
    | nil => rfl
    | cons c r ih =>
      rw [List.takeWhile_cons]
      split
      · next inside =>
        have stays : Scan.isBreak c = false := by simpa using inside
        simpa [isMarginFrom, stays] using ih
      · rfl
  refine (skipSpaces s).trans ?_
  rw [Scan.skipComment]
  cases hs : Scan.skipSpaces s with
  | nil => exact refl _
  | cons c r =>
    split
    · next number =>
      have sign : c = '#' := by simpa using number
      subst sign
      obtain ⟨h, cut, comment⟩ := line r
      refine ⟨'#' :: h, ?_, by simpa [isMarginFrom, Scan.isBreak] using comment⟩
      rw [skipLine, List.dropWhile_cons]
      exact congrArg ('#' :: ·) cut
    · exact refl _

end Ahead

/-- Blanks, line breaks and comments from one position of a text to another, perhaps behind the byte
order mark at its start. -/
structure Gap (s : Text) (i j : Nat) : Prop where
  le : i ≤ j
  clear : isMarginFrom false (Text.slice s i j) = true ∨
    i = 0 ∧ ∃ h, Text.slice s i j = '\uFEFF' :: h ∧ isMarginFrom false h = true

theorem slice_append (s : Text) {i j k : Nat} (first : i ≤ j) (second : j ≤ k) :
    Text.slice s i j ++ Text.slice s j k = Text.slice s i k := by
  obtain ⟨m, rfl⟩ := Nat.exists_eq_add_of_le first
  obtain ⟨n, rfl⟩ := Nat.exists_eq_add_of_le second
  rw [Text.slice, Text.slice, Text.slice, Nat.add_sub_cancel_left, Nat.add_sub_cancel_left,
    ← List.drop_drop, Nat.add_assoc, Nat.add_sub_cancel_left, List.take_add]

theorem slice_self (s : Text) (i : Nat) : Text.slice s i i = [] := by
  rw [Text.slice, Nat.sub_self, List.take_zero]

namespace Gap

variable {s : Text} {i j k : Nat}

theorem refl (s : Text) (i : Nat) : Gap s i i :=
  ⟨Nat.le_refl i, .inl (by rw [slice_self]; rfl)⟩

theorem trans (first : Gap s i j) (second : Gap s j k) : Gap s i k := by
  refine ⟨Nat.le_trans first.le second.le, ?_⟩
  rw [← slice_append s first.le second.le]
  rcases second.clear with margin | ⟨rfl, h, mark, margin⟩
  · rcases first.clear with before | ⟨start, h, mark, before⟩
    · exact .inl (isMarginFrom_append_of before margin)
    · exact .inr ⟨start, h ++ Text.slice s j k, by rw [mark]; rfl,
        isMarginFrom_append_of before margin⟩
  · have start : i = 0 := Nat.le_zero.mp first.le
    subst start
    rw [slice_self, mark]
    exact .inr ⟨rfl, h, rfl, margin⟩

/-- Going over a margin. -/
theorem of_ahead {c : Cursor} (inside : c.In s) {rest : Text} (h : Ahead c.rest rest) :
    Gap s c.mark.index (c.reach rest).mark.index := by
  obtain ⟨p, cut, margin⟩ := h
  have length : c.rest.length - rest.length = p.length := by rw [cut, List.length_append]; omega
  rw [Cursor.index_reach, length]
  refine ⟨Nat.le_add_right _ _, .inl ?_⟩
  rw [Text.slice, ← inside.rest, Nat.add_sub_cancel_left, cut, List.take_left']
  · exact margin
  · rfl

end Gap

/-! ## What readers leave -/

/-- What a reader leaves of a text behind a token, and behind the blanks after it. -/
structure Leaves (whole stop rest : Text) : Prop where
  suffix : stop <:+ whole
  ahead : Ahead stop rest

theorem Leaves.of_suffix {whole s : Text} (h : s <:+ whole) : Leaves whole s s :=
  ⟨h, .refl s⟩

theorem Leaves.trans {whole stop s t : Text} (h : Leaves whole stop s) (further : Ahead s t) :
    Leaves whole stop t :=
  ⟨h.suffix, h.ahead.trans further⟩

theorem tail_suffix {c : Char} {r whole : Text} (h : c :: r <:+ whole) : r <:+ whole :=
  (List.suffix_cons c r).trans h

namespace Scan.Plain

theorem Gap.leaves_kept {whole : Text} (gap : Plain.Gap) (stop s : Text) :
    s <:+ whole → (gap ≠ .word → Leaves whole stop s) →
      Leaves whole (match gap with | .word => s | _ => stop) s := by
  intro inside h
  cases gap with
  | word => exact .of_suffix inside
  | spaces | lines => exact h (by simp)

theorem leaves_readFrom {whole : Text} (flow : Bool) (least : Nat) (gap : Plain.Gap) (stop s : Text)
    (inside : s <:+ whole) (h : gap ≠ .word → Leaves whole stop s) :
    Leaves whole (readFrom flow least gap stop s).stop (readFrom flow least gap stop s).rest := by
  fun_induction readFrom flow least gap stop s with
  | case1 gap stop => exact gap.leaves_kept stop [] inside h
  | case2 gap stop c r _ pair ih =>
    have stops : Scan.isBreak c = true := by
      rw [eq_of_beq (Bool.and_eq_true_iff.mp pair).1]
      rfl
    exact ih (tail_suffix inside) fun _ =>
      (gap.leaves_kept stop (c :: r) inside h).trans (.of_break stops r)
  | case3 gap stop c r _ _ stops =>
    exact (gap.leaves_kept stop (c :: r) inside h).trans (.of_break stops r)
  | case4 gap stop c r _ _ stops _ _ ih =>
    exact ih (tail_suffix inside) fun _ =>
      (gap.leaves_kept stop (c :: r) inside h).trans (.of_break stops r)
  | case5 gap stop c r _ _ _ space ih =>
    refine ih (tail_suffix inside) fun _ => (gap.leaves_kept stop (c :: r) inside h).trans ?_
    rw [eq_of_beq space]
    exact .of_space r
  | case6 gap stop c r _ _ _ _ _ ih => exact ih (tail_suffix inside) fun other => absurd rfl other
  | case7 gap stop c r => exact gap.leaves_kept stop (c :: r) inside h

/-- Behind the last word of a plain scalar come blanks only. -/
theorem leaves_read (flow : Bool) (least : Nat) (s : Text) :
    Leaves s (read flow least s).stop (read flow least s).rest :=
  leaves_readFrom flow least .word s s (List.suffix_refl s) fun other => absurd rfl other

end Scan.Plain

namespace Scan.Block

theorem suffix_header {s line : Text} {h : Header} (read : header s = .ok (h, line)) : line <:+ s := by
  rw [header] at read
  obtain ⟨⟨marked, left⟩, signs, read⟩ := bind_eq_ok.mp read
  obtain ⟨-, read⟩ := guard_eq_ok.mp read
  obtain ⟨-, read⟩ := guard_eq_ok.mp read
  cases read
  refine List.IsSuffix.trans ?_ ((Ahead.skipComment left).suffix.trans (suffix_marks signs))
  cases next : afterBreak? (skipComment left) with
  | none => exact List.suffix_refl _
  | some r => exact (Ahead.afterBreak? next).suffix

theorem leaves_leadFrom {whole : Text} (l : Lead) (s : Text) (inside : s <:+ whole)
    (h : Leaves whole l.stop s) :
    Leaves whole (leadFrom l s).stop (leadFrom l s).rest ∧ (leadFrom l s).rest <:+ whole := by
  induction s generalizing l with
  | nil => exact ⟨h, inside⟩
  | cons c r ih =>
    have behind := tail_suffix inside
    rw [leadFrom]
    split
    · next space =>
      rw [eq_of_beq space] at h
      exact ih _ behind (h.trans (.of_space r))
    · split
      · next pair =>
        rw [eq_of_beq (Bool.and_eq_true_iff.mp pair).1] at h
        exact ih _ behind (h.trans (.of_break rfl r))
      · split
        · exact ih _ behind (.of_suffix behind)
        · exact ⟨h, inside⟩

/-- Where a reader of lines is: behind a line there are blanks only. -/
def Place.Leaves (whole : Text) : Place → Text → Prop
  | .line _, _ => True
  | .between _ _ _ _ stop, s => YamlEdit.Leaves whole stop s

theorem leaves_linesFrom {whole : Text} (folds : Bool) (indent : Nat) (chomp : Chomp) (place : Place)
    (s : Text) (inside : s <:+ whole) (h : place.Leaves whole s) :
    Leaves whole (linesFrom folds indent chomp place s).stop
      (linesFrom folds indent chomp place s).rest := by
  fun_induction linesFrom folds indent chomp place s with
  | case1 => exact .of_suffix List.nil_suffix
  | case2 => exact h
  | case3 place c r pair ih =>
    refine ih (tail_suffix inside) ?_
    cases place with
    | line flush => trivial
    | between flush first breaks column stop =>
      have h : YamlEdit.Leaves whole stop (c :: r) := h
      rw [eq_of_beq (Bool.and_eq_true_iff.mp pair).1] at h
      exact h.trans (.of_break rfl r)
  | case4 c r _ flush stops ih =>
    exact ih (tail_suffix inside) (YamlEdit.Leaves.of_suffix (tail_suffix inside))
  | case5 c r _ flush _ ih => exact ih (tail_suffix inside) trivial
  | case6 c r _ flush first breaks column stop stops ih =>
    exact ih (tail_suffix inside) (YamlEdit.Leaves.of_suffix (tail_suffix inside))
  | case7 c r _ flush first breaks column stop _ space ih =>
    have h : YamlEdit.Leaves whole stop (c :: r) := h
    rw [eq_of_beq (Bool.and_eq_true_iff.mp space).1] at h
    exact ih (tail_suffix inside) (h.trans (.of_space r))
  | case8 c r _ flush first breaks column stop _ _ _ _ ih => exact ih (tail_suffix inside) trivial
  | case9 c r _ flush first breaks column stop _ _ _ => exact h

/-- Behind the last line break of a block scalar come spaces only. -/
theorem leaves_read {folds : Bool} {least : Nat} {s : Text} {r : Reading}
    (read : Block.read folds least s = .ok r) : Leaves s r.stop r.rest := by
  rw [Block.read] at read
  obtain ⟨⟨h, line⟩, headed, read⟩ := bind_eq_ok.mp read
  have inside := suffix_header headed
  dsimp only at read
  split at read
  · cases read
    exact leaves_linesFrom folds _ h.chomp _ line inside (YamlEdit.Leaves.of_suffix inside)
  · cases read
    obtain ⟨leaves, behind⟩ := leaves_leadFrom ⟨[], 0, 0, line, line⟩ line inside (.of_suffix inside)
    exact leaves_linesFrom folds _ h.chomp _ _ behind leaves

end Scan.Block

/-! ## Tokens over a text -/

/-- Whether a kind of token is a directive. -/
def Token.Kind.isDirective : Token.Kind → Bool
  | .directive _ => true
  | _ => false

namespace Token

/-- A token over a text: its marks are places of the text, and where it says that there is a dash,
one is. -/
structure Lies (s : Text) (t : Token) : Prop where
  start : t.start.In s
  stop : t.stop.In s
  le : t.start.index ≤ t.stop.index
  dash : t.kind = .blockEntry →
    ∃ r, s.drop t.start.index = '-' :: r ∧ atSpace r = true ∧ t.stop.index = t.start.index + 1
  begins : t.kind = .blockSequenceStart → (s.drop t.start.index).head? = some '-'

/-- A token that neither is a dash nor starts a sequence. -/
theorem Lies.of_other {s : Text} {t : Token}
    (other : (t.kind != .blockEntry && t.kind != .blockSequenceStart) = true) (start : t.start.In s)
    (stop : t.stop.In s) (le : t.start.index ≤ t.stop.index) : t.Lies s := by
  obtain ⟨entry, first⟩ := Bool.and_eq_true_iff.mp other
  exact ⟨start, stop, le, fun kind => absurd kind (bne_iff_ne.mp entry),
    fun kind => absurd kind (bne_iff_ne.mp first)⟩

/-- A dash takes one column. -/
theorem Lies.column_stop {s : Text} {t : Token} (h : t.Lies s) (kind : t.kind = .blockEntry) :
    t.stop.column = t.start.column + 1 := by
  obtain ⟨r, here, -, index⟩ := h.dash kind
  have next : Cursor.behind s t.stop.index = Cursor.advance 1 (Cursor.behind s t.start.index) := by
    rw [index, Cursor.behind, Cursor.advance_add]
    rfl
  have rest := Cursor.rest_behind s t.start.index
  have mark := h.start.place
  rw [h.stop.place, next]
  rw [here] at rest
  generalize Cursor.behind s t.start.index = c at rest mark ⊢
  obtain ⟨rest', mark'⟩ := c
  subst rest
  subst mark
  rfl

/-- A token up to a position behind it: there is a gap in between, unless a directive may have left
the rest of its line there. -/
structure Leads (s : Text) (t : Token) (position : Nat) : Prop where
  le : t.stop.index ≤ position
  gap : t.kind.isDirective = false → Gap s t.stop.index position

theorem Leads.trans {s : Text} {t : Token} {i j : Nat} (h : Leads s t i) (gap : Gap s i j) :
    Leads s t j :=
  ⟨Nat.le_trans h.le gap.le, fun other => (h.gap other).trans gap⟩

end Token

end YamlEdit
