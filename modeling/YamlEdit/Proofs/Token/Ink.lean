import YamlEdit.Proofs.Token.Orderly

/-!
# Characters that show

Every reader of the scanner is asked for the text that it goes over. A name, a tag, and a scalar that
is no block end with a character that shows, neither a blank nor a line break. A reader that goes on to
a later line comes to the end of the text or leaves a character that is no dash behind, since it stops
at a line break or in the indentation of a line.
-/

namespace YamlEdit

/-- The two blanks and the line breaks. -/
def blanks : Text :=
  [' ', '\t', '\r', '\n', '\x85', '\u2028', '\u2029']

/-- Whether a character shows: it is neither a blank nor a line break. -/
def isInk (c : Char) : Bool :=
  !blanks.contains c

theorem isInk_iff {c : Char} :
    isInk c = true ↔ Scan.isBreak c = false ∧ c ≠ ' ' ∧ c ≠ '\t' := by
  simp only [isInk, blanks, Scan.isBreak, List.contains_eq_mem, Bool.not_eq_true',
    decide_eq_false_iff_not, Bool.or_eq_false_iff, beq_eq_false_iff_ne, List.mem_cons, List.not_mem_nil]
  tauto

/-- A class of characters without the blanks and the line breaks. -/
theorem isInk_of {p : Char → Bool} (none : blanks.any p = false) {c : Char} (h : p c = true) :
    isInk c = true := by
  rw [isInk, Bool.not_eq_true', List.contains_eq_mem, decide_eq_false_iff_not]
  exact fun blank => List.any_eq_false.mp none c blank h

/-- A text that ends with a character that shows. -/
def Inked (s : Text) : Prop :=
  ∃ c ∈ s.getLast?, isInk c = true

theorem inked_concat (s : Text) {c : Char} (ink : isInk c = true) : Inked (s ++ [c]) :=
  ⟨c, List.getLast?_concat, ink⟩

/-- A character that shows, with others behind it. -/
theorem inked_cons {c : Char} {r : Text} (ink : isInk c = true) (all : ∀ d ∈ r, isInk d = true) :
    Inked (c :: r) := by
  cases last : (c :: r).getLast? with
  | none => simp at last
  | some d =>
    refine ⟨d, last, ?_⟩
    rcases List.mem_cons.mp (List.mem_of_getLast? last) with rfl | hd
    · exact ink
    · exact all d hd

namespace Scan

/-! ## Readers -/

theorem isInk_of_isNameChar {c : Char} (h : isNameChar c = true) : isInk c = true :=
  isInk_of (by decide) h

theorem isInk_of_hexValue? {c : Char} {n : Nat} (h : hexValue? c = some n) : isInk c = true :=
  isInk_of (p := fun c => (hexValue? c).isSome) (by decide) (by rw [h]; rfl)

theorem exists_of_anchorName {of : ScanFault.Owner} {s name rest : Text}
    (h : anchorName of s = .ok (name, rest)) : s = name ++ rest := by
  unfold anchorName at h
  simp only at h
  split at h
  · cases h
  · split at h
    · cases h
      exact List.takeWhile_append_dropWhile.symm
    · cases h

/-- A reader that goes over characters that show only. -/
def GoesOver (s rest : Text) : Prop :=
  ∃ word, s = word ++ rest ∧ ∀ c ∈ word, isInk c = true

namespace GoesOver

theorem refl (s : Text) : GoesOver s s :=
  ⟨[], rfl, nofun⟩

theorem cons {c : Char} {s rest : Text} (ink : isInk c = true) (h : GoesOver s rest) :
    GoesOver (c :: s) rest := by
  obtain ⟨word, rfl, all⟩ := h
  exact ⟨c :: word, rfl, List.forall_mem_cons.mpr ⟨ink, all⟩⟩

theorem trans {s t u : Text} (h : GoesOver s t) (h' : GoesOver t u) : GoesOver s u := by
  obtain ⟨word, rfl, all⟩ := h
  obtain ⟨word', rfl, all'⟩ := h'
  exact ⟨word ++ word', (List.append_assoc ..).symm, List.forall_mem_append.mpr ⟨all, all'⟩⟩

theorem escapedBytes {of : ScanFault.Owner} {s rest : Text} {bytes : List UInt8}
    (h : Scan.escapedBytes of s = .ok (bytes, rest)) : GoesOver s rest := by
  fun_induction Scan.escapedBytes of s generalizing bytes with
  | case1 => cases h; exact refl _
  | case2 | case4 => cases h
  | case3 | case5 => cases h; exact refl _
  | case6 c a b r percent x y hx hy more left hr ih =>
    cases h
    rw [eq_of_beq percent]
    exact (((ih hr).cons (isInk_of_hexValue? hx)).cons (isInk_of_hexValue? hy)).cons rfl
  | case7 | case8 => cases h
  | case9 => cases h; exact refl _

theorem uriChars {of : ScanFault.Owner} (steps : Nat) {s text rest : Text}
    (h : Scan.uriChars of steps s = .ok (text, rest)) : GoesOver s rest := by
  induction steps generalizing s text rest with
  | zero => cases h; exact refl _
  | succ steps ih =>
    unfold Scan.uriChars at h
    split at h
    · cases h; exact refl _
    · next c r =>
      split at h
      · obtain ⟨⟨bytes, left⟩, escaped, h⟩ := bind_eq_ok.mp h
        dsimp only at h
        split at h
        · cases h
        · obtain ⟨⟨more, behind⟩, found, h⟩ := bind_eq_ok.mp h
          cases h
          exact (escapedBytes escaped).trans (ih found)
      · split at h
        · next itself =>
          obtain ⟨⟨more, behind⟩, found, h⟩ := bind_eq_ok.mp h
          cases h
          exact (ih found).cons (isInk_of (by decide) itself)
        · cases h; exact refl _

theorem uri {of : ScanFault.Owner} {s text rest : Text} (h : Scan.uri of s = .ok (text, rest)) :
    GoesOver s rest := by
  unfold Scan.uri at h
  split at h
  · cases h
  · split at h
    · exact uriChars _ h
    · cases h

/-- Behind the exclamation mark that a handle starts with. -/
theorem handle {of : ScanFault.Owner} {s name rest : Text}
    (h : Scan.handle of ('!' :: s) = .ok (name, rest)) : GoesOver s rest := by
  unfold Scan.handle at h
  split at h
  · next heq => cases heq; cases h; exact refl _
  · next r _ heq =>
    cases heq
    simp only at h
    split at h
    · next after hr =>
      cases h
      have cut : s = s.takeWhile isNameChar ++ '!' :: rest := by
        rw [← hr, List.takeWhile_append_dropWhile]
      refine ⟨s.takeWhile isNameChar ++ ['!'], by rw [List.append_assoc]; exact cut, ?_⟩
      refine List.forall_mem_append.mpr ⟨fun c hc => ?_, List.forall_mem_singleton.mpr rfl⟩
      exact isInk_of_isNameChar (List.all_eq_true.mp List.all_takeWhile c hc)
    · cases h
  · cases h

theorem tagName {s rest : Text} {name : Option Text × Text}
    (h : Scan.tagName s = .ok (name, rest)) : GoesOver s rest := by
  unfold Scan.tagName at h
  split at h
  · next r =>
    obtain ⟨⟨text, left⟩, found, h⟩ := bind_eq_ok.mp h
    dsimp only at h
    split at h
    · cases h
      exact ((uri found).trans ((refl _).cons rfl)).cons rfl
    · cases h
  · split at h
    · cases h; exact refl _
    · dsimp only at h
      split at h
      · obtain ⟨⟨short, left⟩, first, h⟩ := bind_eq_ok.mp h
        obtain ⟨⟨text, behind⟩, found, h⟩ := bind_eq_ok.mp h
        cases h
        exact (handle first).trans (uri found)
      · obtain ⟨⟨short, left⟩, same, h⟩ := bind_eq_ok.mp h
        cases same
        obtain ⟨⟨text, behind⟩, found, h⟩ := bind_eq_ok.mp h
        cases h
        exact uri found

theorem tag {s rest : Text} {name : Option Text × Text} (h : Scan.tag s = .ok (name, rest)) :
    GoesOver s rest := by
  rw [Scan.tag] at h
  obtain ⟨⟨text, left⟩, found, h⟩ := bind_eq_ok.mp h
  obtain ⟨-, h⟩ := guard_eq_ok.mp h
  cases h
  exact tagName found

end GoesOver

/-- The end of a text, or a place behind a character that is no dash. -/
def OffDash (whole s : Text) : Prop :=
  s = [] ∨ ∃ front c, whole = front ++ c :: s ∧ c ≠ '-'

theorem OffDash.of_suffix {whole r : Text} {c : Char} (inside : c :: r <:+ whole) (other : c ≠ '-') :
    OffDash whole r := by
  obtain ⟨front, rfl⟩ := inside
  exact .inr ⟨front, c, rfl, other⟩

theorem OffDash.mono {whole longer s : Text} (h : OffDash whole s) (inside : whole <:+ longer) :
    OffDash longer s := by
  rcases h with none | ⟨front, c, rfl, other⟩
  · exact .inl none
  · exact .of_suffix ((List.suffix_append front _).trans inside) other

theorem ne_dash_of_isBreak {c : Char} (stops : isBreak c = true) : c ≠ '-' := by
  rintro rfl
  cases stops

theorem OffDash.afterBreak? {s r : Text} (h : afterBreak? s = some r) : OffDash s r := by
  unfold Scan.afterBreak? at h
  split at h
  · cases h
    exact .inr ⟨['\r'], '\n', rfl, by decide⟩
  · split at h
    · next stops =>
      cases h
      exact .of_suffix (List.suffix_refl _) (ne_dash_of_isBreak stops)
    · cases h
  · cases h

namespace Quoted

/-- A quoted scalar ends with the quote that closes it. -/
theorem exists_of_readFrom {double : Bool} {gap : Gap} {skip : Nat} {s t rest : Text}
    (h : readFrom double gap skip s = .ok (t, rest)) :
    ∃ front quote, s = front ++ quote :: rest ∧ isInk quote = true := by
  have further (c : Char) {r : Text}
      (h : ∃ front quote, r = front ++ quote :: rest ∧ isInk quote = true) :
      ∃ front quote, c :: r = front ++ quote :: rest ∧ isInk quote = true := by
    obtain ⟨front, quote, rfl, ink⟩ := h
    exact ⟨c :: front, quote, rfl, ink⟩
  fun_induction readFrom double gap skip s generalizing t with
  | case1 | case4 | case10 | case13 | case16 => cases h
  | case2 _ _ _ _ ih | case3 _ _ _ _ ih | case5 _ _ _ _ _ _ ih | case6 _ _ _ _ _ _ ih =>
    exact further _ (ih h)
  | case8 | case9 =>
    rename_i line blank _ _
    cases h
    exact ⟨[], _, rfl, isInk_iff.mpr ⟨by simpa using line, by simpa using blank⟩⟩
  | case14 => rename_i apart; rw [if_pos apart] at h; cases h
  | case15 =>
    rename_i apart ih
    rw [if_neg apart] at h
    obtain ⟨u, h⟩ := prepend_eq_ok h
    exact further _ (ih h)
  | case7 | case11 | case12 | case17 =>
    rename_i ih
    obtain ⟨u, h⟩ := prepend_eq_ok h
    exact further _ (ih h)

end Quoted

namespace Plain

/-- What was read so far ends with a character that shows, or nothing was read. -/
def Ends (whole stop : Text) : Prop :=
  ∃ word, whole = word ++ stop ∧ (word = [] ∨ Inked word)

theorem ends_readFrom {whole : Text} (flow : Bool) (least : Nat) (gap : Gap) (stop s : Text)
    (inside : s <:+ whole) (h : Ends whole (match gap with | .word => s | _ => stop)) :
    Ends whole (readFrom flow least gap stop s).stop := by
  fun_induction readFrom flow least gap stop s with
  | case1 gap stop => exact h
  | case2 gap stop c r kept _ ih =>
    refine ih (tail_suffix inside) ?_
    cases gap <;> exact h
  | case3 gap stop c r _ _ stops => exact h
  | case4 gap stop c r _ _ stops _ _ ih =>
    refine ih (tail_suffix inside) ?_
    cases gap <;> exact h
  | case5 gap stop c r _ _ _ space ih =>
    refine ih (tail_suffix inside) ?_
    cases gap <;> exact h
  | case6 gap stop c r kept pair line space word ih =>
    refine ih (tail_suffix inside) ?_
    obtain ⟨before, rfl⟩ := inside
    refine ⟨before ++ [c], by rw [List.append_assoc]; rfl, .inr (inked_concat before ?_)⟩
    have ends := (Bool.and_eq_true_iff.mp word).2
    have tab : c ≠ '\t' := by
      rintro rfl
      cases ends
    exact isInk_iff.mpr ⟨by simpa using line, by simpa using space, tab⟩
  | case7 gap stop c r => exact h

/-- A plain scalar ends with a character that shows. -/
theorem exists_of_read {flow : Bool} {c : Char} {r : Text}
    (starts : Scanner.startsPlain flow c r = true) (least : Nat) :
    ∃ word, c :: r = word ++ (read flow least (c :: r)).stop ∧ Inked word := by
  obtain ⟨line, space, word⟩ := Scanner.word_of_startsPlain starts
  have pair : isReturnOfPair c r = false := by
    simp only [isBreak, Bool.or_eq_false_iff] at line
    simp [isReturnOfPair, line.1.1.1.1]
  have shorter : (read flow least (c :: r)).stop.length < (c :: r).length :=
    length_read_stop_lt pair line space word
  obtain ⟨front, cut, none | ends⟩ := ends_readFrom flow least .word (c :: r) (c :: r)
    (List.suffix_refl _) ⟨[], rfl, .inl rfl⟩
  · have same := congrArg List.length cut
    rw [none, List.nil_append] at same
    exact absurd same (Nat.ne_of_gt shorter)
  · exact ⟨front, cut, ends⟩

/-- A plain scalar that ends on a later line than its last word. -/
theorem offDash_readFrom {whole : Text} (flow : Bool) (least : Nat) (gap : Gap) (stop s : Text)
    (inside : s <:+ whole) (h : gap.broke = true → OffDash whole s) :
    (readFrom flow least gap stop s).brokeLine = true →
      OffDash whole (readFrom flow least gap stop s).rest := by
  fun_induction readFrom flow least gap stop s with
  | case1 gap stop => exact fun _ => .inl rfl
  | case2 gap stop c r kept pair ih =>
    refine ih (tail_suffix inside) fun _ => .of_suffix inside ?_
    rw [eq_of_beq (Bool.and_eq_true_iff.mp pair).1]
    decide
  | case3 gap stop c r _ _ stops next _ => exact fun _ => .of_suffix inside (ne_dash_of_isBreak stops)
  | case4 gap stop c r _ _ stops _ _ ih =>
    exact ih (tail_suffix inside) fun _ => .of_suffix inside (ne_dash_of_isBreak stops)
  | case5 gap stop c r _ _ _ space ih =>
    refine ih (tail_suffix inside) fun _ => .of_suffix inside ?_
    rw [eq_of_beq space]
    decide
  | case6 gap stop c r kept _ _ _ _ ih => exact ih (tail_suffix inside) (absurd · Bool.false_ne_true)
  | case7 gap stop c r => exact h

end Plain

namespace Block

theorem offDash_header {s line : Text} {h : Header} (read : header s = .ok (h, line)) :
    OffDash s line := by
  rw [header] at read
  obtain ⟨⟨marked, left⟩, signs, read⟩ := bind_eq_ok.mp read
  obtain ⟨-, read⟩ := guard_eq_ok.mp read
  obtain ⟨stops, read⟩ := guard_eq_ok.mp read
  cases read
  have inside : skipComment left <:+ s := (Ahead.skipComment left).suffix.trans (suffix_marks signs)
  cases next : afterBreak? (skipComment left) with
  | some r => exact (OffDash.afterBreak? next).mono inside
  | none =>
    -- At the end of a line without a line break there is the end of the text.
    refine .inl ?_
    show skipComment left = []
    generalize skipComment left = rest at stops next
    cases rest with
    | nil => rfl
    | cons c r =>
      have stops : isBreak c = true := by simpa [atLineEnd, endOr] using stops
      unfold afterBreak? at next
      split at next
      · cases next
      · next heq =>
        cases heq
        rw [if_pos stops] at next
        cases next
      · next heq => cases heq

theorem offDash_leadFrom {whole : Text} (l : Lead) (s : Text) (inside : s <:+ whole)
    (h : OffDash whole s) : OffDash whole (leadFrom l s).rest := by
  induction s generalizing l with
  | nil => exact .inl rfl
  | cons c r ih =>
    have further (other : c ≠ '-') (l : Lead) : OffDash whole (leadFrom l r).rest :=
      ih l (tail_suffix inside) (.of_suffix inside other)
    rw [leadFrom]
    split
    · next space => exact further (by rw [eq_of_beq space]; decide) _
    · split
      · next pair => exact further (by rw [eq_of_beq (Bool.and_eq_true_iff.mp pair).1]; decide) _
      · split
        · next stops => exact further (ne_dash_of_isBreak stops) _
        · exact h

/-- Where a reader of lines is: behind a line it has come past its end. -/
def Place.OffDash (whole : Text) : Place → Text → Prop
  | .line _, _ => True
  | .between .., s => Scan.OffDash whole s

theorem offDash_linesFrom {whole : Text} (folds : Bool) (indent : Nat) (chomp : Chomp) (place : Place)
    (s : Text) (inside : s <:+ whole) (h : place.OffDash whole s) :
    OffDash whole (linesFrom folds indent chomp place s).rest := by
  fun_induction linesFrom folds indent chomp place s with
  | case1 | case2 => exact .inl rfl
  | case3 place c r pair ih =>
    refine ih (tail_suffix inside) ?_
    cases place with
    | line flush => trivial
    | between flush first breaks column stop =>
      refine .of_suffix inside ?_
      rw [eq_of_beq (Bool.and_eq_true_iff.mp pair).1]
      decide
  | case4 c r _ flush stops ih =>
    exact ih (tail_suffix inside) (.of_suffix inside (ne_dash_of_isBreak stops))
  | case5 c r _ flush _ ih => exact ih (tail_suffix inside) trivial
  | case6 c r _ flush first breaks column stop stops ih =>
    exact ih (tail_suffix inside) (.of_suffix inside (ne_dash_of_isBreak stops))
  | case7 c r _ flush first breaks column stop _ space ih =>
    refine ih (tail_suffix inside) (.of_suffix inside ?_)
    rw [eq_of_beq (Bool.and_eq_true_iff.mp space).1]
    decide
  | case8 c r _ flush first breaks column stop _ _ _ _ ih => exact ih (tail_suffix inside) trivial
  | case9 => exact h

/-- A block scalar ends in the indentation of a later line, or with the text. -/
theorem offDash_read {folds : Bool} {least : Nat} {s : Text} {r : Reading}
    (read : Block.read folds least s = .ok r) : OffDash s r.rest := by
  rw [Block.read] at read
  obtain ⟨⟨h, line⟩, headed, read⟩ := bind_eq_ok.mp read
  have inside := suffix_header headed
  have off := offDash_header headed
  dsimp only at read
  split at read
  · cases read
    exact offDash_linesFrom folds _ h.chomp _ line inside off
  · cases read
    obtain ⟨-, behind⟩ := leaves_leadFrom ⟨[], 0, 0, line, line⟩ line inside (.of_suffix inside)
    exact offDash_linesFrom folds _ h.chomp _ _ behind (offDash_leadFrom _ line inside off)

end Block

end Scan

end YamlEdit
