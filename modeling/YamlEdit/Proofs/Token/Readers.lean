import YamlEdit.Proofs.Outcome
import YamlEdit.Token.Feed

/-!
# Readers leave less than they get

A reader of a construct answers what is left of the text behind it. Nothing is ever left that was
not there before, so the rest is no longer than the text; this is what makes cutting into tokens
come to an end.
-/

namespace YamlEdit.Scan

/-! ## Runs of characters -/

theorem length_skipSpaces_le (s : Text) : (skipSpaces s).length ≤ s.length :=
  (List.dropWhile_suffix _).length_le

theorem length_skipLine_le (s : Text) : (skipLine s).length ≤ s.length :=
  (List.dropWhile_suffix _).length_le

theorem length_skipComment_le (s : Text) : (skipComment s).length ≤ s.length := by
  have spaces := length_skipSpaces_le s
  simp only [skipComment]
  split
  · exact Nat.le_trans (length_skipLine_le _) spaces
  · exact spaces

theorem length_afterBreak?_lt {s r : Text} (h : afterBreak? s = some r) : r.length < s.length := by
  unfold afterBreak? at h
  split at h
  · cases h
    simp only [List.length_cons]
    omega
  · split at h
    · cases h
      simp
    · cases h
  · cases h

theorem length_afterBreak?_getD_le (s : Text) : ((afterBreak? s).getD s).length ≤ s.length := by
  cases h : afterBreak? s with
  | none => exact Nat.le_refl _
  | some r => exact Nat.le_of_lt (length_afterBreak?_lt h)

/-! ## Names and tags -/

theorem length_anchorName_le {of : ScanFault.Owner} {s name rest : Text}
    (h : anchorName of s = .ok (name, rest)) : rest.length ≤ s.length := by
  unfold anchorName at h
  simp only at h
  split at h
  · cases h
  · split at h
    · cases h
      exact (List.dropWhile_suffix _).length_le
    · cases h

/-- A text of letters, digits, dashes and underscores. -/
def IsName (s : Text) : Prop :=
  ∀ c ∈ s, isNameChar c = true

theorem isName_of_anchorName {of : ScanFault.Owner} {s name rest : Text}
    (h : anchorName of s = .ok (name, rest)) : IsName name := by
  unfold anchorName at h
  simp only at h
  split at h
  · cases h
  · split at h
    · cases h
      exact List.all_eq_true.mp List.all_takeWhile
    · cases h

theorem length_escapedBytes_le {of : ScanFault.Owner} {s rest : Text} {bytes : List UInt8}
    (h : escapedBytes of s = .ok (bytes, rest)) : rest.length ≤ s.length := by
  fun_induction escapedBytes of s generalizing bytes with
  | case1 => cases h; exact Nat.le_refl _
  | case2 | case4 => cases h
  | case3 | case5 => cases h; exact Nat.le_refl _
  | case6 c a b r percent x y hx hy more left hr ih =>
    cases h
    have := ih hr
    simp only [List.length_cons]
    omega
  | case7 | case8 => cases h
  | case9 => cases h; exact Nat.le_refl _

theorem length_uriChars_le {of : ScanFault.Owner} (steps : Nat) {s text rest : Text}
    (h : uriChars of steps s = .ok (text, rest)) : rest.length ≤ s.length := by
  induction steps generalizing s text rest with
  | zero => cases h; exact Nat.le_refl _
  | succ steps ih =>
    unfold uriChars at h
    split at h
    · cases h; exact Nat.le_refl _
    · next c r =>
      split at h
      · cases hb : escapedBytes of (c :: r) with
        | error e => rw [hb] at h; cases h
        | ok found =>
          rw [hb] at h
          simp only [bind, Except.bind] at h
          split at h
          · cases h
          · cases hm : uriChars of steps found.2 with
            | error e => rw [hm] at h; cases h
            | ok more =>
              rw [hm] at h
              cases h
              exact Nat.le_trans (ih hm) (length_escapedBytes_le hb)
      · split at h
        · cases hm : uriChars of steps r with
          | error e => rw [hm] at h; cases h
          | ok more =>
            rw [hm] at h
            cases h
            exact Nat.le_trans (ih hm) (Nat.le_succ _)
        · cases h; exact Nat.le_refl _

theorem length_uri_le {of : ScanFault.Owner} {s text rest : Text}
    (h : uri of s = .ok (text, rest)) : rest.length ≤ s.length := by
  unfold uri at h
  split at h
  · cases h
  · split at h
    · exact length_uriChars_le _ h
    · cases h

theorem length_handle_le {of : ScanFault.Owner} {s name rest : Text}
    (h : handle of s = .ok (name, rest)) : rest.length ≤ s.length := by
  unfold handle at h
  split at h
  · cases h; simp
  · next r _ =>
    have left := (List.dropWhile_suffix (l := r) isNameChar).length_le
    simp only at h
    split at h
    · next after hr =>
      cases h
      rw [hr, List.length_cons] at left
      simp only [List.length_cons]
      omega
    · cases h
  · cases h

/-- Behind the exclamation mark that a handle starts with. -/
theorem length_handle_tail_le {of : ScanFault.Owner} {s name rest : Text}
    (h : handle of ('!' :: s) = .ok (name, rest)) : rest.length ≤ s.length := by
  unfold handle at h
  split at h
  · next heq => cases heq; cases h; simp
  · next r _ heq =>
    cases heq
    have left := (List.dropWhile_suffix (l := s) isNameChar).length_le
    simp only at h
    split at h
    · next after hr =>
      cases h
      rw [hr, List.length_cons] at left
      omega
    · cases h
  · cases h

theorem length_tagName_le {s rest : Text} {name : Option Text × Text}
    (h : tagName s = .ok (name, rest)) : rest.length ≤ s.length := by
  unfold tagName at h
  split at h
  · next r =>
    cases hu : uri .tag r with
    | error e => rw [hu] at h; cases h
    | ok found =>
      obtain ⟨text, left⟩ := found
      have read := length_uri_le hu
      rw [hu] at h
      simp only [bind, Except.bind] at h
      split at h
      · cases h
        simp only [List.length_cons] at read ⊢
        omega
      · cases h
  · split at h
    · cases h; exact Nat.le_refl _
    · dsimp only at h
      split at h
      · obtain ⟨⟨short, left⟩, hh, h⟩ := bind_eq_ok.mp h
        obtain ⟨⟨text, behind⟩, hu, h⟩ := bind_eq_ok.mp h
        cases h
        exact Nat.le_trans (length_uri_le hu) (length_handle_tail_le hh)
      · obtain ⟨⟨short, left⟩, hp, h⟩ := bind_eq_ok.mp h
        cases hp
        obtain ⟨⟨text, behind⟩, hu, h⟩ := bind_eq_ok.mp h
        cases h
        exact length_uri_le hu

theorem length_tag_le {s rest : Text} {name : Option Text × Text}
    (h : tag s = .ok (name, rest)) : rest.length ≤ s.length := by
  rw [tag] at h
  cases hn : tagName s with
  | error e => rw [hn] at h; cases h
  | ok found =>
    obtain ⟨text, left⟩ := found
    rw [hn] at h
    simp only [bind, Except.bind] at h
    split at h
    · cases h
    · cases h; exact length_tagName_le hn

/-! ## Directives -/

theorem length_versionNumber_le {s rest : Text} {n : Nat}
    (h : versionNumber s = .ok (n, rest)) : rest.length ≤ s.length := by
  unfold versionNumber at h
  simp only at h
  split at h
  · cases h
  · cases h; exact (List.dropWhile_suffix _).length_le

theorem length_version_le {s rest : Text} {d : Directive}
    (h : version s = .ok (d, rest)) : rest.length ≤ s.length := by
  rw [version] at h
  cases hm : versionNumber (skipSpaces s) with
  | error e => rw [hm] at h; cases h
  | ok major =>
    obtain ⟨n, left⟩ := major
    have first := Nat.le_trans (length_versionNumber_le hm) (length_skipSpaces_le s)
    rw [hm] at h
    simp only [bind, Except.bind] at h
    split at h
    · next behind =>
      cases hn : versionNumber behind with
      | error e => rw [hn] at h; cases h
      | ok minor =>
        obtain ⟨k, last⟩ := minor
        have second := length_versionNumber_le hn
        rw [hn] at h
        simp only at h
        split at h
        · cases h
        · cases h
          simp only [List.length_cons] at first
          omega
    · cases h

theorem length_handleRule_le {s rest : Text} {d : Directive}
    (h : handleRule s = .ok (d, rest)) : rest.length ≤ s.length := by
  rw [handleRule] at h
  cases hh : handle .directive (skipSpaces s) with
  | error e => rw [hh] at h; cases h
  | ok found =>
    obtain ⟨name, left⟩ := found
    have first := Nat.le_trans (length_handle_le hh) (length_skipSpaces_le s)
    rw [hh] at h
    simp only [bind, Except.bind] at h
    split at h
    · cases h
    · cases hu : uri .directive (skipSpaces left) with
      | error e => rw [hu] at h; cases h
      | ok named =>
        obtain ⟨text, last⟩ := named
        have second := Nat.le_trans (length_uri_le hu) (length_skipSpaces_le left)
        rw [hu] at h
        simp only at h
        split at h
        · cases h
        · cases h; exact Nat.le_trans second first

theorem length_directive_stop_le {s : Text} {line : DirectiveLine}
    (h : directive s = .ok line) : line.stop.length ≤ s.length := by
  have named := (List.dropWhile_suffix (l := s) isNameChar).length_le
  rw [directive] at h
  obtain ⟨_, h⟩ := guard_eq_ok.mp h
  obtain ⟨_, h⟩ := guard_eq_ok.mp h
  dsimp only at h
  split at h
  · obtain ⟨⟨d, stop⟩, hv, h⟩ := bind_eq_ok.mp h
    obtain ⟨_, h⟩ := guard_eq_ok.mp h
    cases h
    exact Nat.le_trans (length_version_le hv) named
  · split at h
    · obtain ⟨⟨d, stop⟩, hr, h⟩ := bind_eq_ok.mp h
      obtain ⟨_, h⟩ := guard_eq_ok.mp h
      cases h
      exact Nat.le_trans (length_handleRule_le hr) named
    · obtain ⟨⟨d, stop⟩, hd, h⟩ := bind_eq_ok.mp h
      cases hd
      obtain ⟨_, h⟩ := guard_eq_ok.mp h
      cases h
      exact named

/-! ## Quoted scalars -/

namespace Quoted

theorem prepend_eq_ok {text t rest : Text} {a : Answer (Text × Text)}
    (h : prepend text a = .ok (t, rest)) : ∃ u, a = .ok (u, rest) := by
  unfold prepend at h
  split at h
  · next u left => cases h; exact ⟨u, rfl⟩
  · cases h

theorem length_readFrom_le {double : Bool} {gap : Gap} {skip : Nat} {s t rest : Text}
    (h : readFrom double gap skip s = .ok (t, rest)) : rest.length ≤ s.length := by
  fun_induction readFrom double gap skip s generalizing t rest with
  | case1 | case4 | case10 | case13 | case16 => cases h
  | case2 _ _ _ _ ih | case3 _ _ _ _ ih | case5 _ _ _ _ _ _ ih | case6 _ _ _ _ _ _ ih =>
    exact Nat.le_succ_of_le (ih h)
  | case8 | case9 => cases h; exact Nat.le_succ _
  | case14 => rename_i apart; rw [if_pos apart] at h; cases h
  | case15 =>
    rename_i apart ih
    rw [if_neg apart] at h
    obtain ⟨u, h⟩ := prepend_eq_ok h
    exact Nat.le_succ_of_le (ih h)
  | case7 | case11 | case12 | case17 =>
    rename_i ih
    obtain ⟨u, h⟩ := prepend_eq_ok h
    exact Nat.le_succ_of_le (ih h)

theorem length_read_le {double : Bool} {s t rest : Text} (h : read double s = .ok (t, rest)) :
    rest.length ≤ s.length :=
  length_readFrom_le h

end Quoted

/-! ## Plain scalars -/

namespace Plain

/-- What was left behind the last word, which is nothing yet inside of a word. -/
def Gap.bound (gap : Gap) (stop : Text) : Nat :=
  match gap with
  | .word => 0
  | _ => stop.length

theorem Gap.length_kept_le (gap : Gap) (stop s : Text) :
    (match gap with | .word => s | _ => stop).length ≤ max s.length (gap.bound stop) := by
  cases gap <;> simp only [bound] <;> omega

theorem length_readFrom_stop_le (flow : Bool) (least : Nat) (gap : Gap) (stop s : Text) :
    (readFrom flow least gap stop s).stop.length ≤ max s.length (gap.bound stop) := by
  fun_induction readFrom flow least gap stop s with
  | case1 gap stop => exact gap.length_kept_le stop []
  | case2 gap stop c r kept _ ih =>
    cases gap <;> simp only [kept, Gap.bound, List.length_cons] at ih ⊢ <;> omega
  | case3 gap stop c r kept _ _ next _ => exact gap.length_kept_le stop (c :: r)
  | case4 gap stop c r kept _ _ next _ ih =>
    cases gap <;> simp only [kept, next, Gap.line, Gap.bound, List.length_cons] at ih ⊢ <;> omega
  | case5 gap stop c r kept _ _ _ ih =>
    cases gap <;> simp only [kept, Gap.space, Gap.bound, List.length_cons] at ih ⊢ <;> omega
  | case6 gap stop c r kept _ _ _ _ ih =>
    have here := gap.length_kept_le stop (c :: r)
    simp only [Gap.bound, Reading.after, List.length_cons] at ih here ⊢
    omega
  | case7 gap stop c r kept _ _ _ _ => exact gap.length_kept_le stop (c :: r)

/-- A plain scalar that starts with the character of a word takes that character. -/
theorem length_read_stop_lt {flow : Bool} {least : Nat} {c : Char} {r : Text}
    (pair : isReturnOfPair c r = false) (line : isBreak c = false) (space : c ≠ ' ')
    (word : endsWord flow (c :: r) = false) :
    (read flow least (c :: r)).stop.length < (c :: r).length := by
  have rest := length_readFrom_stop_le flow least .word (c :: r) r
  simp only [Gap.bound] at rest
  simp only [read, readFrom, pair, line, space, word, Gap.mayResume, beq_iff_eq, Bool.false_eq_true,
    if_false, Bool.not_false, Bool.and_self, if_true, Reading.after, List.length_cons]
  omega

/-- Behind the blanks after the last word no more is left than behind the word itself. -/
theorem length_readFrom_rest_le (flow : Bool) (least : Nat) (gap : Gap) (stop s : Text)
    (room : gap = .word ∨ s.length ≤ stop.length) :
    (readFrom flow least gap stop s).rest.length ≤ (readFrom flow least gap stop s).stop.length := by
  have kept (c : Char) (r : Text) (gap : Gap) (stop : Text)
      (room : gap = .word ∨ (c :: r).length ≤ stop.length) :
      (c :: r).length ≤ (match gap with | .word => c :: r | _ => stop).length := by
    rcases room with rfl | room
    · exact Nat.le_refl _
    · cases gap
      · exact Nat.le_refl _
      · exact room
      · exact room
  fun_induction readFrom flow least gap stop s with
  | case1 => exact Nat.zero_le _
  | case2 gap stop c r _ _ ih => exact ih (.inr (Nat.le_of_succ_le (kept c r gap stop room)))
  | case3 gap stop c r _ _ _ _ _ => exact Nat.le_of_succ_le (kept c r gap stop room)
  | case4 gap stop c r _ _ _ _ _ ih => exact ih (.inr (Nat.le_of_succ_le (kept c r gap stop room)))
  | case5 gap stop c r _ _ _ _ ih => exact ih (.inr (Nat.le_of_succ_le (kept c r gap stop room)))
  | case6 gap stop c r _ _ _ _ _ ih => exact ih (.inl rfl)
  | case7 gap stop c r _ _ _ _ _ => exact kept c r gap stop room

/-- The word ends in the text, and the blanks after it come behind. -/
theorem room_read (flow : Bool) (least : Nat) (s : Text) :
    (read flow least s).stop.length ≤ s.length ∧
      (read flow least s).rest.length ≤ (read flow least s).stop.length := by
  refine ⟨?_, length_readFrom_rest_le flow least .word s s (.inl rfl)⟩
  have stop := length_readFrom_stop_le flow least .word s s
  rwa [Gap.bound, Nat.max_zero] at stop

end Plain

/-! ## Block scalars -/

namespace Block

theorem suffix_chomp? (s : Text) : (chomp? s).2 <:+ s := by
  unfold chomp?
  split
  · exact List.suffix_cons _ _
  · exact List.suffix_cons _ _
  · exact List.suffix_refl _

theorem suffix_increment? {s rest : Text} {n : Option Nat} (h : increment? s = .ok (n, rest)) :
    rest <:+ s := by
  unfold increment? at h
  split at h
  · split at h
    · cases h
    · split at h
      · cases h; exact List.suffix_cons _ _
      · cases h; exact List.suffix_refl _
  · cases h; exact List.suffix_refl _

theorem suffix_marks {s rest : Text} {h : Header} (read : marks s = .ok (h, rest)) : rest <:+ s := by
  rw [marks] at read
  have first := suffix_chomp? s
  generalize chomp? s = found at read first
  obtain ⟨sign, behind⟩ := found
  obtain ⟨⟨increment, left⟩, counted, read⟩ := bind_eq_ok.mp read
  have second := (suffix_increment? counted).trans first
  dsimp only at read
  by_cases late : (sign.isNone && increment.isSome) = true
  · rw [if_pos late] at read
    cases read
    exact (suffix_chomp? left).trans second
  · rw [if_neg late] at read
    cases read
    exact second

theorem length_header_le {s rest : Text} {h : Header} (read : header s = .ok (h, rest)) :
    rest.length ≤ s.length := by
  rw [header] at read
  obtain ⟨⟨marked, left⟩, hm, read⟩ := bind_eq_ok.mp read
  obtain ⟨_, read⟩ := guard_eq_ok.mp read
  obtain ⟨_, read⟩ := guard_eq_ok.mp read
  cases read
  exact Nat.le_trans (length_afterBreak?_getD_le _)
    (Nat.le_trans (length_skipComment_le _) (suffix_marks hm).length_le)

theorem length_leadFrom_stop_le (l : Lead) (s : Text) :
    (leadFrom l s).stop.length ≤ max l.stop.length s.length := by
  fun_induction leadFrom l s with
  | case1 l => exact Nat.le_max_left _ _
  | case2 l c r _ ih => simp only [List.length_cons] at ih ⊢; omega
  | case3 l c r _ _ ih => simp only [List.length_cons] at ih ⊢; omega
  | case4 l c r _ _ _ ih => simp only [List.length_cons] at ih ⊢; omega
  | case5 l c r => exact Nat.le_max_left _ _

/-- What is left behind the last break before a place. -/
def Place.bound : Place → Nat
  | .line _ => 0
  | .between _ _ _ _ stop => stop.length

theorem length_linesFrom_stop_le (folds : Bool) (indent : Nat) (chomp : Chomp) (place : Place)
    (s : Text) : (linesFrom folds indent chomp place s).stop.length ≤ max s.length place.bound := by
  fun_induction linesFrom folds indent chomp place s with
  | case1 => simp
  | case2 => simp [Place.bound]
  | case3 _ _ _ _ ih => simp only [List.length_cons] at ih ⊢; omega
  | case4 | case5 | case6 | case7 | case8 =>
    rename_i ih
    simp only [Place.bound, Reading.after, List.length_cons] at ih ⊢
    omega
  | case9 => exact Nat.le_max_right _ _

theorem length_leadFrom_rest_le (l : Lead) (s : Text) : (leadFrom l s).rest.length ≤ s.length := by
  fun_induction leadFrom l s with
  | case1 l => exact Nat.le_refl _
  | case2 l c r _ ih => exact Nat.le_succ_of_le ih
  | case3 l c r _ _ ih => exact Nat.le_succ_of_le ih
  | case4 l c r _ _ _ ih => exact Nat.le_succ_of_le ih
  | case5 l c r => exact Nat.le_refl _

theorem length_read_stop_le {folds : Bool} {least : Nat} {s : Text} {r : Reading}
    (h : read folds least s = .ok r) : r.stop.length ≤ s.length := by
  rw [read] at h
  obtain ⟨⟨marked, left⟩, hh, h⟩ := bind_eq_ok.mp h
  have headed := length_header_le hh
  dsimp only at h
  split at h
  · cases h
    refine Nat.le_trans (length_linesFrom_stop_le ..) ?_
    simp only [Place.bound]
    omega
  · cases h
    have stop := length_leadFrom_stop_le ⟨[], 0, 0, left, left⟩ left
    have rest := length_leadFrom_rest_le ⟨[], 0, 0, left, left⟩ left
    refine Nat.le_trans (length_linesFrom_stop_le ..) ?_
    simp only [Place.bound] at stop ⊢
    omega

/-- A place is behind the last break. -/
def Place.Behind (s : Text) : Place → Prop
  | .line _ => True
  | .between _ _ _ _ stop => s.length ≤ stop.length

/-- Where the lines end no more is left than behind the last break. -/
theorem length_linesFrom_rest_le (folds : Bool) (indent : Nat) (chomp : Chomp) (place : Place)
    (s : Text) (behind : place.Behind s) :
    (linesFrom folds indent chomp place s).rest.length ≤
      (linesFrom folds indent chomp place s).stop.length := by
  fun_induction linesFrom folds indent chomp place s with
  | case1 => exact Nat.zero_le _
  | case2 => exact Nat.zero_le _
  | case3 place c r _ ih =>
    refine ih ?_
    cases place with
    | line => trivial
    | between => exact Nat.le_of_succ_le behind
  | case4 | case6 =>
    rename_i ih
    exact ih (Nat.le_refl _)
  | case5 | case8 =>
    rename_i ih
    exact ih trivial
  | case7 =>
    rename_i ih
    exact ih (Nat.le_of_succ_le behind)
  | case9 => exact behind

theorem length_leadFrom_rest_le_stop (l : Lead) (s : Text) (behind : s.length ≤ l.stop.length) :
    (leadFrom l s).rest.length ≤ (leadFrom l s).stop.length := by
  fun_induction leadFrom l s with
  | case1 => exact Nat.zero_le _
  | case2 l c r _ ih => exact ih (Nat.le_of_succ_le behind)
  | case3 l c r _ _ ih => exact ih (Nat.le_of_succ_le behind)
  | case4 l c r _ _ _ ih => exact ih (Nat.le_refl _)
  | case5 => exact behind

theorem length_read_rest_le {folds : Bool} {least : Nat} {s : Text} {r : Reading}
    (h : read folds least s = .ok r) : r.rest.length ≤ r.stop.length := by
  rw [read] at h
  obtain ⟨⟨marked, left⟩, -, h⟩ := bind_eq_ok.mp h
  dsimp only at h
  split at h
  · cases h
    exact length_linesFrom_rest_le _ _ _ _ _ (Nat.le_refl _)
  · cases h
    exact length_linesFrom_rest_le _ _ _ _ _ (length_leadFrom_rest_le_stop _ _ (Nat.le_refl _))

end Block

end YamlEdit.Scan
