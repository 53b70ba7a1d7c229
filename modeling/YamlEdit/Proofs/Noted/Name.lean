import YamlEdit.Proofs.Noted.Text

/-!
# Names in lines with another comment

No name, tag or directive has a space or a number sign in it, and each ends with its line. So what is
read of one before the place is the same in both texts.
-/

namespace YamlEdit.Scan

variable {ε ε' α β : Type} {u v post w w' : Text}

/-- Answers in the two texts: the same, with the same part left before the place. -/
structure SameRead (v w w' : Text) (a b : α × Text) : Prop where
  same : b.1 = a.1
  left : ∃ s, s <:+ v ∧ a.2 = s ++ w ∧ b.2 = s ++ w'

theorem SameRead.refl {a : α} {s : Text} (suffix : s <:+ v) : SameRead v w w' (a, s ++ w) (a, s ++ w') :=
  ⟨rfl, s, suffix, rfl, rfl⟩

theorem SameRead.mono {t : Text} {a b : α × Text} (h : SameRead t w w' a b) (inner : t <:+ v) :
    SameRead v w w' a b := by
  obtain ⟨same, s, suffix, left⟩ := h
  exact ⟨same, s, suffix.trans inner, left⟩

/-- What comes behind a reader carries over from what the reader leaves on. -/
theorem Carries.bind_read {R : β → γ → Prop} {x y : Answer (α × Text)} {f : α × Text → Answer β}
    {g : α × Text → Answer γ} (h : Carries (SameRead v w w') x y)
    (next : ∀ a s, s <:+ v → Carries R (f (a, s ++ w)) (g (a, s ++ w'))) :
    Carries R (x >>= f) (y >>= g) := by
  refine h.bind ?_
  rintro ⟨a, t⟩ ⟨a', t'⟩ ⟨same, s, suffix, left, left'⟩
  dsimp only at same left left'
  subst same left left'
  exact next _ s suffix

namespace Fork

variable (h : Fork u post w w')
include h

theorem still_name : Still isNameChar w ∧ Still isNameChar w' :=
  h.still (by decide)

theorem endsName_eq (s : Text) : endsName (s ++ w') = endsName (s ++ w) := by
  have space := h.atSpace_eq s
  have other (t : Text) (head : ∀ c ∈ t.head?, "?:,]\x7d%@\x60".toList.contains c = false) :
      endsName t = atSpace t := by
    cases t with
    | nil => rfl
    | cons c r => rw [endsName, head c rfl, Bool.or_false]
  cases s with
  | cons c r => simp only [List.cons_append, endsName] at space ⊢; rw [space]
  | nil =>
    obtain ⟨old, new⟩ := h.still (p := "?:,]\x7d%@\x60".toList.contains) (by decide)
    rw [List.nil_append, List.nil_append, other w old, other w' new]
    exact space

theorem carries_anchorName (of : ScanFault.Owner) (v : Text) :
    Carries (SameRead v w w') (anchorName of (v ++ w)) (anchorName of (v ++ w')) := by
  obtain ⟨old, new⟩ := h.still_name
  unfold anchorName
  dsimp only
  rw [takeWhile_append_still old, takeWhile_append_still new, dropWhile_append_still old,
    dropWhile_append_still new, h.endsName_eq]
  split
  · exact .error
  · refine .ite (fun _ => .ok (.refl (List.dropWhile_suffix _))) fun _ => .error

end Fork

/-! ## Tags -/

/-- Reads the rest of a tag that is no full name, with a handle or without one. -/
def named (marked : Bool) (s : Text) : Answer ((Option Text × Text) × Text) := do
  let (handle, s) ← if marked then handle .tag ('!' :: s) else pure (['!'], s)
  let (name, rest) ← uri .tag s
  return ((some handle, name), rest)

theorem still_nil {p : Char → Bool} : Still p [] := nofun

theorem Still.head {p : Char → Bool} {c : Char} {r : Text} (h : Still p (c :: r)) : p c = false :=
  h c rfl

/-- A percent sign with less than two digits behind it is a fault. -/
theorem escapedBytes_of_still (of : ScanFault.Owner) {s : Text}
    (still : Still (fun c => (hexValue? c).isSome) s) :
    (∃ e, escapedBytes of ('%' :: s) = .error e) ∧
      ∀ a, ∃ e, escapedBytes of ('%' :: a :: s) = .error e := by
  match s with
  | [] => exact ⟨⟨_, rfl⟩, fun a => ⟨_, rfl⟩⟩
  | [b] =>
    have other : hexValue? b = none := by simpa using still.head
    exact ⟨⟨_, rfl⟩, fun a => escapedBytes_fault of (.inr other)⟩
  | b :: c :: r =>
    have other : hexValue? b = none := by simpa using still.head
    exact ⟨escapedBytes_fault of (.inl other), fun a => escapedBytes_fault of (.inr other)⟩

theorem escapedBytes_digits (of : ScanFault.Owner) {a b : Char} {x y : Nat} (ha : hexValue? a = some x)
    (hb : hexValue? b = some y) (r : Text) :
    escapedBytes of ('%' :: a :: b :: r) =
      (escapedBytes of r).map fun p => (UInt8.ofNat (x * 16 + y) :: p.1, p.2) := by
  rw [escapedBytes]
  simp only [beq_self_eq_true, if_true, ha, hb]
  cases escapedBytes of r <;> rfl

theorem Carries.of_error {R : α → β → Prop} {x : Except ε α} {y : Except ε' β}
    (hx : ∃ e, x = .error e) : Carries R x y := by
  obtain ⟨e, rfl⟩ := hx
  exact .error

namespace Fork

variable (h : Fork u post w w')
include h

theorem still_hex : Still (fun c => (hexValue? c).isSome) w ∧
    Still (fun c => (hexValue? c).isSome) w' :=
  h.still (by decide)

theorem head_ne_percent : w.head? ≠ some '%' ∧ w'.head? ≠ some '%' := by
  obtain ⟨old, new⟩ := h.still (p := (· == '%')) rfl
  exact ⟨fun head => by simpa using old '%' head, fun head => by simpa using new '%' head⟩

/-- The escapes behind a percent sign. -/
theorem carries_escapes (of : ScanFault.Owner) (v : Text) :
    Carries (SameRead v w w') (escapedBytes of ('%' :: (v ++ w))) (escapedBytes of ('%' :: (v ++ w'))) := by
  obtain ⟨fault, fault'⟩ := escapedBytes_of_still of h.still_hex.1
  induction size : v.length using Nat.strongRecOn generalizing v with
  | ind n ih =>
    match v, size with
    | [], _ => exact .of_error fault
    | [a], _ => exact .of_error (fault' a)
    | a :: b :: r, size =>
      cases ha : hexValue? a with
      | none => exact .of_error (escapedBytes_fault of (.inl ha))
      | some x =>
        cases hb : hexValue? b with
        | none => exact .of_error (escapedBytes_fault of (.inr hb))
        | some y =>
          have inner : Carries (SameRead r w w') (escapedBytes of (r ++ w)) (escapedBytes of (r ++ w')) := by
            by_cases escape : r.head? = some '%'
            · obtain ⟨t, rfl⟩ := List.head?_eq_some_iff.mp escape
              refine (ih t.length ?_ t rfl).mono fun a b kept => kept.mono (List.suffix_cons _ _)
              simp only [List.length_cons] at size
              omega
            · have other : (r ++ w).head? ≠ some '%' ∧ (r ++ w').head? ≠ some '%' := by
                cases r with
                | nil => exact h.head_ne_percent
                | cons c t => exact ⟨escape, escape⟩
              rw [escapedBytes_of_head of other.1, escapedBytes_of_head of other.2]
              exact .ok (.refl (List.suffix_refl r))
          simp only [List.cons_append]
          rw [escapedBytes_digits of ha hb, escapedBytes_digits of ha hb]
          refine inner.map fun p q kept => ?_
          obtain ⟨same, s, suffix, left⟩ := kept
          exact ⟨congrArg (_ :: ·) same, s, suffix.trans (List.suffix_append [a, b] r), left⟩

/-- The characters of a tag, in any bounds that do not show. -/
theorem carries_uriChars (of : ScanFault.Owner) {m n : Nat} {v : Text} (hm : (v ++ w).length < m)
    (hn : (v ++ w').length < n) :
    Carries (SameRead v w w') (uriChars of m (v ++ w)) (uriChars of n (v ++ w')) := by
  obtain ⟨old, new⟩ := h.still (p := isUriChar) (by decide)
  obtain ⟨percent, percent'⟩ := h.head_ne_percent
  have stop (k : Nat) {t : Text} (still : Still isUriChar t) (other : t.head? ≠ some '%') :
      uriChars of (k + 1) t = .ok ([], t) := by
    cases t with
    | nil => rfl
    | cons c r =>
      have sign : c ≠ '%' := fun same => other (congrArg some same)
      exact uriChars_stop of _ (beq_eq_false_iff_ne.mpr sign) still.head r
  induction m generalizing n v with
  | zero => omega
  | succ m ih =>
    cases n with
    | zero => omega
    | succ n =>
      cases v with
      | nil =>
        rw [List.nil_append, List.nil_append, stop m old percent, stop n new percent']
        exact .ok (.refl (List.suffix_refl []))
      | cons c r =>
        have inner {t : Text} (suffix : t <:+ r) : (t ++ w).length < m ∧ (t ++ w').length < n := by
          have := suffix.length_le
          simp only [List.length_append, List.length_cons] at *
          omega
        simp only [List.cons_append]
        cases percent : c == '%' with
        | true =>
          rw [beq_iff_eq] at percent
          subst percent
          rw [uriChars, uriChars]
          simp only [beq_self_eq_true, if_true]
          refine (h.carries_escapes of r).bind_read fun bytes t suffix => ?_
          dsimp only
          cases Utf8.decode bytes with
          | error fault => exact .error
          | ok text =>
            refine (ih (inner suffix).1 (inner suffix).2).bind_read fun more s behind => ?_
            exact .ok (.refl (behind.trans (suffix.trans (List.suffix_cons _ _))))
        | false =>
          cases uri : isUriChar c with
          | false =>
            rw [uriChars_stop of _ percent uri, uriChars_stop of _ percent uri]
            exact .ok (.refl (List.suffix_refl (c :: r)))
          | true =>
            rw [uriChars, uriChars]
            simp only [percent, uri, Bool.false_eq_true, if_false, if_true]
            obtain ⟨hm, hn⟩ := inner (List.suffix_refl r)
            refine (ih hm hn).bind_read fun more s behind => ?_
            exact .ok (.refl (behind.trans (List.suffix_cons _ _)))

theorem uri_fault (of : ScanFault.Owner) : ∃ e, uri of w = .error e := by
  have other := h.still_old (p := fun c => c == '%' || isUriChar c) (by decide)
  cases w with
  | nil => exact ⟨_, rfl⟩
  | cons c r =>
    rw [uri, if_neg (by rw [other.head]; exact Bool.false_ne_true)]
    exact ⟨_, rfl⟩

theorem carries_uri (of : ScanFault.Owner) (v : Text) :
    Carries (SameRead v w w') (uri of (v ++ w)) (uri of (v ++ w')) := by
  have chars := h.carries_uriChars of (Nat.lt_succ_self (v ++ w).length)
    (Nat.lt_succ_self (v ++ w').length)
  cases v with
  | nil => exact .of_error (h.uri_fault of)
  | cons c r =>
    simp only [List.cons_append] at chars ⊢
    rw [uri, uri]
    exact .ite (fun _ => chars) fun _ => .error

theorem carries_handle (of : ScanFault.Owner) (v : Text) :
    Carries (SameRead v w w') (handle of ('!' :: (v ++ w))) (handle of ('!' :: (v ++ w'))) := by
  obtain ⟨old, new⟩ := h.still_name
  by_cases gap : v.head? = some ' '
  · obtain ⟨r, rfl⟩ := List.head?_eq_some_iff.mp gap
    exact .ok (.refl (List.suffix_refl (' ' :: r)))
  · have other : (v ++ w).head? ≠ some ' ' := by
      cases v with
      | cons c r => exact gap
      | nil =>
        have unspaced := h.still_old (p := (· == ' ')) rfl
        exact fun head => by simpa using unspaced ' ' head
    rw [handle_of_head of other, takeWhile_append_still old, dropWhile_append_still old]
    have suffix := List.dropWhile_suffix (l := v) isNameChar
    cases left : v.dropWhile isNameChar with
    | nil =>
      have unmarked := h.still_old (p := (· == '!')) rfl
      rw [List.nil_append]
      split
      · exact absurd unmarked.head (by simp)
      · exact .error
    | cons c r =>
      have other : (v ++ w').head? ≠ some ' ' := by
        cases v with
        | cons c r => exact gap
        | nil => cases left
      rw [handle_of_head of other, takeWhile_append_still new, dropWhile_append_still new, left]
      rw [left] at suffix
      simp only [List.cons_append]
      split
      · next same =>
        obtain ⟨rfl, rfl⟩ := List.cons.inj same
        exact .ok (.refl ((List.suffix_cons _ _).trans suffix))
      · exact .error

/-- The rest of a tag, whether or not a handle comes first. -/
theorem carries_named (marked : Bool) (v : Text) :
    Carries (SameRead v w w') (named marked (v ++ w)) (named marked (v ++ w')) := by
  have rest (handle : Text) {s : Text} (suffix : s <:+ v) :
      Carries (SameRead v w w') (do let (name, rest) ← uri .tag (s ++ w); return ((some handle, name), rest))
        (do let (name, rest) ← uri .tag (s ++ w'); return ((some handle, name), rest)) :=
    (h.carries_uri .tag s).bind_read fun _ _ behind => .ok (.refl (behind.trans suffix))
  unfold named
  cases marked with
  | true => exact (h.carries_handle .tag v).bind_read fun handle s suffix => rest handle suffix
  | false => exact rest ['!'] (List.suffix_refl v)

/-- A tag that ends in front of a gap shows whether it has a handle. -/
theorem hasHandle_eq {s : Text} (suffix : s <:+ v) (gap : atGap (s ++ w) = true) :
    hasHandle (v ++ w') = hasHandle (v ++ w) := by
  obtain ⟨p, rfl⟩ := suffix
  have still {t : Text} (gap : atGap t = true) : Still (fun c => c ≠ ' ' && !isBreak c) t := by
    cases t with
    | nil => exact still_nil
    | cons c r =>
      rintro _ ⟨⟩
      have gap : (c == ' ' || isBreak c) = true := gap
      rw [Bool.or_eq_true, beq_iff_eq] at gap
      rcases gap with rfl | stops
      · rfl
      · simp [stops]
  rw [hasHandle, hasHandle, List.append_assoc, List.append_assoc, takeWhile_append_still (still gap),
    takeWhile_append_still (still (by rwa [h.atGap_eq]))]

/-- A tag between angle brackets. -/
theorem carries_bracketed (r : Text) :
    Carries (SameRead ('<' :: r) w w') (tagName ('<' :: r ++ w)) (tagName ('<' :: r ++ w')) := by
  rw [List.cons_append, List.cons_append, tagName, tagName]
  refine (h.carries_uri .tag r).bind_read fun name s suffix => ?_
  cases s with
  | nil =>
    have unclosed := h.still_old (p := (· == '>')) rfl
    dsimp only [List.nil_append]
    split
    · exact absurd unclosed.head (by simp)
    · exact .error
  | cons c t =>
    dsimp only [List.cons_append]
    split
    · next same =>
      obtain ⟨rfl, rfl⟩ := List.cons.inj same
      exact .ok (.refl ((List.suffix_cons _ _).trans (suffix.trans (List.suffix_cons _ _))))
    · exact .error

theorem kept_tagName {a : (Option Text × Text) × Text} (read : tagName (v ++ w) = .ok a)
    (gap : atGap a.2 = true) : ∃ b, tagName (v ++ w') = .ok b ∧ SameRead v w w' a b := by
  by_cases bracket : v.head? = some '<'
  · obtain ⟨r, rfl⟩ := List.head?_eq_some_iff.mp bracket
    exact h.carries_bracketed r a read
  · have other : (v ++ w).head? ≠ some '<' ∧ (v ++ w').head? ≠ some '<' := by
      obtain ⟨old, new⟩ := h.still (p := (· == '<')) rfl
      cases v with
      | cons c r => exact ⟨bracket, bracket⟩
      | nil => exact ⟨fun head => by simpa using old '<' head, fun head => by simpa using new '<' head⟩
    have cut (s : Text) (head : s.head? ≠ some '<') : tagName s =
        if atSpace s then .ok ((none, ['!']), s) else named (hasHandle s) s := by
      rw [tagName_of_head head]
      rfl
    rw [cut _ other.1] at read
    rw [cut _ other.2, h.atSpace_eq]
    split
    · next space =>
      rw [if_pos space] at read
      cases read
      exact ⟨_, rfl, .refl (List.suffix_refl v)⟩
    · next more =>
      rw [if_neg more] at read
      obtain ⟨b, named', kept⟩ := h.carries_named (hasHandle (v ++ w)) v a read
      have same := kept.left
      obtain ⟨s, suffix, left, -⟩ := same
      rw [left] at gap
      rw [h.hasHandle_eq suffix gap]
      exact ⟨b, named', kept⟩

theorem carries_tag (v : Text) : Carries (SameRead v w w') (tag (v ++ w)) (tag (v ++ w')) := by
  intro a read
  obtain ⟨⟨name, rest⟩, first, read⟩ := bind_eq_ok.mp read
  obtain ⟨gap, read⟩ := guard_eq_ok.mp read
  have gap : atGap rest = true := by simpa using gap
  cases read
  obtain ⟨⟨name', rest'⟩, first', kept⟩ := h.kept_tagName first gap
  obtain ⟨s, suffix, left, left'⟩ := kept.left
  dsimp only at left left'
  have gap' : atGap rest' = true := by rwa [left', h.atGap_eq, ← left]
  refine ⟨(name', rest'), bind_eq_ok.mpr ⟨_, first', guard_eq_ok.mpr ⟨?_, rfl⟩⟩, kept⟩
  simp [gap']

end Fork

/-! ## Directives -/

theorem skipSpaces_append {s : Text} (some : skipSpaces s ≠ []) (t : Text) :
    skipSpaces (s ++ t) = skipSpaces s ++ t := by
  unfold skipSpaces at some ⊢
  simp [List.dropWhile_append, some]

theorem skipSpaces_append_of_nil {s : Text} (none : skipSpaces s = []) (t : Text) :
    skipSpaces (s ++ t) = skipSpaces t := by
  unfold skipSpaces at none ⊢
  simp [List.dropWhile_append, none]

theorem suffix_skipSpaces (s : Text) : skipSpaces s <:+ s :=
  List.dropWhile_suffix _

namespace Fork

variable (h : Fork u post w w')
include h

theorem skipSpaces_old : skipSpaces w = w := by
  have still := h.still_old (p := (· == ' ')) rfl
  exact dropWhile_append_still still []

/-- What comes behind spaces carries over, if it fails on what comes behind the place. -/
theorem carries_skipSpaces {R : α → β → Prop} {f : Text → Answer α} {g : Text → Answer β} (v : Text)
    (none : ∃ e, f w = .error e)
    (next : ∀ s, s <:+ v → s ≠ [] → Carries R (f (s ++ w)) (g (s ++ w'))) :
    Carries R (f (skipSpaces (v ++ w))) (g (skipSpaces (v ++ w'))) := by
  by_cases some : skipSpaces v = []
  · rw [skipSpaces_append_of_nil some, h.skipSpaces_old]
    exact .of_error none
  · rw [skipSpaces_append some, skipSpaces_append some]
    exact next _ (suffix_skipSpaces v) some

theorem still_digit : Still Char.isDigit w ∧ Still Char.isDigit w' :=
  h.still (by decide)

theorem carries_versionNumber (v : Text) :
    Carries (SameRead v w w') (versionNumber (v ++ w)) (versionNumber (v ++ w')) := by
  obtain ⟨old, new⟩ := h.still_digit
  unfold versionNumber
  dsimp only
  rw [takeWhile_append_still old, takeWhile_append_still new, dropWhile_append_still old,
    dropWhile_append_still new]
  exact .ite (fun _ => .error) fun _ => .ok (.refl (List.dropWhile_suffix _))

theorem carries_version (v : Text) : Carries (SameRead v w w') (version (v ++ w)) (version (v ++ w')) := by
  have first : ∃ e, versionNumber w = .error e := by
    refine ⟨_, if_pos ?_⟩
    have none := takeWhile_append_still h.still_digit.1 []
    rw [List.nil_append] at none
    rw [none]
    rfl
  rw [version, version]
  have major : Carries (SameRead v w w') (versionNumber (skipSpaces (v ++ w)))
      (versionNumber (skipSpaces (v ++ w'))) :=
    h.carries_skipSpaces v first fun s suffix _ =>
      (h.carries_versionNumber s).mono fun _ _ kept => kept.mono suffix
  refine major.bind_read fun major s suffix => ?_
  · cases s with
    | nil =>
      have pointless := h.still_old (p := (· == '.')) rfl
      dsimp only [List.nil_append]
      split
      · exact absurd pointless.head (by simp)
      · exact .error
    | cons c t =>
      dsimp only [List.cons_append]
      split
      · next same =>
        obtain ⟨rfl, rfl⟩ := List.cons.inj same
        refine (h.carries_versionNumber t).bind_read fun minor s behind => ?_
        refine .guard (fun free => by rwa [h.atGap_eq]) fun _ => .ok (.refl ?_)
        exact behind.trans ((List.suffix_cons _ _).trans suffix)
      · exact .error

theorem carries_handleRule (v : Text) :
    Carries (SameRead v w w') (handleRule (v ++ w)) (handleRule (v ++ w')) := by
  have unmarked := h.still_old (p := (· == '!')) rfl
  have unhandled {s : Text} (other : s.head? ≠ some '!') : ∃ e, handle .directive s = .error e := by
    unfold handle
    split
    · exact absurd rfl other
    · exact absurd rfl other
    · exact ⟨_, rfl⟩
  have handled : Carries (SameRead v w w') (handle .directive (skipSpaces (v ++ w)))
      (handle .directive (skipSpaces (v ++ w'))) := by
    refine h.carries_skipSpaces v (unhandled fun head => by simpa using unmarked '!' head)
      fun s suffix some => ?_
    obtain ⟨c, r, rfl⟩ := List.exists_cons_of_ne_nil some
    by_cases sign : c = '!'
    · subst sign
      exact (h.carries_handle .directive r).mono fun _ _ kept =>
        kept.mono ((List.suffix_cons _ _).trans suffix)
    · exact .of_error (unhandled fun head => sign (Option.some.inj head))
  rw [handleRule, handleRule]
  refine handled.bind_read fun handle s suffix => ?_
  dsimp only
  cases s with
  | nil =>
    have unspaced := h.still_old (p := (· == ' ')) rfl
    rw [if_pos fun head => by simpa using unspaced ' ' head]
    exact .error
  | cons c r =>
    refine .guard (fun same => same) fun _ => ?_
    have named : Carries (SameRead v w w') (uri .directive (skipSpaces (c :: r ++ w)))
        (uri .directive (skipSpaces (c :: r ++ w'))) :=
      h.carries_skipSpaces (c :: r) (h.uri_fault .directive) fun s behind _ =>
        (h.carries_uri .directive s).mono fun _ _ kept => kept.mono (behind.trans suffix)
    refine named.bind_read fun start s suffix => ?_
    exact .guard (fun free => by rwa [h.atGap_eq]) fun _ => .ok (.refl suffix)

end Fork

/-- Directives in the two texts. -/
structure SameDirective (v post w w' : Text) (a b : DirectiveLine) : Prop where
  directive : b.directive = a.directive
  left : ∃ s, s <:+ v ∧ a.stop = s ++ w ∧ b.stop = s ++ w' ∧ Left s w w' (nextLine post) a.rest b.rest

namespace Fork

variable (h : Fork u post w w')
include h

theorem carries_directive {v : Text} (inside : v <:+ u) :
    Carries (SameDirective v post w w') (directive (v ++ w)) (directive (v ++ w')) := by
  obtain ⟨old, new⟩ := h.still_name
  have ended (d : Directive) {s a b : Text} (suffix : s <:+ v) (left : Left s w w' post a b) :
      Carries (SameDirective v post w w')
        (if !atLineEnd (skipComment a) then
          throw (ScanFault.directiveEnd (skipComment a).head?, skipComment a) >>= fun _ : PUnit =>
            pure (⟨d, s ++ w, nextLine (skipComment a)⟩ : DirectiveLine)
        else pure ⟨d, s ++ w, nextLine (skipComment a)⟩ : Answer DirectiveLine)
        (if !atLineEnd (skipComment b) then
          throw (ScanFault.directiveEnd (skipComment b).head?, skipComment b) >>= fun _ : PUnit =>
            pure (⟨d, s ++ w', nextLine (skipComment b)⟩ : DirectiveLine)
        else pure ⟨d, s ++ w', nextLine (skipComment b)⟩ : Answer DirectiveLine) := by
    obtain ⟨same, next⟩ := h.left_nextLine (suffix.trans inside) left
    refine .guard (f := fun _ => pure _) (g := fun _ => pure _) (fun free => by rwa [same])
      fun ends => .ok ⟨rfl, s, suffix, rfl, rfl, next (by simpa using ends)⟩
  unfold directive
  dsimp only
  rw [takeWhile_append_still old, takeWhile_append_still new, dropWhile_append_still old,
    dropWhile_append_still new, h.atGap_eq]
  have suffix := List.dropWhile_suffix (l := v) isNameChar
  generalize v.takeWhile isNameChar = name
  generalize v.dropWhile isNameChar = rest at suffix ⊢
  refine .guard id fun _ => .guard id fun _ => ?_
  by_cases yaml : name = "YAML".toList
  · simp only [yaml, if_true, true_or]
    refine (h.carries_version rest).bind_read fun d s behind => ?_
    exact ended d (behind.trans suffix) (.inl ⟨s, List.suffix_refl s, rfl, rfl⟩)
  · by_cases tag : name = "TAG".toList
    · simp only [tag, if_true, or_true]
      refine (h.carries_handleRule rest).bind_read fun d s behind => ?_
      exact ended d (behind.trans suffix) (.inl ⟨s, List.suffix_refl s, rfl, rfl⟩)
    · simp only [yaml, tag, if_false, or_self]
      exact ended (.reserved name) suffix (h.left_skipLine (List.suffix_refl rest))

end Fork

end YamlEdit.Scan
