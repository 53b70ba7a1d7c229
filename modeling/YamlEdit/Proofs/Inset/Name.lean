import YamlEdit.Proofs.Agreement
import YamlEdit.Proofs.Inset.Text
import YamlEdit.Token.Name

/-!
# Names in a moved text

The names of anchors, aliases and tags end with their line at the latest, so what is read of them is
the same in a moved text, and what is left is moved.
-/

namespace YamlEdit.Scan

variable {d : Nat} {s t : Text} {α : Type}

/-- What is read in a text and in the moved text: the same, and what is left is moved. -/
structure Moved (d : Nat) (s : Text) (a b : α × Text) : Prop where
  same : b.1 = a.1
  rest : b.2 = inset d a.2
  suffix : a.2 <:+ s

/-- A reader fails in a text and in the moved text, or it answers in both. -/
abbrev Moves (d : Nat) (s : Text) (x y : Answer (α × Text)) : Prop :=
  Agree (Moved d s) x y

theorem Moved.refl {α : Type} {a : α} (suffix : t <:+ s) : Moved d s (a, t) (a, inset d t) :=
  ⟨rfl, rfl, suffix⟩

theorem Moved.mono {a b : α × Text} (h : Moved d t a b) (inner : t <:+ s) : Moved d s a b :=
  { h with suffix := h.suffix.trans inner }

/-- What comes behind a reader agrees if it does from what the reader leaves on. -/
theorem Moves.bind {β : Type} {x y : Answer (α × Text)} {f g : α × Text → Answer β}
    {R : β → β → Prop} (h : Moves d s x y)
    (next : ∀ a t, t <:+ s → Agree R (f (a, t)) (g (a, inset d t))) :
    Agree R (x >>= f) (y >>= g) := by
  refine AgreeBy.bind h ?_
  rintro ⟨a, t⟩ ⟨a', t'⟩ ⟨same, rest, suffix⟩
  dsimp only at same rest suffix
  subst same rest
  exact next _ t suffix

theorem Moves.mono {x y : Answer (α × Text)} (h : Moves d t x y) (inner : t <:+ s) :
    Moves d s x y := by
  cases x <;> cases y
  · trivial
  · cases h
  · cases h
  · exact Moved.mono h inner

theorem isNameChar_of_isBreak (c : Char) (stops : isBreak c = true) : isNameChar c = false := by
  simp only [isBreak, Bool.or_eq_true, beq_iff_eq] at stops
  rcases stops with (((rfl | rfl) | rfl) | rfl) | rfl <;> decide

theorem endsName_inset (d : Nat) (s : Text) : endsName (inset d s) = endsName s := by
  cases s with
  | nil => rfl
  | cons c r =>
    have head : atSpace (inset d (c :: r)) = atSpace (c :: r) := atSpace_inset d _
    rw [inset] at head ⊢
    rw [endsName, head, endsName]

theorem moves_anchorName (d : Nat) (of : ScanFault.Owner) (s : Text) :
    Moves d s (anchorName of s) (anchorName of (inset d s)) := by
  unfold anchorName
  dsimp only
  rw [takeWhile_inset isNameChar_of_isBreak, dropWhile_inset isNameChar_of_isBreak, endsName_inset]
  split
  · trivial
  · split
    · exact .refl (List.dropWhile_suffix _)
    · trivial

/-! ## Tags -/

theorem hexValue?_of_isBreak {c : Char} (stops : isBreak c = true) : hexValue? c = none := by
  simp only [isBreak, Bool.or_eq_true, beq_iff_eq] at stops
  rcases stops with (((rfl | rfl) | rfl) | rfl) | rfl <;> decide

theorem isBreak_of_hexValue? {c : Char} {n : Nat} (h : hexValue? c = some n) : isBreak c = false := by
  cases stops : isBreak c with
  | false => rfl
  | true =>
    rw [hexValue?_of_isBreak stops] at h
    cases h

/-- Without a percent sign there is no escape. -/
theorem escapedBytes_of_head (of : ScanFault.Owner) (h : s.head? ≠ some '%') :
    escapedBytes of s = .ok ([], s) := by
  unfold escapedBytes
  split
  · rfl
  · next c => simp_all
  · next c a => simp_all
  · next c a b r => simp_all

/-- A percent sign without two digits behind it is a fault. -/
theorem escapedBytes_fault (of : ScanFault.Owner) {a b : Char} {r : Text}
    (h : hexValue? a = none ∨ hexValue? b = none) :
    ∃ e, escapedBytes of ('%' :: a :: b :: r) = .error e := by
  refine ⟨(.uriEscape of (firstNoHex [a, b]), a :: b :: r), ?_⟩
  rcases h with h | h
  · simp [escapedBytes, h]
  · cases ha : hexValue? a with
    | none => simp [escapedBytes, ha]
    | some x => simp [escapedBytes, ha, h]

theorem Moves.of_errors {x y : Answer (α × Text)} (hx : ∃ e, x = .error e) (hy : ∃ e, y = .error e) :
    Moves d s x y := by
  obtain ⟨e, rfl⟩ := hx
  obtain ⟨e', rfl⟩ := hy
  trivial

theorem exists_inset_cons (d : Nat) (b : Char) (r : Text) : ∃ t, inset d (b :: r) = b :: t :=
  ⟨_, rfl⟩

theorem exists_inset_cons_cons (d : Nat) (a b : Char) (r : Text) :
    ∃ x t, inset d (a :: b :: r) = a :: x :: t := by
  cases stops : isBreak a with
  | false => exact ⟨b, _, inset_inside stops⟩
  | true =>
    rw [inset_break stops]
    cases line : insetLine d (b :: r) with
    | nil => simp [insetLine, inset] at line
    | cons x t => exact ⟨x, t, rfl⟩

/-- The escapes behind a percent sign. -/
theorem moves_escapes (d : Nat) (of : ScanFault.Owner) (t : Text) :
    Moves d t (escapedBytes of ('%' :: t)) (escapedBytes of ('%' :: inset d t)) := by
  induction size : t.length using Nat.strongRecOn generalizing t with
  | ind n ih =>
    match t, size with
    | [], _ => exact .of_errors ⟨_, rfl⟩ ⟨_, rfl⟩
    | [a], _ =>
      have one : inset d [a] = [a] := by
        rw [inset]
        split <;> rfl
      rw [one]
      exact .of_errors ⟨_, rfl⟩ ⟨_, rfl⟩
    | a :: b :: r, size =>
      cases ha : hexValue? a with
      | none =>
        obtain ⟨x, t, more⟩ := exists_inset_cons_cons d a b r
        rw [more]
        exact .of_errors (escapedBytes_fault of (.inl ha)) (escapedBytes_fault of (.inl ha))
      | some x =>
        rw [inset_inside (isBreak_of_hexValue? ha)]
        cases hb : hexValue? b with
        | none =>
          obtain ⟨t, more⟩ := exists_inset_cons d b r
          rw [more]
          exact .of_errors (escapedBytes_fault of (.inr hb)) (escapedBytes_fault of (.inr hb))
        | some y =>
          rw [inset_inside (isBreak_of_hexValue? hb)]
          have inner : Moves d r (escapedBytes of r) (escapedBytes of (inset d r)) := by
            by_cases escape : r.head? = some '%'
            · obtain ⟨u, rfl⟩ := List.head?_eq_some_iff.mp escape
              rw [inset_inside rfl]
              refine (ih u.length ?_ u rfl).mono (List.suffix_cons _ _)
              simp only [List.length_cons] at size
              omega
            · rw [escapedBytes_of_head of escape, escapedBytes_of_head of (by rwa [head?_inset])]
              exact Moved.refl (List.suffix_refl r)
          have step (u : Text) : escapedBytes of ('%' :: a :: b :: u) =
              (escapedBytes of u).map fun p => (UInt8.ofNat (x * 16 + y) :: p.1, p.2) := by
            rw [escapedBytes]
            simp only [beq_self_eq_true, if_true, ha, hb]
            cases escapedBytes of u <;> rfl
          rw [step, step]
          refine inner.map fun p q same => ?_
          refine ⟨congrArg (UInt8.ofNat (x * 16 + y) :: ·) same.same, same.rest, ?_⟩
          exact same.suffix.trans (List.suffix_append [a, b] r)

theorem isUriChar_of_isBreak {c : Char} (stops : isBreak c = true) : isUriChar c = false := by
  simp only [isBreak, Bool.or_eq_true, beq_iff_eq] at stops
  rcases stops with (((rfl | rfl) | rfl) | rfl) | rfl <;> decide

/-- At a character that no tag has the tag ends. -/
theorem uriChars_stop (of : ScanFault.Owner) (n : Nat) {c : Char} (percent : (c == '%') = false)
    (other : isUriChar c = false) (r : Text) : uriChars of n (c :: r) = .ok ([], c :: r) := by
  cases n with
  | zero => rfl
  | succ n => simp [uriChars, beq_eq_false_iff_ne.mp percent, other]

/-- The characters of a tag, in any bounds that do not show. -/
theorem moves_uriChars (d : Nat) (of : ScanFault.Owner) {m n : Nat} {s : Text} (hm : s.length < m)
    (hn : (inset d s).length < n) : Moves d s (uriChars of m s) (uriChars of n (inset d s)) := by
  induction m generalizing n s with
  | zero => omega
  | succ m ih =>
    cases n with
    | zero => omega
    | succ n =>
      cases s with
      | nil => exact Moved.refl (List.suffix_refl _)
      | cons c r =>
        have inner {t : Text} (suffix : t <:+ r) : t.length < m := by
          have := suffix.length_le
          rw [List.length_cons] at hm
          omega
        have inner' {t : Text} (suffix : t <:+ r) : (inset d t).length < n := by
          have := (inset_suffix (d := d) suffix).length_le
          rw [inset, List.length_cons, List.length_append] at hn
          omega
        cases percent : c == '%' with
        | true =>
          rw [beq_iff_eq] at percent
          subst percent
          rw [inset_inside rfl, uriChars, uriChars]
          simp only [beq_self_eq_true, if_true]
          refine (moves_escapes d of r).bind fun bytes t suffix => ?_
          dsimp only
          cases Utf8.decode bytes with
          | error fault => trivial
          | ok text =>
            refine (ih (inner suffix) (inner' suffix)).bind fun more u behind => ?_
            exact Moved.refl (behind.trans (suffix.trans (List.suffix_cons _ _)))
        | false =>
          cases uri : isUriChar c with
          | false =>
            rw [uriChars_stop of _ percent uri, inset, uriChars_stop of _ percent uri]
            exact Moved.refl (List.suffix_refl _)
          | true =>
            have inside : isBreak c = false := by
              rw [← Bool.not_eq_true]
              intro stops
              rw [isUriChar_of_isBreak stops] at uri
              cases uri
            rw [inset_inside inside, uriChars, uriChars]
            simp only [percent, uri, Bool.false_eq_true, if_false, if_true]
            refine (ih (inner (List.suffix_refl r)) (inner' (List.suffix_refl r))).bind
              fun more u behind => ?_
            exact Moved.refl (behind.trans (List.suffix_cons _ _))

theorem moves_uri (d : Nat) (of : ScanFault.Owner) (s : Text) :
    Moves d s (uri of s) (uri of (inset d s)) := by
  cases s with
  | nil => trivial
  | cons c r =>
    have chars := moves_uriChars d of (Nat.lt_succ_self (c :: r).length)
      (Nat.lt_succ_self (inset d (c :: r)).length)
    rw [uri]
    rw [inset] at chars ⊢
    rw [uri]
    split
    · exact chars
    · trivial

/-- Behind its exclamation mark a handle has a gap or a name that a second one ends. -/
theorem handle_of_head (of : ScanFault.Owner) (h : s.head? ≠ some ' ') :
    handle of ('!' :: s) =
      match s.dropWhile isNameChar with
      | '!' :: rest => .ok ('!' :: s.takeWhile isNameChar ++ ['!'], rest)
      | rest => .error (.handle of rest.head?, rest) := by
  unfold handle
  split
  · next r same =>
    rw [(List.cons.inj same).2] at h
    exact absurd rfl h
  · next r _ same =>
    obtain ⟨-, rfl⟩ := List.cons.inj same
    rfl
  · next other => exact absurd rfl (other s)

/-- A handle, behind its exclamation mark. -/
theorem moves_handle (d : Nat) (of : ScanFault.Owner) (s : Text) :
    Moves d s (handle of ('!' :: s)) (handle of ('!' :: inset d s)) := by
  by_cases gap : s.head? = some ' '
  · obtain ⟨r, rfl⟩ := List.head?_eq_some_iff.mp gap
    have answer (t : Text) : handle of ('!' :: ' ' :: t) = .ok (['!'], ' ' :: t) := rfl
    rw [inset_inside rfl, answer, answer, ← inset_inside rfl]
    exact Moved.refl (List.suffix_refl _)
  · rw [handle_of_head of gap, handle_of_head of (by rwa [head?_inset]),
      takeWhile_inset isNameChar_of_isBreak, dropWhile_inset isNameChar_of_isBreak]
    have suffix := List.dropWhile_suffix (l := s) isNameChar
    cases left : s.dropWhile isNameChar with
    | nil => trivial
    | cons c r =>
      rw [left] at suffix
      by_cases mark : c = '!'
      · subst mark
        rw [inset_inside rfl]
        exact Moved.refl ((List.suffix_cons _ _).trans suffix)
      · rw [inset]
        split
        · next same => exact absurd (List.cons.inj same).1 mark
        · split
          · next same => exact absurd (List.cons.inj same).1 mark
          · trivial

theorem hasHandle_inset (d : Nat) (s : Text) : hasHandle (inset d s) = hasHandle s := by
  rw [hasHandle, takeWhile_inset (fun c stops => by simp [stops]), hasHandle]

/-- What follows a handle in a tag. -/
theorem moves_uri_of (d : Nat) {s t : Text} (suffix : t <:+ s) (handle : Text) :
    Moves d s (do let (name, rest) ← uri .tag t; return ((some handle, name), rest))
      (do let (name, rest) ← uri .tag (inset d t); return ((some handle, name), rest)) :=
  (moves_uri d .tag t).bind fun _ _ behind => Moved.refl (behind.trans suffix)

/-- A tag that does not start with an angle bracket. -/
theorem tagName_of_head (h : s.head? ≠ some '<') :
    tagName s = (do
      if atSpace s then return ((none, ['!']), s)
      let (handle, s) ← if hasHandle s then handle .tag ('!' :: s) else pure (['!'], s)
      let (name, rest) ← uri .tag s
      return ((some handle, name), rest)) := by
  unfold tagName
  split
  · exact absurd rfl h
  · rfl

theorem moves_tagName (d : Nat) (s : Text) : Moves d s (tagName s) (tagName (inset d s)) := by
  by_cases bracket : s.head? = some '<'
  · obtain ⟨r, rfl⟩ := List.head?_eq_some_iff.mp bracket
    rw [inset_inside rfl, tagName, tagName]
    refine (moves_uri d .tag r).bind fun name t suffix => ?_
    dsimp only
    cases t with
    | nil => trivial
    | cons c u =>
      by_cases close : c = '>'
      · subst close
        rw [inset_inside rfl]
        exact Moved.refl ((List.suffix_cons _ _).trans (suffix.trans (List.suffix_cons _ _)))
      · rw [inset]
        split
        · next same => exact absurd (List.cons.inj same).1 close
        · split
          · next same => exact absurd (List.cons.inj same).1 close
          · trivial
  · rw [tagName_of_head bracket, tagName_of_head (by rwa [head?_inset]), atSpace_inset,
      hasHandle_inset]
    split
    · exact Moved.refl (List.suffix_refl s)
    · dsimp only
      split
      · exact Moves.bind (moves_handle d .tag s) fun handle t suffix => moves_uri_of d suffix handle
      · exact moves_uri_of d (List.suffix_refl s) ['!']

theorem moves_tag (d : Nat) (s : Text) : Moves d s (tag s) (tag (inset d s)) := by
  rw [tag, tag]
  refine (moves_tagName d s).bind fun name t suffix => ?_
  dsimp only
  rw [atGap_inset]
  exact AgreeBy.guard (Moved.refl suffix) trivial

end YamlEdit.Scan
