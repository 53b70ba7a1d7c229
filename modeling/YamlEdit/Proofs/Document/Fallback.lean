import YamlEdit.Proofs.Document.RoundTrip
import YamlEdit.Proofs.Patch.Follows

/-!
# When an assignment falls back

An assignment warns of one thing only: a patched text that does not load as the value, which is then
written out anew. Patching and settling report what they do, but never warn. So there is a warning
exactly if the changes alone did not lead to the value.
-/

namespace YamlEdit

/-- The warnings among notices. -/
def warnings (notes : List Notice) : List Notice :=
  notes.filter fun n => n.level = .warning

theorem warnings_cons_debug {n : Notice} (notes : List Notice) (debug : n.level = .debug) :
    warnings (n :: notes) = warnings notes := by
  rw [warnings, List.filter_cons_of_neg (by simp [debug])]
  rfl

theorem warnings_cons_warning {n : Notice} (notes : List Notice) (warns : n.level = .warning) :
    warnings (n :: notes) = n :: warnings notes := by
  rw [warnings, List.filter_cons_of_pos (by simp [warns])]
  rfl

/-! ## Patches and settling -/

/-- Sessions with the same warnings. -/
def Patch.SameWarnings (s t : Session) : Prop :=
  warnings t.notices = warnings s.notices

theorem Patch.tolerant_warnings : Tolerant SameWarnings Anywhere AnyLetter where
  refl := fun _ => rfl
  trans := fun _ _ _ first second => second.trans first
  note := fun s _ debug => warnings_cons_debug s.notices debug
  splice := fun _ _ _ _ _ _ => rfl

theorem Patch.Tolerant.rootChanges {R : Session → Session → Prop} {letter : Char → Prop}
    (h : Patch.Tolerant R Patch.Anywhere letter) {ed : Editing} (w : Patch.Writes ed letter)
    {root : Node} (named : Patch.Anchored letter root) (tag : Tag) (old new : Value) :
    Patch.Follows R (Document.rootChanges ed root tag old new) := by
  refine Patch.Tolerant.ite ?_ (Patch.Tolerant.ite ?_ ?_)
  · refine h.bind (h.report rfl) fun _ => Patch.Tolerant.ite ?_ ?_
    · exact h.replaceBlock ed w named trivial new
    · exact h.replacePrimitive ed w named trivial new
  · exact h.bind (h.report rfl) fun _ => h.replacePrimitive ed w named trivial new
  · refine h.bind (h.report rfl) fun _ => ?_
    exact h.patchNode ed w (Patch.allowsWithin_all ed) named trivial old new

namespace Document

variable {d d' : Document} {v : Value} {s t : List Notice}

theorem warnings_patch {ed : Editing} {changes : Patch Unit} {draft : Draft}
    (follows : Patch.Follows Patch.SameWarnings changes)
    (h : Gives (Noted.patch ed changes) s draft t) : warnings t = warnings s := by
  obtain ⟨session, ran, -, rfl⟩ := Noted.gives_patch.mp h
  exact follows.gives ran

theorem warnings_settleRounds {layout : Layout} {rounds : Nat} {text out : Text}
    (h : Gives (settleRounds v layout rounds text) s out t) : warnings t = warnings s := by
  induction rounds generalizing text s with
  | zero =>
    obtain ⟨-, rfl⟩ := gives_pure.mp h
    rfl
  | succ rounds ih =>
    rw [settleRounds] at h
    split at h
    · exact absurd h not_gives_throw
    · obtain ⟨draft, u, got, h⟩ := gives_bind.mp h
      have round :=
        warnings_patch (Patch.tolerant_warnings.settleRound _ (Patch.writes_any _) v) got
      split at h
      · obtain ⟨-, rfl⟩ := gives_pure.mp h
        exact round
      · exact (ih h).trans round

/-- What comes before the check warns of nothing. -/
theorem warnings_uncheckedText {tree : Tree} {root : Node} {old : Value} {text : Text}
    (h : Gives (d.uncheckedText tree root old v) s text t) : warnings t = warnings s := by
  rw [uncheckedText] at h
  obtain ⟨tag, _, got, h⟩ := gives_bind.mp h
  obtain ⟨-, rfl⟩ := gives_tagOf.mp got
  obtain ⟨draft, u, got, h⟩ := gives_bind.mp h
  have patched := warnings_patch (Patch.tolerant_warnings.rootChanges (Patch.writes_any _)
    (Patch.anchored_any root) tag old v) got
  obtain ⟨_, w, got, h⟩ := gives_bind.mp h
  have noted : warnings w = warnings u := by
    rw [← Noted.gives_note.mp got]
    exact warnings_cons_debug u rfl
  split at h
  · exact (warnings_settleRounds h).trans (noted.trans patched)
  · obtain ⟨-, rfl⟩ := gives_pure.mp h
    exact noted.trans patched

theorem warnings_freshText {text : Text} (h : Gives (d.freshText v) s text t) :
    warnings t = warnings s := by
  rw [freshText] at h
  obtain ⟨_, u, got, h⟩ := gives_bind.mp h
  have noted : warnings u = warnings s := by
    rw [← Noted.gives_note.mp got]
    exact warnings_cons_debug s rfl
  obtain ⟨tag, _, got, h⟩ := gives_bind.mp h
  obtain ⟨-, rfl⟩ := gives_tagOf.mp got
  obtain ⟨f, _, got, h⟩ := gives_bind.mp h
  obtain ⟨-, rfl⟩ := gives_dump.mp got
  dsimp only at h
  split at h
  · obtain ⟨-, rfl⟩ := gives_pure.mp h
    exact noted
  · obtain ⟨-, rfl⟩ := gives_pure.mp h
    exact noted

/-- What an assignment commits of a text that its changes led to: the text itself, less the blanks
at the ends of its lines, if that text loads as the value, and else the value's own text. -/
theorem patches_or_rewrites (accepted : v.tag?.isSome = true)
    (assigned : Gives (d.assign v) s d' t) {text : Text} (changed : text ∈ d.candidate? v s) :
    (Loads text v ∧ d'.text = withoutTrailingBlanks text ∧ warnings t = warnings s) ∨
      (¬ Loads text v ∧ (∃ f, v.dump d.layout = .ok f ∧ d'.text = f ++ d.lineBreak.text) ∧
        ∃ n : Notice, warnings t = n :: warnings s) := by
  cases course accepted assigned with
  | keeps loaded same _ _ =>
    rw [candidate?_of_equal loaded same] at changed
    cases changed
  | fills _ _ composed rootless _ _ =>
    rw [candidate?_of_rootless composed rootless] at changed
    cases changed
  | patches loaded other composed rooted drafted checked equal =>
    rw [candidate?_eq loaded other composed rooted drafted] at changed
    cases changed
    subst equal
    rw [← warnings_uncheckedText drafted]
    rcases checked_cases checked with ⟨rfl, rfl, loads⟩ | ⟨fails, ⟨n, warns, rfl⟩, f, dumped, rfl⟩
    · exact .inl ⟨loads, rfl, rfl⟩
    · have tidy := (Value.clean_dump (b := d.lineBreak) dumped).tidy
      exact .inr ⟨fails, ⟨f, dumped, tidy.withoutTrailingBlanks⟩, n, warnings_cons_warning _ warns⟩

/-- An assignment whose changes led to nothing warns of nothing. -/
theorem quiet_of_unchanged (accepted : v.tag?.isSome = true)
    (assigned : Gives (d.assign v) s d' t) (unchanged : d.candidate? v s = none) :
    warnings t = warnings s := by
  cases course accepted assigned with
  | keeps _ _ _ quiet => rw [quiet]
  | fills _ _ _ _ written _ => exact warnings_freshText written
  | patches loaded other composed rooted drafted _ _ =>
    rw [candidate?_eq loaded other composed rooted drafted] at unchanged
    cases unchanged

/-- A mapping in a mapping. -/
def nestedOld : Value :=
  .dict none [(.str "a".toList, .dict none [(.str "b".toList, .int 1), (.str "c".toList, .int 2)])]

/-- The text of `nestedOld`. -/
def nested : Document :=
  { text := "a:\n  b: 1\n  c: 2\n".toList }

/-- A value with another last key in the inner mapping, and one more behind it in the outer one. -/
def nestedNext : Value :=
  .dict none
    [(.str "a".toList, .dict none [(.str "b".toList, .int 1), (.str "e".toList, .int 4)]),
     (.str "d".toList, .int 3)]

theorem assigned_nested :
    nested.assigned? nestedNext [] = some "a:\n  b: 1\n  e: 4\nd: 3\n".toList := by
  decide +kernel

end Document

end YamlEdit
