import YamlEdit.Proofs.Document.Stages
import YamlEdit.Proofs.Fragment
import YamlEdit.Proofs.Load.Alike
import YamlEdit.Proofs.Tree.Rootless

/-!
# What an assigned text loads as

An assignment checks the patched text before it takes blanks off the ends of lines, so the check
does not see what that does to a block scalar. Every other way to a text is safe: a text that stays,
a value written out anew, and a value below the comments of a text that had none.
-/

namespace YamlEdit

/-! ## Characters that can be read -/

theorem readable_iff {s : Text} : firstUnreadable? s = none ↔ ∀ c ∈ s, isReadable c = true := by
  simp only [firstUnreadable?, Option.map_eq_none_iff, List.find?_eq_none]
  constructor
  · intro h c hc
    obtain ⟨i, hi, rfl⟩ := List.getElem_of_mem hc
    have := h (s[i], i) (by simp [List.mem_zipIdx_iff_getElem?])
    simpa using this
  · rintro h ⟨c, i⟩ hc
    have := h c (List.fst_mem_of_mem_zipIdx hc)
    simpa using this

theorem readable_of_loadValue {s : Text} {v : Value} (h : loadValue s = .ok v) :
    firstUnreadable? s = none := by
  obtain ⟨loaded, h, -⟩ := bind_eq_ok.mp h
  obtain ⟨graph, h, -⟩ := bind_eq_ok.mp h
  rw [Graph.compose] at h
  split at h
  · cases h
  · next hs => exact hs

/-! ## A value below comments -/

namespace Document

open Noted

variable {d d' : Document} {v : Value} {s t : List Notice}

/-- The comments that a first value is written below. -/
def heading (d : Document) : Text :=
  if Text.isBlankText d.text then []
  else if d.text.getLast?.any Text.isBreak then d.text else d.text ++ d.lineBreak.text

theorem freshText_cases {text : Text} (h : Gives (d.freshText v) s text t) :
    ∃ f, v.dump d.layout = .ok f ∧ text = d.heading ++ (f ++ d.lineBreak.text) := by
  rw [freshText] at h
  obtain ⟨_, _, -, h⟩ := gives_bind.mp h
  obtain ⟨_, _, -, h⟩ := gives_bind.mp h
  obtain ⟨f, u, dumped, h⟩ := gives_bind.mp h
  refine ⟨f, (gives_dump.mp dumped).1, ?_⟩
  rw [heading]
  dsimp only at h
  split at h
  · next blank =>
    rw [← (gives_pure.mp h).1, if_pos blank]
    rfl
  · next blank =>
    rw [← (gives_pure.mp h).1, if_neg blank, List.append_assoc]

example : Document.heading { text := "# a".toList } = "# a\n".toList := by decide +kernel

/-- Lines with a line break behind the last one, if it has none of its own. -/
theorem ended_lines (b : LineBreak) (r : Text) :
    ∃ u c, (if r.getLast?.any Text.isBreak then r else r ++ b.text) = u ++ [c] ∧
      Text.isBreak c = true := by
  split
  · next ended =>
    cases hl : r.getLast? with
    | none => simp [hl] at ended
    | some c =>
      obtain ⟨u, rfl⟩ := List.getLast?_eq_some_iff.mp hl
      exact ⟨u, c, rfl, by simpa using ended⟩
  · obtain ⟨c, hc, stops⟩ := Margin.getLast?_text b r
    obtain ⟨u, hu⟩ := List.getLast?_eq_some_iff.mp hc
    exact ⟨u, c, hu, stops⟩

/-- What is left of the comments above a value. -/
theorem heading_margin {tree : Tree} (composed : Tree.compose d.text = .ok tree)
    (rootless : tree.root? = none) (below : Text) :
    ∃ m, Margin m ∧ TokenFeed.Marked (m ++ withoutTrailingBlanks below)
      (withoutTrailingBlanks (d.heading ++ below)) := by
  obtain ⟨r, marked, lines⟩ := Tree.isMarginFrom_of_rootless composed rootless
  rw [heading]
  split
  · exact ⟨[], .nil, .inl rfl⟩
  · have margin := Margin.of_isMarginFrom lines d.lineBreak
    obtain ⟨u, c, ended, stops⟩ := ended_lines d.lineBreak r
    rw [ended] at margin
    have stripped : withoutTrailingBlanks (u ++ [c] ++ below) =
        withoutTrailingBlanks (u ++ [c]) ++ withoutTrailingBlanks below := by
      rw [List.append_assoc]
      exact stripFrom_append stops [] u below
    refine ⟨_, margin.withoutTrailingBlanks (by simpa using stops), ?_⟩
    rw [← stripped]
    rcases marked with same | same
    · rw [same, ended]
      exact .inl rfl
    · have last : ('\uFEFF' :: r).getLast?.any Text.isBreak = r.getLast?.any Text.isBreak := by
        cases r with
        | nil => rfl
        | cons c r => rw [List.getLast?_cons_cons]
      have whole : (if d.text.getLast?.any Text.isBreak then d.text
          else d.text ++ d.lineBreak.text) = '\uFEFF' :: (u ++ [c]) := by
        rw [same, last, ← ended]
        split <;> rfl
      rw [whole]
      exact .inr rfl

/-- A value below comments loads as the value alone does. -/
theorem loads_freshText {tree : Tree} {text : Text} (reads : d.ReadsBack v)
    (readable : firstUnreadable? d.text = none) (composed : Tree.compose d.text = .ok tree)
    (rootless : tree.root? = none) (h : Gives (d.freshText v) s text t) :
    Loads (withoutTrailingBlanks text) v := by
  obtain ⟨f, dumped, rfl⟩ := freshText_cases h
  obtain ⟨f', dumped', w, loaded, same⟩ := reads
  rw [dumped] at dumped'
  cases dumped'
  have clean := Value.clean_dump (b := d.lineBreak) dumped
  obtain ⟨m, margin, marked⟩ := heading_margin composed rootless (f ++ d.lineBreak.text)
  rw [clean.tidy.withoutTrailingBlanks] at marked
  have apart : (f ++ d.lineBreak.text).head? ≠ some '\n' := by
    obtain ⟨c, r, hs, inside⟩ := clean.first
    rw [hs, List.head?_cons]
    rintro ⟨⟩
    cases inside
  obtain ⟨kinds, fault⟩ := TokenFeed.ofText_append marked margin apart clean.unmarked
  have readable' := readable_of_loadValue loaded
  have readableAll : firstUnreadable? (withoutTrailingBlanks
      (d.heading ++ (f ++ d.lineBreak.text))) = none := by
    rw [readable_iff] at readable readable' ⊢
    intro c hc
    rcases List.mem_append.mp ((mem_of_mem_stripFrom hc).resolve_left (List.not_mem_nil)) with hc | hc
    · rw [heading] at hc
      split at hc
      · cases hc
      · split at hc
        · exact readable c hc
        · rcases List.mem_append.mp hc with hc | hc
          · exact readable c hc
          · exact readable' c (List.mem_append_right f hc)
    · exact readable' c hc
  have agree := agree_loadValue readable' readableAll kinds.symm fault.symm
  obtain ⟨w', loaded', rfl⟩ := agree.ok loaded
  exact ⟨w, loaded', same⟩

/-! ## The round trip -/

/-- The text that patching gives for a value, before it is checked; none if there is nothing to
patch, or no way to. -/
def candidate? (d : Document) (v : Value) (notes : List Notice) : Option Text :=
  match d.value, Tree.compose d.text with
  | .ok current, .ok tree =>
    match tree.root? with
    | some root =>
      if Value.equal current v then none
      else ((d.uncheckedText tree root current v).run.run notes).1.toOption
    | none => none
  | _, _ => none

theorem candidate?_of_equal {current : Value} (loaded : d.value = .ok current)
    (same : Value.equal current v = true) : d.candidate? v s = none := by
  rw [candidate?]
  rw [loaded]
  cases Tree.compose d.text with
  | error e => rfl
  | ok tree =>
    dsimp only
    cases tree.root? with
    | none => rfl
    | some root => exact if_pos same

theorem candidate?_of_rootless {tree : Tree} (composed : Tree.compose d.text = .ok tree)
    (rootless : tree.root? = none) : d.candidate? v s = none := by
  rw [candidate?]
  rw [composed]
  cases d.value with
  | error e => rfl
  | ok current =>
    dsimp only
    rw [rootless]

theorem candidate?_eq {current : Value} {tree : Tree} {root : Node} {text : Text}
    (loaded : d.value = .ok current) (other : Value.equal current v = false)
    (composed : Tree.compose d.text = .ok tree) (rooted : tree.root? = some root)
    (drafted : Gives (d.uncheckedText tree root current v) s text t) :
    d.candidate? v s = some text := by
  simp only [candidate?, loaded, composed, rooted, other, Bool.false_eq_true, if_false]
  rw [drafted]
  rfl

/-- The run that a text before the check comes from. -/
theorem gives_of_candidate? {text : Text} (h : d.candidate? v s = some text) :
    ∃ old tree root t, d.value = .ok old ∧ Tree.compose d.text = .ok tree ∧
      tree.root? = some root ∧ Gives (d.uncheckedText tree root old v) s text t := by
  rw [candidate?] at h
  split at h
  · next old tree loaded composed =>
    split at h
    · next root rooted =>
      split at h
      · cases h
      · rcases ran : (d.uncheckedText tree root old v).run.run s with ⟨e | text', t⟩
        · rw [ran] at h
          cases h
        · rw [ran] at h
          cases h
          exact ⟨old, tree, root, t, loaded, composed, rooted, ran⟩
    · cases h
  · cases h

/-- An assigned text loads as its value exactly if a patched text that does still does so without
the blanks at the ends of its lines. -/
theorem loads_assign_iff (accepted : v.tag?.isSome = true) (reads : d.ReadsBack v)
    (assigned : Gives (d.assign v) s d' t) :
    Loads d'.text v ↔
      ∀ text ∈ d.candidate? v s, Loads text v → Loads (withoutTrailingBlanks text) v := by
  cases course accepted assigned with
  | keeps loaded same equal _ =>
    rw [equal]
    rw [candidate?_of_equal loaded same]
    constructor
    · intro _ text drafted
      cases drafted
    · intro _
      exact ⟨_, loaded, same⟩
  | fills loaded other composed rootless written equal =>
    subst equal
    rw [candidate?_of_rootless composed rootless]
    constructor
    · intro _ text drafted
      cases drafted
    · intro _
      exact loads_freshText reads (readable_of_loadValue loaded) composed rootless written
  | patches loaded other composed rooted drafted checked equal =>
    subst equal
    rw [candidate?_eq loaded other composed rooted drafted]
    rcases checked_cases checked with ⟨rfl, -, loads⟩ | ⟨fails, -, f, dumped, rfl⟩
    · simp [loads]
    · obtain ⟨f', dumped', anew⟩ := reads
      rw [dumped] at dumped'
      cases dumped'
      have tidy := (Value.clean_dump (b := d.lineBreak) dumped).tidy
      rw [tidy.withoutTrailingBlanks]
      simp [fails, anew]

/-! ## A block scalar with blanks at the end of a line -/

/-- A literal scalar whose line ends with blanks. -/
def blanksInLiteral : Document :=
  { text := "a: |\n  foo  \nb: 1\n".toList }

/-- The value of `blanksInLiteral` with another number. -/
def blanksKept : Value :=
  .dict none [(.str "a".toList, .str "foo  \n".toList), (.str "b".toList, .int 2)]

theorem readsBack_blanksKept : blanksInLiteral.ReadsBack blanksKept := by
  refine readsBack_of_check ?_
  decide +kernel

theorem assigned_blanksKept :
    blanksInLiteral.assigned? blanksKept [] = some "a: |\n  foo\nb: 2\n".toList := by
  decide +kernel

/-- The blanks are taken off the scalar, which then loads as another string. -/
theorem not_loads_assign_blanksKept :
    blanksKept.tag?.isSome = true ∧ blanksInLiteral.ReadsBack blanksKept ∧
      ∃ d' t, Gives (blanksInLiteral.assign blanksKept) [] d' t ∧ ¬ Loads d'.text blanksKept := by
  obtain ⟨d', t, gives, text, -⟩ := gives_of_assigned? assigned_blanksKept
  refine ⟨rfl, readsBack_blanksKept, d', t, gives, ?_⟩
  rw [text, loads_iff_check]
  decide +kernel

theorem loads_assign_iff_blanksKept :
    ∃ d' t, Gives (blanksInLiteral.assign blanksKept) [] d' t ∧
      (Loads d'.text blanksKept ↔ ∀ text ∈ blanksInLiteral.candidate? blanksKept [],
        Loads text blanksKept → Loads (withoutTrailingBlanks text) blanksKept) := by
  obtain ⟨d', t, gives, -⟩ := gives_of_assigned? assigned_blanksKept
  exact ⟨d', t, gives, loads_assign_iff rfl readsBack_blanksKept gives⟩

end Document

end YamlEdit
