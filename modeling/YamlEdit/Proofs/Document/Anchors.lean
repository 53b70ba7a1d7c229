import Mathlib.Data.List.Nodup
import YamlEdit.Proofs.Document.Fallback

/-!
# Anchors that are defined twice

Every fragment of new text is written on its own and numbers its anchors from one on, so two of them
in one text can define the same anchor. Such a text does not load: composing refuses the second
anchor, and nothing that comes before it can hide that. So the check of the patched text stops it,
and no text that is checked defines an anchor twice.
-/

namespace YamlEdit

/-- The anchors that events define, in their order. -/
def Event.anchors (events : List Event) : List Text :=
  events.filterMap fun e => e.kind.anchor?

theorem Event.anchors_cons (e : Event) (events : List Event) :
    anchors (e :: events) = e.kind.anchor?.toList ++ anchors events := by
  rw [anchors, anchors]
  cases defined : e.kind.anchor? with
  | none =>
    rw [List.filterMap_cons, defined]
    rfl
  | some name =>
    rw [List.filterMap_cons, defined]
    rfl

/-- The anchors that a text defines, as far as it has events. -/
def anchors (s : Text) : List Text :=
  Event.anchors (EventFeed.ofText s).items

example : anchors "[&a 1, &b [*a]]".toList = ["a".toList, "b".toList] := by decide +kernel

namespace Graph.Builder

/-- The names that a builder knows, last one first. -/
def names (b : Builder) : List Text :=
  b.anchors.map (·.1)

theorem names_lead (b : Builder) (vertex : Nat) : (b.lead vertex).names = b.names := by
  rw [lead]
  split <;> rfl

theorem names_add (b : Builder) (e : Event) (anchor : Option Text) (tag : Tag) (body : Vertex.Body) :
    (b.add e anchor tag body).names = anchor.toList ++ b.names := by
  have led := names_lead b b.vertices.size
  cases anchor with
  | none => exact led
  | some name => exact congrArg (name :: ·) led

theorem names_enter (b : Builder) (e : Event) (anchor : Option Text) (tag : Tag) (isMapping : Bool) :
    (b.enter e anchor tag isMapping).names = anchor.toList ++ b.names :=
  names_add b e anchor tag (if isMapping then .mapping [] else .sequence [])

theorem names_close (b : Builder) : b.close.names = b.names := by
  rw [close]
  split <;> rfl

/-- What is known of an anchor that is not refused: its name is new. -/
theorem fresh_of_checkAnchor {b : Builder} {e : Event} {u : Unit} (h : b.checkAnchor e = .ok u) :
    ∀ name ∈ e.kind.anchor?, name ∉ b.names := by
  intro name defined known
  rw [checkAnchor, defined] at h
  dsimp only at h
  obtain ⟨known, there, same⟩ := List.mem_map.mp known
  cases found : b.anchors.lookup name with
  | none => simpa [same] using List.lookup_eq_none_iff.mp found known there
  | some first =>
    rw [found] at h
    cases h

/-- An event that is taken defines at most one anchor, and a new one. -/
theorem names_step {b b' : Builder} {e : Event} (h : b.step e = .ok b') :
    b'.names = e.kind.anchor?.toList ++ b.names ∧ ∀ name ∈ e.kind.anchor?, name ∉ b.names := by
  rw [step] at h
  obtain ⟨_, checked, h⟩ := bind_eq_ok.mp h
  refine ⟨?_, fresh_of_checkAnchor checked⟩
  cases kind : e.kind with
  | documentStart =>
    rw [kind] at h
    obtain ⟨-, h⟩ := guard_eq_ok.mp h
    cases h
    rfl
  | aliasOf name =>
    rw [kind] at h
    dsimp only at h
    split at h
    · cases h
    · cases h
      exact names_lead ..
  | scalar anchor tag text quoting =>
    rw [kind] at h
    cases h
    exact names_add ..
  | sequenceStart anchor tag frame =>
    rw [kind] at h
    cases h
    exact names_enter ..
  | mappingStart anchor tag frame =>
    rw [kind] at h
    cases h
    exact names_enter ..
  | sequenceEnd =>
    rw [kind] at h
    cases h
    exact names_close b
  | mappingEnd =>
    rw [kind] at h
    cases h
    exact names_close b
  | streamStart | streamEnd | documentEnd =>
    rw [kind] at h
    cases h
    rfl

/-- The names behind events are those from before and the anchors of the events. -/
theorem names_steps {events : List Event} {b b' : Builder} (h : events.foldlM step b = .ok b')
    (apart : b.names.Nodup) :
    b'.names = (Event.anchors events).reverse ++ b.names ∧ b'.names.Nodup := by
  induction events generalizing b with
  | nil =>
    cases h
    exact ⟨rfl, apart⟩
  | cons e events ih =>
    rw [List.foldlM_cons] at h
    obtain ⟨c, first, h⟩ := bind_eq_ok.mp h
    obtain ⟨names, fresh⟩ := names_step first
    have next : c.names.Nodup := by
      rw [names]
      cases defined : e.kind.anchor? with
      | none => exact apart
      | some name => exact apart.cons (fresh name defined)
    obtain ⟨all, nodup⟩ := ih h next
    refine ⟨?_, nodup⟩
    rw [all, names, Event.anchors_cons, List.reverse_append, List.append_assoc]
    cases e.kind.anchor? <;> rfl

/-- Whatever refuses an event does it for a fault of the document. -/
theorem isAboutDocument_of_step {b : Builder} {e : Event} {fault : LoadError}
    (h : b.step e = .error fault) : fault.isAboutDocument = true := by
  have checks : ∀ {fault}, b.checkAnchor e = .error fault → fault.isAboutDocument = true := by
    intro fault h
    rw [checkAnchor] at h
    split at h
    · cases h
    · split at h
      · cases h
        rfl
      · cases h
  rw [step] at h
  cases checked : b.checkAnchor e with
  | error other =>
    rw [checked] at h
    cases h
    exact checks checked
  | ok u =>
    rw [checked] at h
    cases kind : e.kind with
    | documentStart =>
      rw [kind] at h
      cases started : b.started with
      | true =>
        rw [started] at h
        cases h
        rfl
      | false =>
        rw [started] at h
        cases h
    | aliasOf name =>
      rw [kind] at h
      dsimp only at h
      cases found : b.anchors.lookup name with
      | none =>
        rw [found] at h
        cases h
        rfl
      | some vertex =>
        rw [found] at h
        cases h
    | scalar | sequenceStart | mappingStart | sequenceEnd | mappingEnd | streamStart | streamEnd
    | documentEnd =>
      rw [kind] at h
      cases h

theorem isAboutDocument_of_steps {events : List Event} {b : Builder} {fault : LoadError}
    (h : events.foldlM step b = .error fault) : fault.isAboutDocument = true := by
  induction events generalizing b with
  | nil => cases h
  | cons e events ih =>
    rw [List.foldlM_cons] at h
    cases first : b.step e with
    | error other =>
      rw [first] at h
      cases h
      exact isAboutDocument_of_step first
    | ok c =>
      rw [first] at h
      exact ih h

end Graph.Builder

/-- A text that is composed defines no anchor twice. -/
theorem nodup_anchors_of_compose {s : Text} {g : Graph} (h : Graph.compose s = .ok g) :
    (anchors s).Nodup := by
  rw [Graph.compose] at h
  split at h
  · cases h
  · obtain ⟨b, taken, -⟩ := bind_eq_ok.mp h
    obtain ⟨names, nodup⟩ := Graph.Builder.names_steps taken List.nodup_nil
    rw [names] at nodup
    exact List.nodup_reverse.mp (List.nodup_append.mp nodup).1

/-- A text that defines an anchor twice is refused as a document. -/
theorem loadValue_of_twice {s : Text} (twice : ¬ (anchors s).Nodup) :
    ∃ e, loadValue s = .error e ∧ e.isAboutDocument = true := by
  suffices refused : ∃ e, Graph.compose s = .error e ∧ e.isAboutDocument = true by
    obtain ⟨e, composed, about⟩ := refused
    refine ⟨e, ?_, about⟩
    rw [loadValue, load, composed]
    rfl
  rw [Graph.compose]
  cases unreadable : firstUnreadable? s with
  | some e =>
    obtain ⟨c, -, rfl⟩ := Option.map_eq_some_iff.mp unreadable
    exact ⟨_, rfl, rfl⟩
  | none =>
    dsimp only
    cases taken : (EventFeed.ofText s).items.foldlM Graph.Builder.step { text := s } with
    | error e => exact ⟨e, rfl, Graph.Builder.isAboutDocument_of_steps taken⟩
    | ok b =>
      obtain ⟨names, nodup⟩ := Graph.Builder.names_steps taken List.nodup_nil
      rw [names] at nodup
      exact absurd (List.nodup_reverse.mp (List.nodup_append.mp nodup).1) twice

namespace Document

open Noted

variable {d : Document} {v : Value} {s t : List Notice}

theorem Loads.nodup_anchors {text : Text} (h : Loads text v) : (anchors text).Nodup := by
  obtain ⟨w, loaded, -⟩ := h
  obtain ⟨loaded, h, -⟩ := bind_eq_ok.mp loaded
  obtain ⟨graph, composed, -⟩ := bind_eq_ok.mp h
  exact nodup_anchors_of_compose composed

/-- A text that comes out of the check defines no anchor twice. -/
theorem nodup_anchors_of_checked {text out : Text} (back : d.ReadsBack v)
    (h : Gives (d.checked text v) s out t) : (anchors out).Nodup := by
  rcases checked_cases h with ⟨rfl, -, loads⟩ | ⟨-, -, f, dumped, rfl⟩
  · exact loads.nodup_anchors
  · obtain ⟨f', dumped', loads⟩ := back
    cases dumped.symm.trans dumped'
    exact loads.nodup_anchors

/-- A text that defines an anchor twice does not pass the check: the value is written out anew, with
the warning that the text does not load. -/
theorem checked_of_twice {text f : Text} (dumped : v.dump d.layout = .ok f)
    (twice : ¬ (anchors text).Nodup) :
    ∃ e, loadValue text = .error e ∧
      Gives (d.checked text v) s (f ++ d.lineBreak.text) (.doesNotLoad e.message :: s) := by
  obtain ⟨e, refused, about⟩ := loadValue_of_twice twice
  refine ⟨e, refused, ?_⟩
  rw [checked, refused]
  dsimp only
  rw [if_pos about]
  refine gives_bind.mpr ⟨⟨⟩, _, gives_note.mpr rfl, ?_⟩
  exact gives_bind.mpr ⟨f, _, gives_dump.mpr ⟨dumped, rfl⟩, gives_pure.mpr ⟨rfl, rfl⟩⟩

/-- Two pairs. -/
def twoPairs : Document :=
  { text := "a: 1\nb: 2\n".toList }

/-- A value for `twoPairs` with two lists that are shared, both inside of one pair only. -/
def twoShared : Value :=
  .dict none
    [(.str "a".toList, .list none [.list (some 1) [.int 1], .list (some 1) [.int 1]]),
     (.str "b".toList, .list none [.list (some 2) [.int 2], .list (some 2) [.int 2]])]

theorem readsBack_twoShared : twoPairs.ReadsBack twoShared :=
  readsBack_of_check (by decide +kernel)

/-- Both fragments number their anchors from one on. -/
theorem candidate?_twoShared : twoPairs.candidate? twoShared [] =
    some ("a:\n  - &id001\n    - 1\n  - *id001\n" ++
      "b:\n  - &id001\n    - 2\n  - *id001\n").toList := by
  decide +kernel

end Document

end YamlEdit
