import YamlEdit.Proofs.Event.Nesting
import YamlEdit.Proofs.Token.Start

/-!
# The first node

The events of a text start with the start of the stream. If its tokens go on with anything but the
end of the stream, the next event is the start of a document, and the one after it is a node, or
there is a fault.
-/

namespace YamlEdit

/-- Whether an event is a node or the start of one. -/
def Event.Kind.isNode : Event.Kind → Bool
  | aliasOf _ | scalar .. | sequenceStart .. | mappingStart .. => true
  | _ => false

namespace Walk

/-- A step whose event is a node. -/
abbrev YieldsNode (x : Step Event) : Prop :=
  Yields (fun e _ => e.kind.isNode = true) x

theorem fail_yields {α : Type} {P : α → Walker → Prop} (cause : ParseFault) (began : Option Mark)
    (failed : Mark) : Yields P (fail cause began failed) := by
  refine ⟨?_⟩
  intro w a u h
  cases h

theorem content_yields (block : Bool) (p : Properties) (name : Option Text) (t : Token)
    (start stop : Mark) : YieldsNode (node.content block p name t start stop) :=
  .ite (.bind fun _ => .of_pure fun _ => rfl) (fail_yields ..)

theorem node_yields (block bare : Bool) : YieldsNode (node block bare) := by
  refine .bind ?_
  intro t
  split
  · exact .bind fun _ => .bind fun _ => .of_pure fun _ => rfl
  · refine .bind fun p => .bind fun name => .bind ?_
    intro t
    dsimp only
    split
    · exact .ite (.bind fun _ => .of_pure fun _ => rfl) (content_yields ..)
    · exact .bind fun _ => .bind fun _ => .of_pure fun _ => rfl
    · exact .bind fun _ => .of_pure fun _ => rfl
    · exact .bind fun _ => .of_pure fun _ => rfl
    · exact .ite (.bind fun _ => .of_pure fun _ => rfl) (content_yields ..)
    · exact .ite (.bind fun _ => .of_pure fun _ => rfl) (content_yields ..)
    · exact content_yields ..

theorem documentContent_yields : YieldsNode documentContent := by
  refine .bind ?_
  intro t
  split
  · exact .bind fun _ => .of_pure fun _ => rfl
  · exact .bind fun _ => .of_pure fun _ => rfl
  · exact .bind fun _ => .of_pure fun _ => rfl
  · exact .bind fun _ => .of_pure fun _ => rfl
  · exact node_yields ..

/-- The start of a document, with a node to come. -/
def Opens (e : Event) (w : Walker) : Prop :=
  e.kind = .documentStart ∧ (w.state = .blockNode ∨ w.state = .documentContent)

theorem goto_yields {state : State} (h : state = .blockNode ∨ state = .documentContent)
    (start stop : Mark) :
    Yields Opens (do goto state; return ⟨.documentStart, start, stop⟩) := by
  refine ⟨?_⟩
  intro w a u hu
  cases hu
  exact ⟨rfl, h⟩

theorem peek_run {w : Walker} {t : Token} {r : List Token} (h : w.tokens = t :: r) :
    peek.run w = .ok (t, w) := by
  obtain ⟨source, tokens, fault, state, stack, begun, handles⟩ := w
  subst h
  rfl

theorem skipEnds_run {w : Walker} {t : Token} {r : List Token} (h : w.tokens = t :: r)
    (other : t.kind ≠ .documentEnd) (steps : Nat) :
    (skipEnds (steps + 1)).run w = .ok (⟨⟩, w) := by
  have stay : (next (· == .documentEnd)).run w = .ok (t.kind == .documentEnd, w) :=
    run_bind_of_ok (peek_run h)
  have no : (t.kind == .documentEnd) = false := by simpa using other
  rw [no] at stay
  exact run_bind_of_ok stay

/-- Before every token but the end of the stream a document opens. -/
theorem firstDocument_yields {w u : Walker} {t : Token} {r : List Token} {e : Event}
    (here : w.tokens = t :: r) (other : t.kind ≠ .streamEnd)
    (h : firstDocument.run w = .ok (e, u)) : Opens e u := by
  have peeked : firstDocument.run w = StateT.run (if opensDocument t.kind then nextDocument else do
      modify fun w => { w with handles := standardHandles }
      thenTo .documentEnd
      goto .blockNode
      return ⟨.documentStart, t.start, t.start⟩) w :=
    run_bind_of_ok (peek_run here)
  rw [peeked] at h
  split at h
  · next opens =>
    have running : t.kind ≠ .documentEnd := by
      intro same
      rw [same] at opens
      cases opens
    have got : nextDocument.run w = _ := run_bind_of_ok (s := w) (t := w) (a := w) rfl
    rw [got, run_bind_of_ok (skipEnds_run here running _), run_bind_of_ok (peek_run here)] at h
    have no : (t.kind == .streamEnd) = false := by simpa using other
    rw [no] at h
    refine Yields.run (P := Opens) ?_ w e u h
    refine .bind fun _ => .bind fun _ => .bind fun _ => .ite (.bind fun _ => ?_) ?_
    · exact .bind fun _ => .bind fun _ => .bind fun _ => goto_yields (.inr rfl) ..
    · exact .bind fun _ => .bind fun _ => .bind fun _ => goto_yields (.inr rfl) ..
  · refine Yields.run (P := Opens) ?_ w e u h
    exact .bind fun _ => .bind fun _ => goto_yields (.inl rfl) ..

end Walk

namespace TokenFeed

theorem items_ofText (s : Text) : ∃ more, (ofText s).items = start :: more := by
  rw [ofText_eq]
  cases (Scan.Scanner.first s).fetch with
  | error e => exact ⟨[], rfl⟩
  | ok t => exact ⟨_, rfl⟩

end TokenFeed

namespace EventFeed

open Walk

/-- The events of a text whose tokens do not end at once. -/
theorem ofText_node {s : Text} {t : Token} {more : List Token}
    (items : (TokenFeed.ofText s).items = TokenFeed.start :: t :: more)
    (other : t.kind ≠ .streamEnd) (sound : (ofText s).fault = none) :
    ∃ first opens node rest, (ofText s).items = first :: opens :: node :: rest ∧
      first.kind = .streamStart ∧ opens.kind = .documentStart ∧ node.kind.isNode = true := by
  unfold ofText at sound ⊢
  dsimp only at sound ⊢
  rw [items] at sound ⊢
  obtain ⟨first, u, hf, firstItems, sound⟩ := events_succ (by simp) sound
  cases hf
  obtain ⟨opens, v, ho, openItems, sound⟩ := events_succ (by simp) sound
  have started : firstDocument.run
      { source := s
        tokens := t :: more
        fault := (TokenFeed.ofText s).fault
        state := .firstDocument } = .ok (opens, v) := ho
  obtain ⟨opening, next⟩ := firstDocument_yields rfl other started
  obtain ⟨node, x, hn, nodeItems, -⟩ := events_succ (by rcases next with h | h <;> simp [h]) sound
  refine ⟨_, opens, node, _, by rw [firstItems, openItems, nodeItems], rfl, opening, ?_⟩
  have stepped : step.run v = _ := run_bind_of_ok (s := v) (t := v) (a := v) rfl
  rw [stepped] at hn
  rcases next with h | h
  · rw [h] at hn
    exact (node_yields true false).run v node x hn
  · rw [h] at hn
    exact documentContent_yields.run v node x hn

/-- A text whose tokens end at once has a fault where its tokens have one. -/
theorem fault_ofText {s : Text} (items : (TokenFeed.ofText s).items = [TokenFeed.start])
    (sound : (ofText s).fault = none) : (TokenFeed.ofText s).fault = none := by
  unfold ofText at sound
  dsimp only at sound
  rw [items] at sound
  obtain ⟨first, u, hf, -, sound⟩ := events_succ (by simp) sound
  cases hf
  obtain ⟨opens, v, ho, -, -⟩ := events_succ (by simp) sound
  cases h : (TokenFeed.ofText s).fault with
  | none => rfl
  | some e =>
    rw [h] at ho
    cases ho

end EventFeed

end YamlEdit
