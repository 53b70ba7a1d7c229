import YamlEdit.Proofs.Event.Brackets
import YamlEdit.Proofs.Tree.WellFormed

/-!
# Collections in brackets

What a collection in brackets or braces holds is a scalar, an alias, or a collection in brackets or
braces. So it ends with its own bracket, and what is below it is written before that.
-/

namespace YamlEdit

namespace Node

/-- Whether a node is a collection that is not in brackets. -/
def isBlock (n : Node) : Bool :=
  (n.kind == .sequence || n.kind == .mapping) && !n.isFlow

theorem isFlow_begun (n : Node) : n.begun.isFlow = n.isFlow := by
  obtain ⟨index, parent, anchor, start, stop, content, body⟩ := n
  cases body <;> rfl

theorem isBlock_begun (n : Node) : n.begun.isBlock = n.isBlock := by
  obtain ⟨index, parent, anchor, start, stop, content, body⟩ := n
  cases body <;> rfl

end Node

namespace Tree

/-- A node in brackets, if it is in any, is no block collection. -/
def Enclosed (nodes : Array Node) (n : Node) : Prop :=
  ∀ p, n.parent = some p → ∃ q, nodes[p]? = some q ∧ (q.isFlow = true → n.isBlock = false)

theorem Enclosed.grow {nodes more : Array Node} {n m : Node} (h : Enclosed nodes n)
    (grown : Grows nodes more) (same : m.begun = n.begun) : Enclosed more m := by
  intro p parent
  have parent' : n.parent = some p := (congrArg Node.parent same :).symm.trans parent
  obtain ⟨q, found, encloses⟩ := h p parent'
  obtain ⟨q', known, same'⟩ := grown.node found
  refine ⟨q', known, fun flow => ?_⟩
  rw [← m.isBlock_begun, same, n.isBlock_begun]
  rw [← q'.isFlow_begun, same', q.isFlow_begun] at flow
  exact encloses flow

/-- An open collection that is in brackets or is not. -/
def Braces (nodes : Array Node) (o : Open) (flow : Bool) : Prop :=
  ∃ q, nodes[o.index]? = some q ∧ q.isFlow = flow

theorem Braces.grow {nodes more : Array Node} {o : Open} {flow : Bool} (h : Braces nodes o flow)
    (grown : Grows nodes more) : Braces more o flow := by
  obtain ⟨q, found, rfl⟩ := h
  obtain ⟨q', known, same⟩ := grown.node found
  exact ⟨q', known, by rw [← q'.isFlow_begun, same, q.isFlow_begun]⟩

/-- A builder with no block collection in brackets, behind events that leave collections open. -/
structure Braced (b : Builder) (open_ : List Bool) : Prop where
  nodes : ∀ (i : Nat) n, b.nodes[i]? = some n → Enclosed b.nodes n
  stack : List.Forall₂ (Braces b.nodes) b.stack open_

namespace Braced

variable {b : Builder} {open_ : List Bool}

theorem forall₂_addChild {nodes more : Array Node} {stack : List Open} (c : Nat)
    (h : List.Forall₂ (Braces nodes) stack open_) (grown : Grows nodes more) :
    List.Forall₂ (Braces more) (Builder.addChild c stack) open_ := by
  cases h with
  | nil => exact .nil
  | cons first rest => exact .cons (first.grow grown) (rest.imp fun _ _ h => h.grow grown)

theorem add (h : Braced b open_) (anchor : Option Text) (start stop content : Mark)
    {body : Node.Body} (keeps : open_.head? = some true → ∀ n : Node, n.body = body →
      n.isBlock = false) : Braced (b.add anchor start stop content body) open_ := by
  have grown : Grows b.nodes (b.add anchor start stop content body).nodes := .push b.nodes _
  refine ⟨?_, forall₂_addChild _ h.stack grown⟩
  intro i n found
  have found : (b.nodes.push _)[i]? = some n := found
  rw [Array.getElem?_push] at found
  split at found
  · cases found
    intro p parent
    have stack := h.stack
    cases rest : b.stack with
    | nil =>
      rw [rest] at parent
      cases parent
    | cons o r =>
      rw [rest] at parent stack
      cases parent
      cases stack with
      | cons first _ =>
        obtain ⟨q, known, rfl⟩ := first.grow grown
        exact ⟨q, known, fun flow => keeps (congrArg some flow) _ rfl⟩
  · exact (h.nodes i n found).grow grown rfl

/-- Adding a collection that stays open. -/
theorem enter (h : Braced b open_) (anchor : Option Text) (e : Event) (frame : Frame)
    {body : Node.Body} (keeps : open_.head? = some true → frame = .flow)
    (framed : ∀ n : Node, n.body = body → n.isFlow = (frame == .flow)) :
    Braced (b.enter anchor e frame body) ((frame == .flow) :: open_) := by
  have added := h.add anchor e.start e.start
    (Span.markAt b.text (Span.collectionContent b.text (frame == .flow) e.stop.index) e.stop)
    fun inside n same => by rw [Node.isBlock, framed n same, keeps inside]; simp
  exact ⟨added.nodes, .cons ⟨_, Array.getElem?_push_size, framed _ rfl⟩ added.stack⟩

theorem close (h : Braced b open_) (stop : Mark) : Braced (b.close stop) open_.tail := by
  have stack := h.stack
  rw [Builder.close]
  cases rest : b.stack with
  | nil =>
    rw [rest] at stack
    cases stack
    exact ⟨h.nodes, by rw [rest]; exact .nil⟩
  | cons o r =>
    rw [rest] at stack
    obtain ⟨flow, open', -, others, rfl⟩ := List.forall₂_cons_left_iff.mp stack
    have grown := Grows.close b.nodes o.index stop o.children.reverse
    refine ⟨?_, others.imp fun _ _ h => h.grow grown⟩
    intro i m found
    have inside := (Array.getElem?_eq_some_iff.mp found).1
    rw [Array.size_modify] at inside
    obtain ⟨n, known, same⟩ := grown.node' inside found
    exact (h.nodes i n known).grow grown same

/-- One event. -/
theorem step (h : Braced b open_) {e : Event} (keeps : e.kind.Keeps open_) {b' : Builder}
    (taken : b.step e = .ok b') : Braced b' (e.kind.brackets open_) := by
  rw [Builder.step] at taken
  obtain ⟨_, -, taken⟩ := bind_eq_ok.mp taken
  have leaf : ∀ n : Node, (n.kind == .sequence || n.kind == .mapping) = false →
      n.isBlock = false := by
    intro n other
    rw [Node.isBlock, other, Bool.false_and]
  cases kind : e.kind with
  | aliasOf name =>
    rw [kind] at taken
    obtain ⟨-, taken⟩ := guard_eq_ok.mp taken
    cases taken
    exact h.add _ _ _ _ fun _ n same => leaf n (by rw [Node.kind, same]; rfl)
  | scalar anchor tag text quoting =>
    rw [kind] at taken
    cases taken
    exact h.add _ _ _ _ fun _ n same => leaf n (by rw [Node.kind, same]; rfl)
  | sequenceStart anchor tag frame | mappingStart anchor tag frame =>
    rw [kind] at taken keeps
    cases taken
    refine h.enter _ _ frame (fun inside => ?_) fun n same => by rw [Node.isFlow, same]
    simpa [Event.Kind.opensBlock] using keeps inside
  | sequenceEnd | mappingEnd =>
    rw [kind] at taken
    cases taken
    exact h.close e.stop
  | documentStart =>
    rw [kind] at taken
    obtain ⟨-, taken⟩ := guard_eq_ok.mp taken
    cases taken
    exact ⟨h.nodes, h.stack⟩
  | streamStart | streamEnd | documentEnd =>
    rw [kind] at taken
    cases taken
    exact h

/-- Events one after another. -/
theorem steps {events : List Event} (h : Braced b open_) (keep : Event.AllKeep open_ events)
    {b' : Builder} (taken : events.foldlM Builder.step b = .ok b') :
    ∃ open', Braced b' open' := by
  induction events generalizing b open_ with
  | nil =>
    cases taken
    exact ⟨open_, h⟩
  | cons e events ih =>
    rw [List.foldlM_cons] at taken
    obtain ⟨c, first, taken⟩ := bind_eq_ok.mp taken
    exact ih (h.step keep.1 first) keep.2 taken

end Braced

/-- In a tree there is no block collection in brackets. -/
theorem enclosed_of_compose {s : Text} {lenient : Bool} {t : Tree} (h : compose s lenient = .ok t)
    {i : Nat} {n : Node} (found : t.node? i = some n) : Enclosed t.nodes n := by
  obtain ⟨b, taken, -, rfl⟩ := exists_of_compose h
  have none : Braced { text := s, lenient } [] := ⟨by simp, .nil⟩
  obtain ⟨open_, braced⟩ := none.steps (EventFeed.allKeep_ofText s) taken
  exact braced.nodes i n found

/-- A tree whose children come behind their parents and name them, with nothing but brackets in
brackets. -/
structure Lineage (t : Tree) : Prop where
  root : ∀ n, t.root? = some n → n.parent = none
  later : ∀ i n, t.node? i = some n → ∀ c ∈ n.children, i < c
  child : ∀ i n, t.node? i = some n → ∀ c ∈ n.children, ∃ m, t.node? c = some m ∧
    m.parent = some i ∧ (n.isFlow = true → m.isBlock = false)

theorem lineage_of_compose {s : Text} {lenient : Bool} {t : Tree} (h : compose s lenient = .ok t) :
    t.Lineage := by
  obtain ⟨b, related, nodes, -⟩ := related_of_compose h
  refine ⟨fun n found => related.root n (nodes ▸ found), ?_, ?_⟩
  · intro i n found c hc
    have inside := (Array.getElem?_eq_some_iff.mp found).1
    have row := (row_of_compose h).resolve_left (by omega)
    obtain ⟨stop, -, part⟩ := row.at_ (Nat.zero_le i) inside
    obtain ⟨m, known, below⟩ := part.children
    cases found.symm.trans known
    exact (below.inside c hc).1
  · intro i n found c hc
    obtain ⟨m, known, parent⟩ := related.children i n (nodes ▸ found) c hc
    rw [nodes] at known
    obtain ⟨q, around, keeps⟩ := enclosed_of_compose h known i parent
    cases found.symm.trans around
    exact ⟨m, known, parent, keeps⟩

end Tree

end YamlEdit
