import YamlEdit.Proofs.Event.First
import YamlEdit.Tree.Compose

/-!
# Texts without a node

Nodes are added and never taken away while a tree is built, and an event that is a node adds one. So
a tree has no root only if its text holds nothing but blank lines and comments.
-/

namespace YamlEdit.Tree

namespace Builder

@[simp] theorem size_add (b : Builder) (anchor : Option Text) (start stop content : Mark)
    (body : Node.Body) : (b.add anchor start stop content body).nodes.size = b.nodes.size + 1 := by
  simp [add]

@[simp] theorem size_enter (b : Builder) (anchor : Option Text) (e : Event) (frame : Frame)
    (body : Node.Body) : (b.enter anchor e frame body).nodes.size = b.nodes.size + 1 := by
  simp [enter]

@[simp] theorem size_addScalar (b : Builder) (e : Event) (anchor : Option Text) (tag : Tag)
    (text : Text) (quoting : Quoting) :
    (b.addScalar e anchor tag text quoting).nodes.size = b.nodes.size + 1 := by
  simp [addScalar]

@[simp] theorem size_close (b : Builder) (stop : Mark) :
    (b.close stop).nodes.size = b.nodes.size := by
  rw [close]
  split <;> simp

/-- An event adds the node that it is. -/
theorem size_step {b b' : Builder} {e : Event} (h : b.step e = .ok b') :
    b'.nodes.size = b.nodes.size + (if e.kind.isNode then 1 else 0) := by
  rw [step] at h
  obtain ⟨_, -, h⟩ := bind_eq_ok.mp h
  split at h
  case h_1 hk =>
    obtain ⟨-, h⟩ := guard_eq_ok.mp h
    cases h
    simp [hk, Event.Kind.isNode]
  case h_2 name hk =>
    obtain ⟨-, h⟩ := guard_eq_ok.mp h
    cases h
    simp [hk, Event.Kind.isNode]
  all_goals
    next hk =>
    cases h
    simp [hk, Event.Kind.isNode]

theorem size_steps {items : List Event} {b b' : Builder} (h : items.foldlM step b = .ok b') :
    b.nodes.size ≤ b'.nodes.size := by
  induction items generalizing b with
  | nil =>
    cases h
    exact le_rfl
  | cons e items ih =>
    rw [List.foldlM_cons] at h
    obtain ⟨u, hu, h⟩ := bind_eq_ok.mp h
    have first := size_step hu
    have rest := ih h
    omega

end Builder

/-- A tree without nodes comes from a text of blank lines and comments, perhaps behind a byte order
mark. -/
theorem isMarginFrom_of_rootless {s : Text} {tree : Tree} (h : compose s = .ok tree)
    (rootless : tree.root? = none) : ∃ r, TokenFeed.Marked r s ∧ isMarginFrom false r = true := by
  obtain ⟨b, built, sound, rfl⟩ := exists_of_compose h
  have empty : b.nodes.size = 0 := by
    simp only [root?, node?] at rootless
    have := Array.getElem?_eq_none_iff.mp rootless
    omega
  obtain ⟨more, items⟩ := TokenFeed.items_ofText s
  refine TokenFeed.isMarginFrom_of_streamEnd items ?_ ?_
  · intro none
    subst none
    exact EventFeed.fault_ofText items sound
  · intro t ht
    by_contra other
    cases more with
    | nil => cases ht
    | cons u more =>
      cases ht
      obtain ⟨first, opens, node, rest, events, -, -, isNode⟩ :=
        EventFeed.ofText_node items other sound
      rw [events] at built
      simp only [List.foldlM_cons] at built
      obtain ⟨c, hc, built⟩ := bind_eq_ok.mp built
      obtain ⟨d, hd, built⟩ := bind_eq_ok.mp built
      obtain ⟨f, hf, built⟩ := bind_eq_ok.mp built
      have grown := Builder.size_step hf
      have kept := Builder.size_steps built
      rw [isNode] at grown
      simp only [if_true] at grown
      omega

end YamlEdit.Tree
