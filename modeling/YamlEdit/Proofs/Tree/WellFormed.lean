import Mathlib.Data.List.Nodup
import YamlEdit.Proofs.Tree.Layout
import YamlEdit.Proofs.Tree.Preorder

/-!
# Trees are well formed

The row of a tree is a tree: every node but the first has one place among the children of one earlier
node, which it calls its parent, and what lies below a node comes right behind it. An alias stands for
the last node before it that has its name.

The shape follows from the row alone (`Row`), as a row lists every place once. What a node says of
its parent and an alias of its aim is written down when the node is added, and only the children and
the end of a collection change later; so all of that is stated of what stays (`Node.begun`).
-/

namespace YamlEdit

/-- What is known of a node when it is added: all but its end and its children. -/
def Node.begun (n : Node) : Node :=
  { n with stop := n.start, body := Tree.Builder.fill [] n.body }

namespace Node

@[simp] theorem index_begun (n : Node) : n.begun.index = n.index := rfl

@[simp] theorem parent_begun (n : Node) : n.begun.parent = n.parent := rfl

@[simp] theorem anchor_begun (n : Node) : n.begun.anchor = n.anchor := rfl

@[simp] theorem isAlias_begun (n : Node) : n.begun.isAlias = n.isAlias := by
  obtain ⟨index, parent, anchor, start, stop, content, body⟩ := n
  cases body <;> rfl

@[simp] theorem tag?_begun (n : Node) : n.begun.tag? = n.tag? := by
  obtain ⟨index, parent, anchor, start, stop, content, body⟩ := n
  cases body <;> rfl

/-- An alias has no children, so it is all there from the start. -/
theorem body_of_begun {n m : Node} (same : n.begun = m.begun) {name : Text}
    {target : Option (Nat × Tag)} (body : n.body = .aliasOf name target) : m.body = n.body := by
  obtain ⟨index, parent, anchor, start, stop, content, form⟩ := n
  obtain ⟨index', parent', anchor', start', stop', content', form'⟩ := m
  have bodies : Tree.Builder.fill [] form = Tree.Builder.fill [] form' := congrArg Node.body same
  dsimp only at body
  subst body
  cases form' with
  | aliasOf name' target' => exact bodies.symm
  | scalar tag text quoting => cases bodies
  | sequence tag frame items => cases bodies
  | mapping tag frame pairs => cases bodies

end Node

namespace Tree

/-! ## The shape of a row -/

namespace Row

variable {nodes : Array Node} {i j k : Nat} {l : List Nat}

theorem inside (h : Row nodes i l k) : ∀ c ∈ l, i ≤ c ∧ c < k := by
  induction h with
  | nil i => exact fun c hc => nomatch hc
  | cons here below after _ ih =>
    intro c hc
    have first := below.le
    have second := after.le
    rcases List.mem_cons.mp hc with rfl | later
    · omega
    · have range := ih c later
      omega

theorem pairwise (h : Row nodes i l k) : l.Pairwise (· < ·) := by
  induction h with
  | nil i => exact .nil
  | cons here below after _ ih =>
    refine .cons ?_ ih
    intro c hc
    have first := below.le
    have second := (after.inside c hc).1
    omega

/-- A place of the row is one of those listed, or a child of an earlier place. -/
theorem listed (h : Row nodes i l k) (low : i ≤ j) (high : j < k) :
    j ∈ l ∨ ∃ q n, i ≤ q ∧ q < j ∧ nodes[q]? = some n ∧ j ∈ n.children := by
  induction h with
  | nil i => omega
  | @cons i j' k n rest here below after ihBelow ihAfter =>
    by_cases first : j = i
    · exact .inl (first ▸ List.mem_cons_self)
    by_cases inner : j < j'
    · rcases ihBelow (by omega) inner with child | ⟨q, m, qi, qj, found, child⟩
      · exact .inr ⟨i, n, by omega, by omega, here, child⟩
      · exact .inr ⟨q, m, by omega, qj, found, child⟩
    · have start := below.le
      rcases ihAfter (by omega) high with later | ⟨q, m, qi, qj, found, child⟩
      · exact .inl (List.mem_cons_of_mem _ later)
      · exact .inr ⟨q, m, by omega, qj, found, child⟩

/-- What lies below a place of the row is a part of the row. -/
theorem at_ (h : Row nodes i l k) (low : i ≤ j) (high : j < k) :
    ∃ stop ≤ k, Row nodes j [j] stop := by
  induction h with
  | nil i => omega
  | @cons i j' k n rest here below after ihBelow ihAfter =>
    have second := after.le
    by_cases first : j = i
    · exact ⟨j', second, first ▸ .cons here below (.nil _)⟩
    by_cases inner : j < j'
    · obtain ⟨stop, bound, row⟩ := ihBelow (by omega) inner
      exact ⟨stop, Nat.le_trans bound second, row⟩
    · exact ihAfter (by omega) high

/-- The children of a place, each followed by its own, end with the row of the place. -/
theorem children (h : Row nodes i [i] k) :
    ∃ n, nodes[i]? = some n ∧ Row nodes (i + 1) n.children k := by
  cases h with
  | cons here below after =>
    cases after with
    | nil => exact ⟨_, here, below⟩

/-- The nodes inside of a node are those of its row. -/
theorem inside_iff {t : Tree} {n m : Node} {stop : Nat} (row : Row t.nodes i [i] stop)
    (found : t.node? i = some n) (index : ∀ i n, t.node? i = some n → n.index = i)
    (there : t.node? j = some m) : t.Inside n m ↔ i ≤ j ∧ j < stop := by
  constructor
  · intro below
    suffices place : ∃ p, t.node? p = some m ∧ i ≤ p ∧ p < stop by
      obtain ⟨p, known, range⟩ := place
      rw [← index j m there, index p m known]
      exact range
    clear there
    induction below with
    | self =>
      obtain ⟨_, _, below⟩ := row.children
      have first := below.le
      exact ⟨i, found, Nat.le_refl i, by omega⟩
    | @child m c q _ child known ih =>
      obtain ⟨p, at', low, high⟩ := ih
      obtain ⟨stop', bound, part⟩ := row.at_ low high
      obtain ⟨m', same, children⟩ := part.children
      cases at'.symm.trans same
      have range := children.inside q child
      exact ⟨q, known, by omega, by omega⟩
  · rintro ⟨low, high⟩
    induction j using Nat.strongRecOn generalizing m with
    | ind j ih =>
      by_cases first : j = i
      · subst first
        cases found.symm.trans there
        exact .self
      · rcases row.listed low high with alone | ⟨q, p, qi, qj, known, child⟩
        · exact absurd (List.mem_singleton.mp alone) first
        · exact (ih q qj known qi (by omega)).child child there

end Row

/-! ## Anchors and aliases -/

/-- The anchor of the node at a place. -/
def anchorAt (nodes : Array Node) (i : Nat) : Option Text :=
  (nodes[i]?).bind Node.anchor

/-- The last place before another whose node has a name as its anchor, if there is one. -/
def LastNamed (nodes : Array Node) (name : Text) (stop : Nat) : Option Nat → Prop
  | some j => j < stop ∧ anchorAt nodes j = some name ∧
      ∀ k, j < k → k < stop → anchorAt nodes k ≠ some name
  | none => ∀ k < stop, anchorAt nodes k ≠ some name

/-- What an alias at a place stands for: the last node before it that has its name, which is no
alias, and that node's tag. It may stand for nothing in a lenient tree, where no node before it has
its name. -/
structure Aims (nodes : Array Node) (lenient : Bool) (i : Nat) (name : Text)
    (target : Option (Nat × Tag)) : Prop where
  last : LastNamed nodes name i (target.map (·.1))
  tag : ∀ j tag, target = some (j, tag) →
    ∃ m, nodes[j]? = some m ∧ m.isAlias = false ∧ m.tag? = some tag
  lenient : target = none → lenient = true

theorem LastNamed.congr {nodes more : Array Node} {name : Text} {stop : Nat} {target : Option Nat}
    (h : LastNamed nodes name stop target)
    (same : ∀ k < stop, anchorAt more k = anchorAt nodes k) : LastNamed more name stop target := by
  cases target with
  | none =>
    intro k hk
    rw [same k hk]
    exact h k hk
  | some j =>
    obtain ⟨before, named, last⟩ := h
    refine ⟨before, (same j before).trans named, ?_⟩
    intro k low high
    rw [same k high]
    exact last k low high

/-- One place more. -/
theorem LastNamed.succ {nodes : Array Node} {name : Text} {stop : Nat} {target : Option Nat}
    (h : LastNamed nodes name stop target) :
    LastNamed nodes name (stop + 1)
      (if anchorAt nodes stop = some name then some stop else target) := by
  split
  · next named =>
    refine ⟨by omega, named, ?_⟩
    intro k low high
    omega
  · next other =>
    have last : ∀ k, k < stop + 1 → ¬ k < stop → anchorAt nodes k ≠ some name := by
      intro k high low
      have same : k = stop := by omega
      rw [same]
      exact other
    cases target with
    | none =>
      intro k hk
      by_cases old : k < stop
      · exact h k old
      · exact last k hk old
    | some j =>
      obtain ⟨before, named, behind⟩ := h
      refine ⟨by omega, named, ?_⟩
      intro k low high
      by_cases old : k < stop
      · exact behind k low old
      · exact last k high old

/-- A row goes on with another: what is known of its nodes stays. -/
def Grows (nodes more : Array Node) : Prop :=
  ∀ i < nodes.size, (more[i]?).map Node.begun = (nodes[i]?).map Node.begun

namespace Grows

variable {nodes more : Array Node}

theorem push (nodes : Array Node) (n : Node) : Grows nodes (nodes.push n) := by
  intro i inside
  rw [Array.getElem?_push, if_neg (by omega)]

theorem close (nodes : Array Node) (k : Nat) (stop : Mark) (children : List Nat) :
    Grows nodes (nodes.modify k fun n =>
      { n with stop, body := Builder.fill children n.body }) := by
  intro i _
  rw [Array.getElem?_modify]
  split
  · rw [Option.map_map]
    refine congrArg (Option.map · _) (funext ?_)
    rintro ⟨index, parent, anchor, start, stop, content, body⟩
    cases body <;> rfl
  · rfl

/-- The node that stands where one was, and what it has in common with it. -/
theorem node (h : Grows nodes more) {i : Nat} {n : Node} (found : nodes[i]? = some n) :
    ∃ m, more[i]? = some m ∧ m.begun = n.begun := by
  have here := h i (Array.getElem?_eq_some_iff.mp found).1
  rw [found] at here
  exact Option.map_eq_some_iff.mp here

theorem node' (h : Grows nodes more) {i : Nat} {m : Node} (inside : i < nodes.size)
    (found : more[i]? = some m) : ∃ n, nodes[i]? = some n ∧ m.begun = n.begun := by
  obtain ⟨m', known, same⟩ := h.node (Array.getElem?_eq_getElem inside)
  cases found.symm.trans known
  exact ⟨_, Array.getElem?_eq_getElem inside, same⟩

theorem anchorAt (h : Grows nodes more) {i : Nat} (inside : i < nodes.size) :
    anchorAt more i = anchorAt nodes i := by
  obtain ⟨m, known, same⟩ := h.node (Array.getElem?_eq_getElem inside)
  rw [Tree.anchorAt, Tree.anchorAt, known, Array.getElem?_eq_getElem inside]
  exact (congrArg Node.anchor same :)

theorem aims (h : Grows nodes more) {lenient : Bool} {i : Nat} {name : Text}
    {target : Option (Nat × Tag)} (inside : i ≤ nodes.size)
    (aims : Aims nodes lenient i name target) : Aims more lenient i name target := by
  refine ⟨aims.last.congr fun k hk => h.anchorAt (by omega), ?_, aims.lenient⟩
  intro j tag led
  obtain ⟨m, found, own, tagged⟩ := aims.tag j tag led
  obtain ⟨m', known, same⟩ := h.node found
  refine ⟨m', known, ?_, ?_⟩
  · rw [← m'.isAlias_begun, same, m.isAlias_begun, own]
  · rw [← m'.tag?_begun, same, m.tag?_begun, tagged]

end Grows

/-! ## Building

Nodes are added below the innermost open collection, which lists them; a collection that ends gets
what was listed as its children. -/

/-- What is listed as children of a place calls the place its parent. -/
def Lists (nodes : Array Node) (i : Nat) (children : List Nat) : Prop :=
  ∀ c ∈ children, ∃ m, nodes[c]? = some m ∧ m.parent = some i

theorem Lists.grow {nodes more : Array Node} {i : Nat} {children : List Nat}
    (h : Lists nodes i children) (grown : Grows nodes more) : Lists more i children := by
  intro c hc
  obtain ⟨m, found, parent⟩ := h c hc
  obtain ⟨m', known, same⟩ := grown.node found
  refine ⟨m', known, ?_⟩
  rw [← m'.parent_begun, same, m.parent_begun, parent]

/-- A builder whose nodes know their places and parents, and whose aliases and anchors lead to the
last node of their name. -/
structure Related (b : Builder) : Prop where
  index : ∀ (i : Nat) n, b.nodes[i]? = some n → n.index = i
  root : ∀ n, b.nodes[0]? = some n → n.parent = none
  children : ∀ (i : Nat) n, b.nodes[i]? = some n → Lists b.nodes i n.children
  stack : ∀ o ∈ b.stack, Lists b.nodes o.index o.children
  aims : ∀ (i : Nat) n, b.nodes[i]? = some n → ∀ name target, n.body = .aliasOf name target →
    Aims b.nodes b.lenient i name target
  unnamed : ∀ (i : Nat) n, b.nodes[i]? = some n → n.isAlias = true → n.anchor = none
  anchors : ∀ name, LastNamed b.nodes name b.nodes.size (b.anchors.lookup name)

/-- A child that is listed below the innermost open collection. -/
theorem lists_addChild {nodes more : Array Node} {stack : List Open} {c : Nat} {m : Node}
    (h : ∀ o ∈ stack, Lists nodes o.index o.children) (grown : Grows nodes more)
    (found : more[c]? = some m) (parent : m.parent = stack.head?.map (·.index)) :
    ∀ o ∈ Builder.addChild c stack, Lists more o.index o.children := by
  intro o ho
  cases stack with
  | nil => cases ho
  | cons p r =>
    rcases List.mem_cons.mp ho with rfl | later
    · intro d hd
      rcases List.mem_cons.mp hd with rfl | old
      · exact ⟨m, found, parent⟩
      · exact (h p List.mem_cons_self).grow grown d old
    · exact (h o (List.mem_cons_of_mem _ later)).grow grown

/-- One place more in a table that has the last place of every name. -/
theorem LastNamed.lookup {nodes more : Array Node} {anchors : List (Text × Nat)} {name : Text}
    (h : LastNamed nodes name nodes.size (anchors.lookup name)) (grown : Grows nodes more)
    (size : more.size = nodes.size + 1) :
    LastNamed more name more.size
      (((anchorAt more nodes.size).elim anchors fun mine => (mine, nodes.size) :: anchors).lookup
        name) := by
  have next := (h.congr fun k hk => grown.anchorAt hk).succ
  rw [← size] at next
  cases mine : anchorAt more nodes.size with
  | none =>
    rw [mine, if_neg (Option.some_ne_none name).symm] at next
    exact next
  | some mine' =>
    rw [mine] at next
    show LastNamed more name more.size (((mine', nodes.size) :: anchors).lookup name)
    rw [List.lookup_cons]
    by_cases same : name = mine'
    · subst same
      rw [if_pos rfl] at next
      rw [beq_self_eq_true]
      exact next
    · rw [if_neg fun equal => same (Option.some.inj equal).symm] at next
      rw [beq_false_of_ne same]
      exact next

namespace Related

variable {b : Builder}

/-- A node that is added: an alias with its aim and without an anchor, or another node without
children. -/
theorem add (h : Related b) (rooted : b.nodes.size = 0 → b.stack = []) (anchor : Option Text)
    (start stop content : Mark) {body : Node.Body}
    (childless : ∀ n : Node, n.body = body → n.children = [])
    (aims : ∀ name target, body = .aliasOf name target →
      anchor = none ∧ Aims b.nodes b.lenient b.nodes.size name target) :
    Related (b.add anchor start stop content body) := by
  let n : Node :=
    { index := b.nodes.size, parent := b.stack.head?.map (·.index), anchor, start, stop, content
      body }
  have grown : Grows b.nodes (b.nodes.push n) := .push b.nodes n
  have last : (b.nodes.push n)[b.nodes.size]? = some n := Array.getElem?_push_size
  have cases_ : ∀ (i : Nat) m, (b.nodes.push n)[i]? = some m →
      (i = b.nodes.size ∧ m = n) ∨ b.nodes[i]? = some m := by
    intro i m hm
    rw [Array.getElem?_push] at hm
    split at hm
    · next new => exact .inl ⟨new, (Option.some.inj hm).symm⟩
    · exact .inr hm
  constructor
  · intro i m hm
    rcases cases_ i m hm with ⟨rfl, rfl⟩ | old
    · rfl
    · exact h.index i m old
  · intro m hm
    rcases cases_ 0 m hm with ⟨empty, rfl⟩ | old
    · show b.stack.head?.map (·.index) = none
      rw [rooted empty.symm]
      rfl
    · exact h.root m old
  · intro i m hm
    rcases cases_ i m hm with ⟨rfl, rfl⟩ | old
    · rw [childless n rfl]
      exact fun c hc => nomatch hc
    · exact (h.children i m old).grow grown
  · exact lists_addChild h.stack grown last rfl
  · intro i m hm name target form
    rcases cases_ i m hm with ⟨rfl, rfl⟩ | old
    · exact grown.aims (Nat.le_refl _) (aims name target form).2
    · have inside := (Array.getElem?_eq_some_iff.mp old).1
      exact grown.aims (Nat.le_of_lt inside) (h.aims i m old name target form)
  · intro i m hm alias_
    rcases cases_ i m hm with ⟨rfl, rfl⟩ | old
    · cases body with
      | aliasOf name target => exact (aims name target rfl).1
      | scalar tag text quoting => cases alias_
      | sequence tag frame items => cases alias_
      | mapping tag frame pairs => cases alias_
    · exact h.unnamed i m old alias_
  · intro name
    have next := (h.anchors name).lookup grown (Array.size_push n)
    have here : anchorAt (b.nodes.push n) b.nodes.size = anchor := by
      rw [anchorAt, last]
      rfl
    rw [here] at next
    cases anchor <;> exact next

/-- A collection that stays open. -/
theorem enter (h : Related b) (rooted : b.nodes.size = 0 → b.stack = []) (anchor : Option Text)
    (e : Event) (frame : Frame) {body : Node.Body}
    (childless : ∀ n : Node, n.body = body → n.children = [])
    (own : ∀ name target, body ≠ .aliasOf name target) :
    Related (b.enter anchor e frame body) := by
  have added := h.add rooted anchor e.start e.start
    (Span.markAt b.text (Span.collectionContent b.text (frame == .flow) e.stop.index) e.stop)
    childless fun name target form => absurd form (own name target)
  refine { added with stack := ?_ }
  intro o ho
  rcases List.mem_cons.mp ho with rfl | outer
  · exact fun c hc => nomatch hc
  · exact added.stack o outer

/-- A collection that ends. -/
theorem close (h : Related b) (stop : Mark) : Related (b.close stop) := by
  rw [Builder.close]
  cases stack : b.stack with
  | nil => exact h
  | cons o r =>
    let f : Node → Node := fun n => { n with stop, body := Builder.fill o.children.reverse n.body }
    have grown : Grows b.nodes (b.nodes.modify o.index f) :=
      .close b.nodes o.index stop o.children.reverse
    have size : (b.nodes.modify o.index f).size = b.nodes.size := Array.size_modify ..
    have old : ∀ (i : Nat) m, (b.nodes.modify o.index f)[i]? = some m →
        ∃ n, b.nodes[i]? = some n ∧ m.begun = n.begun := by
      intro i m hm
      exact grown.node' (size ▸ (Array.getElem?_eq_some_iff.mp hm).1) hm
    constructor
    · intro i m hm
      obtain ⟨n, found, same⟩ := old i m hm
      rw [← m.index_begun, same, n.index_begun]
      exact h.index i n found
    · intro m hm
      obtain ⟨n, found, same⟩ := old 0 m hm
      rw [← m.parent_begun, same, n.parent_begun]
      exact h.root n found
    · intro i m hm
      refine Lists.grow ?_ grown
      have hm : (b.nodes.modify o.index f)[i]? = some m := hm
      rw [Array.getElem?_modify] at hm
      split at hm
      · next here =>
        obtain ⟨n, found, rfl⟩ := Option.map_eq_some_iff.mp hm
        intro c hc
        have listed := h.stack o (stack ▸ List.mem_cons_self) c
          (List.mem_reverse.mp (mem_of_mem_children_fill hc))
        rw [here] at listed
        exact listed
      · exact h.children i m hm
    · intro p hp
      exact (h.stack p (stack ▸ List.mem_cons_of_mem _ hp)).grow grown
    · intro i m hm name target form
      obtain ⟨n, found, same⟩ := old i m hm
      have body := Node.body_of_begun same form
      have inside := (Array.getElem?_eq_some_iff.mp found).1
      exact grown.aims (Nat.le_of_lt inside) (h.aims i n found name target (body.trans form))
    · intro i m hm alias_
      obtain ⟨n, found, same⟩ := old i m hm
      rw [← m.isAlias_begun, same, n.isAlias_begun] at alias_
      rw [← m.anchor_begun, same, n.anchor_begun]
      exact h.unnamed i n found alias_
    · intro name
      show LastNamed (b.nodes.modify o.index f) name (b.nodes.modify o.index f).size _
      rw [size]
      exact (h.anchors name).congr fun k hk => grown.anchorAt hk

/-- What an alias stands for when it is met. -/
theorem target? (h : Related b) {name : Text}
    (allowed : ¬ ((b.target? name).isNone && !b.lenient) = true) :
    Aims b.nodes b.lenient b.nodes.size name (b.target? name) := by
  have last := h.anchors name
  rw [Builder.target?] at allowed ⊢
  cases found : b.anchors.lookup name with
  | none =>
    rw [found] at last allowed
    refine ⟨last, ?_, fun _ => ?_⟩
    · intro _ _ found
      cases found
    · simpa using allowed
  | some j =>
    rw [found] at last
    obtain ⟨before, named, -⟩ := id last
    obtain ⟨m, here, anchor⟩ := Option.bind_eq_some_iff.mp named
    have own : m.isAlias = false := by
      rw [Bool.eq_false_iff]
      intro alias_
      rw [h.unnamed j m here alias_] at anchor
      cases anchor
    have tagged : ∃ tag, m.tag? = some tag := by
      obtain ⟨index, parent, anchor, start, stop, content, body⟩ := m
      cases body with
      | scalar tag text quoting => exact ⟨tag, rfl⟩
      | sequence tag frame items => exact ⟨tag, rfl⟩
      | mapping tag frame pairs => exact ⟨tag, rfl⟩
      | aliasOf name target => cases own
    obtain ⟨tag, tagged⟩ := tagged
    have target : (do
        let index ← some j
        let node ← b.nodes[index]?
        return (index, ← node.tag?)) = some (j, tag) := by
      simp only [Option.bind_eq_bind, Option.bind_some, here, tagged, Option.pure_def]
    rw [target]
    refine ⟨last, ?_, ?_⟩
    · intro k tag' same
      cases same
      exact ⟨m, here, own, tagged⟩
    · intro none
      cases none

/-- One event. -/
theorem step (h : Related b) (rooted : b.nodes.size = 0 → b.stack = []) {e : Event} {b' : Builder}
    (taken : b.step e = .ok b') : Related b' := by
  rw [Builder.step] at taken
  obtain ⟨_, -, taken⟩ := bind_eq_ok.mp taken
  cases kind : e.kind with
  | documentStart =>
    rw [kind] at taken
    obtain ⟨-, taken⟩ := guard_eq_ok.mp taken
    cases taken
    exact { h with }
  | aliasOf name =>
    rw [kind] at taken
    obtain ⟨allowed, taken⟩ := guard_eq_ok.mp taken
    cases taken
    refine h.add rooted none _ _ _ (by rintro ⟨⟩ rfl; rfl) ?_
    intro name' target same
    cases same
    exact ⟨rfl, h.target? allowed⟩
  | scalar anchor tag text quoting =>
    rw [kind] at taken
    cases taken
    exact h.add rooted anchor _ _ _ (by rintro ⟨⟩ rfl; rfl) (by rintro _ _ ⟨⟩)
  | sequenceStart anchor tag frame =>
    rw [kind] at taken
    cases taken
    exact h.enter rooted anchor e frame (by rintro ⟨⟩ rfl; rfl) (by rintro _ _ ⟨⟩)
  | mappingStart anchor tag frame =>
    rw [kind] at taken
    cases taken
    exact h.enter rooted anchor e frame (by rintro ⟨⟩ rfl; rfl) (by rintro _ _ ⟨⟩)
  | sequenceEnd =>
    rw [kind] at taken
    cases taken
    exact h.close e.stop
  | mappingEnd =>
    rw [kind] at taken
    cases taken
    exact h.close e.stop
  | streamStart =>
    rw [kind] at taken
    cases taken
    exact h
  | streamEnd =>
    rw [kind] at taken
    cases taken
    exact h
  | documentEnd =>
    rw [kind] at taken
    cases taken
    exact h

/-- Events that fit what is open. -/
theorem steps {slots slots' : List Slot} {events : List Event} (h : Related b)
    (nested : Nested slots b) {b' : Builder} (taken : events.foldlM Builder.step b = .ok b')
    (moves : Event.moves slots events = some slots') : Related b' := by
  induction events generalizing b slots with
  | nil =>
    cases taken
    exact h
  | cons e events ih =>
    rw [List.foldlM_cons] at taken
    obtain ⟨c, first, taken⟩ := bind_eq_ok.mp taken
    rw [Event.moves, List.foldlM_cons] at moves
    obtain ⟨between, move, moves⟩ := Option.bind_eq_some_iff.mp moves
    refine ih (h.step ?_ first) (nested.step first move) taken moves
    intro empty
    have spine := nested.spine
    cases stack : b.stack with
    | nil => rfl
    | cons o r =>
      rw [stack] at spine
      have start := spine.1.le
      omega

end Related

theorem Builder.lenient_step {b b' : Builder} {e : Event} (taken : b.step e = .ok b') :
    b'.lenient = b.lenient := by
  rw [Builder.step] at taken
  obtain ⟨_, -, taken⟩ := bind_eq_ok.mp taken
  split at taken
  case h_1 =>
    obtain ⟨-, taken⟩ := guard_eq_ok.mp taken
    cases taken
    rfl
  case h_2 =>
    obtain ⟨-, taken⟩ := guard_eq_ok.mp taken
    cases taken
    rfl
  case h_6 | h_7 =>
    cases taken
    rw [Builder.close]
    split <;> rfl
  all_goals
    cases taken
    rfl

theorem Builder.lenient_steps {events : List Event} {b b' : Builder}
    (taken : events.foldlM Builder.step b = .ok b') : b'.lenient = b.lenient := by
  induction events generalizing b with
  | nil =>
    cases taken
    rfl
  | cons e events ih =>
    rw [List.foldlM_cons] at taken
    obtain ⟨c, first, taken⟩ := bind_eq_ok.mp taken
    exact (ih taken).trans (lenient_step first)

/-- The nodes of a tree come from a builder whose nodes are related. -/
theorem related_of_compose {s : Text} {lenient : Bool} {t : Tree} (h : compose s lenient = .ok t) :
    ∃ b : Builder, Related b ∧ b.nodes = t.nodes ∧ b.lenient = lenient := by
  obtain ⟨b, taken, whole, rfl⟩ := exists_of_compose h
  have none : ∀ {n : Node} {i : Nat}, (#[] : Array Node)[i]? = some n → False := by
    intro n i h
    cases h
  have start : Related { text := s, lenient } := by
    refine ⟨?_, ?_, ?_, List.forall_mem_nil _, ?_, ?_, ?_⟩
    · exact fun i n h => (none h).elim
    · exact fun n h => (none h).elim
    · exact fun i n h => (none h).elim
    · exact fun i n h => (none h).elim
    · exact fun i n h => (none h).elim
    · exact fun name k hk => absurd hk (Nat.not_lt_zero k)
  have nested : Nested [] { text := s, lenient } := ⟨.outside, .inl rfl, fun _ => ⟨rfl, rfl⟩⟩
  exact ⟨b, start.steps nested taken (EventFeed.moves_ofText whole), rfl,
    Builder.lenient_steps taken⟩

/-- What the aliases of a text stand for. -/
theorem aims_of_compose {s : Text} {lenient : Bool} {t : Tree} (h : compose s lenient = .ok t)
    {i : Nat} {n : Node} (here : t.node? i = some n) {name : Text} {target : Option (Nat × Tag)}
    (body : n.body = .aliasOf name target) : Aims t.nodes lenient i name target := by
  obtain ⟨b, related, nodes, rfl⟩ := related_of_compose h
  exact nodes ▸ related.aims i n (nodes ▸ here) name target body

/-! ## The whole tree -/

/-- A row of nodes that is a tree: with the first node on top, every other one once among the children
of one earlier node, below every node the row of what it holds, and aliases of the last node with
their name. -/
structure WellFormed (lenient : Bool) (t : Tree) : Prop where
  index : ∀ i, ∀ n ∈ t.node? i, n.index = i
  root : ∃ n ∈ t.root?, n.index = 0 ∧ n.parent = none
  parent : ∀ i, ∀ n ∈ t.node? i, 0 < i → ∃ p < i, n.parent = some p ∧ ∃ c ∈ t.node? p,
    (c.kind = .sequence ∨ c.kind = .mapping) ∧ c.children.count i = 1 ∧
      ∀ q, ∀ d ∈ t.node? q, i ∈ d.children → q = p
  below : ∀ i, ∀ n ∈ t.node? i, ∃ stop ≤ t.nodes.size, i < stop ∧
    ∀ j, ∀ m ∈ t.node? j, t.Inside n m ↔ i ≤ j ∧ j < stop
  aims : ∀ i, ∀ n ∈ t.node? i, ∀ name target, n.body = .aliasOf name target →
    Aims t.nodes lenient i name target

theorem kind_of_mem_children {n : Node} {c : Nat} (h : c ∈ n.children) :
    n.kind = .sequence ∨ n.kind = .mapping := by
  obtain ⟨index, parent, anchor, start, stop, content, body⟩ := n
  cases body with
  | sequence tag frame items => exact .inl rfl
  | mapping tag frame pairs => exact .inr rfl
  | scalar tag text quoting => cases h
  | aliasOf name target => cases h

/-- The tree of a text with a document is well formed. -/
theorem wellFormed_of_compose {s : Text} {lenient : Bool} {t : Tree}
    (h : compose s lenient = .ok t) (rooted : t.root?.isSome) : t.WellFormed lenient := by
  obtain ⟨b, related, nodes, rfl⟩ := related_of_compose h
  obtain ⟨root, first⟩ := Option.isSome_iff_exists.mp rooted
  have some_ : 0 < t.nodes.size := (Array.getElem?_eq_some_iff.mp first).1
  have row : Row t.nodes 0 [0] t.nodes.size := (row_of_compose h).resolve_left (by omega)
  have index : ∀ i n, t.node? i = some n → n.index = i := by
    intro i n found
    exact related.index i n (nodes ▸ found)
  have children : ∀ i n, t.node? i = some n → Lists t.nodes i n.children := by
    intro i n found
    exact nodes ▸ related.children i n (nodes ▸ found)
  have placed : ∀ i n, t.node? i = some n → ∃ stop ≤ t.nodes.size, Row t.nodes i [i] stop := by
    intro i n found
    exact row.at_ (Nat.zero_le i) (Array.getElem?_eq_some_iff.mp found).1
  refine ⟨fun i n found => index i n found, ?_, ?_, ?_, ?_⟩
  · exact ⟨root, first, index 0 root first, related.root root (nodes ▸ first)⟩
  · intro i n found later
    have inside := (Array.getElem?_eq_some_iff.mp found).1
    rcases row.listed (Nat.zero_le i) inside with alone | ⟨p, c, -, before, there, child⟩
    · rw [List.mem_singleton.mp alone] at later
      cases later
    · obtain ⟨stop, -, part⟩ := placed p c there
      obtain ⟨c', same, below⟩ := part.children
      cases there.symm.trans same
      have parent : ∀ q d, t.node? q = some d → i ∈ d.children → n.parent = some q := by
        intro q d known listed
        obtain ⟨m, at', parent⟩ := children q d known i listed
        cases found.symm.trans at'
        exact parent
      have mine := parent p c there child
      refine ⟨p, before, mine, c, there, kind_of_mem_children child, ?_, ?_⟩
      · exact List.count_eq_one_of_mem (below.pairwise.imp Nat.ne_of_lt) child
      · intro q d known listed
        exact Option.some.inj ((parent q d known listed).symm.trans mine)
  · intro i n found
    obtain ⟨stop, bound, part⟩ := placed i n found
    obtain ⟨_, _, below⟩ := part.children
    refine ⟨stop, bound, below.le, ?_⟩
    intro j m there
    exact part.inside_iff found index there
  · intro i n found name target body
    exact nodes ▸ related.aims i n (nodes ▸ found) name target body

/-- An alias inside of its own anchor, one of a name that comes later, and one of a name that was
given twice. -/
def rebound : Text :=
  "- &x [*x, *y]\n- &x {k: &y 1}\n- *x".toList

theorem wellFormed_rebound : ∃ t, compose rebound true = .ok t ∧ t.nodes.size = 8 ∧
    t.root?.isSome ∧ t.WellFormed true := by
  have eight : (compose rebound true).toOption.any (fun t => t.nodes.size == 8) = true := by
    decide +kernel
  cases composed : compose rebound true with
  | error e =>
    rw [composed] at eight
    cases eight
  | ok t =>
    rw [composed] at eight
    have size : t.nodes.size = 8 := by simpa [Except.toOption] using eight
    have rooted : t.root?.isSome := by
      simp [root?, node?, size]
    exact ⟨t, rfl, size, rooted, wellFormed_of_compose composed rooted⟩

end Tree

end YamlEdit
