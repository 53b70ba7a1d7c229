import Mathlib.Algebra.BigOperators.Intervals
import YamlEdit.Proofs.Event.Nesting
import YamlEdit.Proofs.Tree.Graph

/-!
# Trees come in the order of a search

A node of the row stands before its children, and these before what comes next in the collection
around it. So the search that follows children and aliases from the first node meets the nodes in
the order of the row, and an alias only ever leads to a node that was met before.

The order holds because the events of a text are nested: what is open in the builder is what is open
in the row of events, and a mapping that ends has a value for every key.
-/

namespace YamlEdit.Tree

/-- The nodes from one place to before another are those listed, each followed by its children. -/
inductive Row (nodes : Array Node) : Nat → List Nat → Nat → Prop
  | nil (i : Nat) : Row nodes i [] i
  | cons {i j k : Nat} {n : Node} {rest : List Nat} (here : nodes[i]? = some n)
    (below : Row nodes (i + 1) n.children j) (after : Row nodes j rest k) :
    Row nodes i (i :: rest) k

namespace Row

variable {nodes : Array Node} {i j k : Nat} {l m : List Nat}

theorem le (h : Row nodes i l k) : i ≤ k := by
  induction h with
  | nil i => exact Nat.le_refl i
  | cons _ _ _ below after => omega

theorem append (h : Row nodes i l j) (h' : Row nodes j m k) : Row nodes i (l ++ m) k := by
  induction h with
  | nil i => exact h'
  | cons here below _ _ ih => exact .cons here below (ih h')

/-- Rows with the same nodes in between. -/
theorem congr {more : Array Node} (h : Row nodes i l k)
    (same : ∀ place, i ≤ place → place < k → more[place]? = nodes[place]?) : Row more i l k := by
  induction h with
  | nil i => exact .nil i
  | @cons i j k n rest here below after ihBelow ihAfter =>
    have first := below.le
    have second := after.le
    refine .cons ((same i (Nat.le_refl i) (by omega)).trans here) (ihBelow ?_) (ihAfter ?_)
    · intro place low high
      exact same place (by omega) (by omega)
    · intro place low high
      exact same place (by omega) high

end Row

/-! ## Counting children -/

/-- The number of children of a node. -/
def fanOut (t : Tree) (i : Nat) : Nat :=
  match t.node? i with
  | some n => n.children.length
  | none => 0

theorem childCount_eq (t : Tree) : t.childCount = ∑ i ∈ Finset.range t.nodes.size, t.fanOut i := by
  have listed : t.nodes.toList.map (fun n => n.children.length) =
      (List.range t.nodes.size).map t.fanOut := by
    refine List.ext_getElem (by simp) ?_
    intro i inside _
    have inside : i < t.nodes.size := by simpa using inside
    simp [fanOut, node?, inside]
  rw [childCount, List.length_flatMap, listed]
  rfl

/-- A row has as many places as children and starts. -/
theorem Row.sum_fanOut {t : Tree} {i k : Nat} {l : List Nat} (row : Row t.nodes i l k) :
    (∑ x ∈ Finset.Ico i k, t.fanOut x) + l.length + i = k := by
  induction row with
  | nil i => simp
  | @cons i j k n rest here below after ihBelow ihAfter =>
    have first := below.le
    have second := after.le
    have mine : t.fanOut i = n.children.length := by
      rw [fanOut, show t.node? i = some n from here]
    rw [Finset.sum_eq_sum_Ico_succ_bot (by omega), mine,
      ← Finset.sum_Ico_consecutive t.fanOut first second, List.length_cons]
    omega

/-- In a tree every node but the first is a child once. -/
theorem Row.childCount {t : Tree} (row : Row t.nodes 0 [0] t.nodes.size) :
    t.childCount + 1 = t.nodes.size := by
  have sum := row.sum_fanOut
  rw [childCount_eq, ← Nat.Ico_zero_eq_range]
  simpa using sum

/-! ## The search -/

theorem target?_of_link {t : Tree} {n : Node} {i : Nat} (h : n.link? = some (some i)) :
    t.target? n = t.node? i ∧ n.children = [] := by
  obtain ⟨index, parent, anchor, start, stop, content, body⟩ := n
  cases body with
  | scalar tag text quoting => cases h
  | sequence tag frame items => cases h
  | mapping tag frame pairs => cases h
  | aliasOf name target =>
    obtain ⟨⟨j, tag⟩, rfl, rfl⟩ := Option.map_eq_some_iff.mp (Option.some.inj h)
    exact ⟨rfl, rfl⟩

/-- The search takes the nodes of a row one by one. -/
theorem reachable_row {nodes : Array Node} (sound : Sound nodes) (text : Text) {i k : Nat}
    {l : List Nat} (h : Row nodes i l k) (steps : Nat) (pending : List Nat) :
    Graph.reachable ⟨text, nodes⟩ (steps + (k - i)) (l ++ pending) (own nodes i) =
      Graph.reachable ⟨text, nodes⟩ steps pending (own nodes k) := by
  induction h generalizing steps pending with
  | nil i => rw [Nat.sub_self, Nat.add_zero, List.nil_append]
  | @cons i j k n rest here below after ihBelow ihAfter =>
    have first := below.le
    have second := after.le
    have split : steps + (k - i) = steps + (k - j) + (j - (i + 1)) + 1 := by omega
    rw [split, List.cons_append, Graph.reachable, ← ihAfter, ← ihBelow]
    have node : (⟨text, nodes⟩ : Tree).node? i = some n := here
    rw [node, Option.bind_some]
    cases link : n.link? with
    | none =>
      have alone : n.isAlias = false := Node.link?_eq_none.mp link
      have mine : isOwn nodes i = true := isOwn_iff.mpr ⟨n, here, alone⟩
      have fresh : (own nodes i).contains n.index = false := by
        rw [sound.index i n here, List.contains_eq_mem, decide_eq_false_iff_not]
        exact fun again => Nat.lt_irrefl i (mem_own.mp again).1
      rw [target?_of_not_alias alone]
      dsimp only
      rw [fresh, if_neg Bool.false_ne_true, sound.index i n here, own_succ, if_pos mine]
    | some target =>
      obtain ⟨aim, rfl, before, mine⟩ := sound.link i n here target link
      obtain ⟨m, there, -⟩ := isOwn_iff.mp mine
      obtain ⟨leads, childless⟩ := target?_of_link (t := ⟨text, nodes⟩) link
      have node : (⟨text, nodes⟩ : Tree).node? aim = some m := there
      have met : (own nodes i).contains m.index = true := by
        rw [sound.index aim m there, List.contains_eq_mem, decide_eq_true_iff]
        exact mem_own.mpr ⟨before, mine⟩
      have other : isOwn nodes i = false := by
        rw [isOwn, here, Option.map_some, link]
        rfl
      rw [leads, node, childless]
      dsimp only
      rw [met, if_pos rfl, own_succ, other, if_neg Bool.false_ne_true, List.append_nil,
        List.nil_append]

/-- A tree in a row is searched in the order of the row. -/
theorem reachable_eq {t : Tree} (sound : Sound t.nodes) (row : Row t.nodes 0 [0] t.nodes.size) :
    Graph.reachable t (t.childCount + 2) [0] [] = .ok (own t.nodes t.nodes.size) := by
  have search := reachable_row sound t.text row 1 []
  have steps : 1 + (t.nodes.size - 0) = t.childCount + 2 := by
    have size := row.childCount
    omega
  rw [steps, List.append_nil] at search
  exact search

theorem flatMap_pairUp : ∀ {l : List Nat}, l.length % 2 = 0 →
    (Node.pairUp l).flatMap (fun p => [p.1, p.2]) = l
  | [], _ => rfl
  | [_], odd => nomatch odd
  | k :: v :: r, even => by
    rw [Node.pairUp, List.flatMap_cons, flatMap_pairUp (l := r) ((Nat.add_mod_right r.length 2).symm.trans even)]
    rfl

/-! ## Building a row

A collection that is open has the children so far, each followed by its own; the last of these may be
open itself. -/

/-- The collections around a place, innermost first; the place is the last child so far of the
first one. -/
def Around (nodes : Array Node) : List Open → Nat → Prop
  | [], i => i = 0
  | o :: r, i =>
    (∃ before, o.children = i :: before ∧ Row nodes (o.index + 1) before.reverse i) ∧
      Around nodes r o.index

/-- The open collections, innermost first, in a row that goes up to a place. -/
def Spine (nodes : Array Node) : List Open → Nat → Prop
  | [], stop => stop = 0 ∨ Row nodes 0 [0] stop
  | o :: r, stop => Row nodes (o.index + 1) o.children.reverse stop ∧ Around nodes r o.index

/-- What is open in a builder is what is open in the row of events. -/
inductive Fits (nodes : Array Node) : List Slot → List Open → Prop
  | outside : Fits nodes [] []
  | document {full : Bool} (rooted : full = true ∨ nodes.size = 0) : Fits nodes [.document full] []
  | sequence {o : Open} {slots : List Slot} {stack : List Open}
    (kind : (nodes[o.index]?).map Node.kind = some .sequence) (below : Fits nodes slots stack) :
    Fits nodes (.sequence :: slots) (o :: stack)
  | mapping {o : Open} {slots : List Slot} {stack : List Open} {odd : Bool}
    (kind : (nodes[o.index]?).map Node.kind = some .mapping)
    (count : o.children.length % 2 = odd.toNat) (below : Fits nodes slots stack) :
    Fits nodes (.mapping odd :: slots) (o :: stack)

/-- A builder behind nested events. -/
structure Nested (slots : List Slot) (b : Builder) : Prop where
  fits : Fits b.nodes slots b.stack
  spine : Spine b.nodes b.stack b.nodes.size
  unstarted : b.started = false → slots = [] ∧ b.nodes.size = 0

theorem Around.congr {nodes more : Array Node} {stack : List Open} {i : Nat}
    (h : Around nodes stack i) (same : ∀ place < i, more[place]? = nodes[place]?) :
    Around more stack i := by
  induction stack generalizing i with
  | nil => exact h
  | cons o r ih =>
    obtain ⟨⟨before, children, row⟩, around⟩ := h
    have inside := row.le
    refine ⟨⟨before, children, row.congr fun place _ high => same place high⟩, ih around ?_⟩
    intro place low
    exact same place (by omega)

theorem Fits.extend {nodes more : Array Node} (grown : Extends nodes more)
    (kept : nodes.size = 0 → more.size = 0) {slots : List Slot} {stack : List Open}
    (h : Fits nodes slots stack) : Fits more slots stack := by
  have kinds : ∀ {i : Nat} {kind : Node.Kind}, (nodes[i]?).map Node.kind = some kind →
      (more[i]?).map Node.kind = some kind := by
    intro i kind known
    obtain ⟨n, here, -⟩ := Option.map_eq_some_iff.mp known
    rw [grown.kinds i (Array.getElem?_eq_some_iff.mp here).1]
    exact known
  induction h with
  | outside => exact .outside
  | document rooted => exact .document (rooted.imp id kept)
  | sequence kind _ ih => exact .sequence (kinds kind) ih
  | mapping kind count _ ih => exact .mapping (kinds kind) count ih

/-- The innermost slot gets a child. -/
theorem Fits.fill {nodes : Array Node} {slot filled : Slot} {slots : List Slot} {stack : List Open}
    (h : Fits nodes (slot :: slots) stack) (same : slot.filled? = some filled) (n : Node) :
    Fits (nodes.push n) (filled :: slots) (Builder.addChild nodes.size stack) := by
  have grown : Extends nodes (nodes.push n) := .push nodes n
  have some_ : ∀ {i : Nat} {kind : Node.Kind}, (nodes[i]?).map Node.kind = some kind →
      i < nodes.size := by
    intro i kind known
    obtain ⟨n, here, -⟩ := Option.map_eq_some_iff.mp known
    exact (Array.getElem?_eq_some_iff.mp here).1
  cases h with
  | @document full rooted =>
    cases full with
    | true => cases same
    | false =>
      cases same
      exact .document (.inl rfl)
  | sequence kind below =>
    cases same
    have inside := some_ kind
    exact .sequence ((grown.kinds _ inside).trans kind) (below.extend grown (by omega))
  | @mapping o _ _ odd kind count below =>
    cases same
    have inside := some_ kind
    refine .mapping ((grown.kinds _ inside).trans kind) ?_ (below.extend grown (by omega))
    rw [List.length_cons, Nat.add_mod, count]
    cases odd <;> rfl

/-- The innermost collection ends: its node gets the children that were met. -/
theorem Fits.closed {nodes : Array Node} {slot : Slot} {slots : List Slot} {o : Open}
    {stack : List Open} (h : Fits nodes (slot :: slots) (o :: stack))
    (even : slot = .sequence ∨ slot = .mapping false) (stop : Mark) :
    let f : Node → Node := fun n => { n with stop, body := Builder.fill o.children.reverse n.body }
    ∃ n, nodes[o.index]? = some n ∧ (nodes.modify o.index f)[o.index]? = some (f n) ∧
      (f n).children = o.children.reverse ∧ Fits nodes slots stack := by
  intro f
  have there : ∀ n, nodes[o.index]? = some n → (nodes.modify o.index f)[o.index]? = some (f n) := by
    intro n here
    rw [Array.getElem?_modify, if_pos rfl, here]
    rfl
  cases h with
  | sequence kind below =>
    obtain ⟨⟨index, parent, anchor, start, stop', content, body⟩, here, kind⟩ :=
      Option.map_eq_some_iff.mp kind
    refine ⟨_, here, there _ here, ?_, below⟩
    cases body with
    | sequence tag frame items => rfl
    | scalar tag text quoting => cases kind
    | mapping tag frame pairs => cases kind
    | aliasOf name target => cases kind
  | @mapping _ _ _ odd kind count below =>
    obtain ⟨⟨index, parent, anchor, start, stop', content, body⟩, here, kind⟩ :=
      Option.map_eq_some_iff.mp kind
    refine ⟨_, here, there _ here, ?_, below⟩
    cases body with
    | mapping tag frame pairs =>
      refine flatMap_pairUp ?_
      rw [List.length_reverse, count]
      rcases even with even | even <;> cases even
      rfl
    | scalar tag text quoting => cases kind
    | sequence tag frame items => cases kind
    | aliasOf name target => cases kind

namespace Nested

variable {b : Builder} {slot filled : Slot} {slots : List Slot}

/-- A node without children, as far as it goes. -/
theorem add (h : Nested (slot :: slots) b) (same : slot.filled? = some filled)
    (anchor : Option Text) (start stop content : Mark) {body : Node.Body}
    (childless : ∀ n : Node, n.body = body → n.children = []) :
    Nested (filled :: slots) (b.add anchor start stop content body) ∧
      Around (b.add anchor start stop content body).nodes
        (b.add anchor start stop content body).stack b.nodes.size := by
  let n : Node :=
    { index := b.nodes.size, parent := b.stack.head?.map (·.index), anchor, start, stop, content
      body }
  have kept : ∀ i < b.nodes.size, (b.nodes.push n)[i]? = b.nodes[i]? := by
    intro i inside
    rw [Array.getElem?_push, if_neg (by omega)]
  have single : Row (b.nodes.push n) b.nodes.size [b.nodes.size] (b.nodes.size + 1) := by
    refine .cons (n := n) Array.getElem?_push_size ?_ (.nil _)
    rw [childless n rfl]
    exact .nil _
  have size : (b.nodes.push n).size = b.nodes.size + 1 := Array.size_push ..
  have started : b.started = true := by
    cases started : b.started with
    | true => rfl
    | false => cases (h.unstarted started).1
  have fits := h.fits.fill same n
  have spine := h.spine
  have unstarted : b.started = false → filled :: slots = [] ∧ (b.nodes.push n).size = 0 := by
    intro off
    rw [started] at off
    cases off
  cases stack : b.stack with
  | nil =>
    have empty : b.nodes.size = 0 := by
      have bottom := h.fits
      rw [stack] at bottom
      cases bottom with
      | document rooted =>
        rcases rooted with rfl | empty
        · cases same
        · exact empty
    refine ⟨⟨fits, ?_, unstarted⟩, ?_⟩
    · show Spine (b.nodes.push n) (Builder.addChild b.nodes.size b.stack) (b.nodes.push n).size
      rw [stack, size]
      rw [empty] at single ⊢
      exact .inr single
    · show Around (b.nodes.push n) (Builder.addChild b.nodes.size b.stack) b.nodes.size
      rw [stack]
      exact empty
  | cons o r =>
    rw [stack] at spine
    obtain ⟨row, around⟩ := spine
    have below := row.le
    have row := row.congr fun place _ high => kept place high
    have around := around.congr fun place high => kept place (by omega)
    refine ⟨⟨fits, ?_, unstarted⟩, ?_⟩
    · show Spine (b.nodes.push n) (Builder.addChild b.nodes.size b.stack) (b.nodes.push n).size
      rw [stack, size]
      refine ⟨?_, around⟩
      show Row _ (o.index + 1) (b.nodes.size :: o.children).reverse _
      rw [List.reverse_cons]
      exact row.append single
    · show Around (b.nodes.push n) (Builder.addChild b.nodes.size b.stack) b.nodes.size
      rw [stack]
      exact ⟨⟨o.children, rfl, row⟩, around⟩

/-- A collection that stays open. -/
theorem enter (h : Nested (slot :: slots) b) (same : slot.filled? = some filled)
    (anchor : Option Text) (e : Event) (frame : Frame) {body : Node.Body} {inner : Slot}
    (childless : ∀ n : Node, n.body = body → n.children = [])
    (kind : ∀ n : Node, n.body = body → inner = .sequence ∧ n.kind = .sequence ∨
      inner = .mapping false ∧ n.kind = .mapping) :
    Nested (inner :: filled :: slots) (b.enter anchor e frame body) := by
  obtain ⟨added, around⟩ := h.add same anchor e.start e.start
    (Span.markAt b.text (Span.collectionContent b.text (frame == .flow) e.stop.index) e.stop)
    childless
  let n : Node :=
    { index := b.nodes.size, parent := b.stack.head?.map (·.index), anchor, start := e.start
      stop := e.start
      content := Span.markAt b.text
        (Span.collectionContent b.text (frame == .flow) e.stop.index) e.stop
      body }
  refine ⟨?_, ⟨?_, around⟩, ?_⟩
  · have here : (b.nodes.push n)[b.nodes.size]? = some n := Array.getElem?_push_size
    rcases kind n rfl with ⟨rfl, known⟩ | ⟨rfl, known⟩
    · exact .sequence ((congrArg (Option.map Node.kind) here).trans (congrArg some known)) added.fits
    · exact .mapping ((congrArg (Option.map Node.kind) here).trans (congrArg some known)) rfl
        added.fits
  · show Row (b.nodes.push n) (b.nodes.size + 1) [] (b.nodes.push n).size
    rw [Array.size_push]
    exact .nil _
  · intro off
    cases (added.unstarted off).1

/-- A collection that ends, a mapping with as many values as keys. -/
theorem close (h : Nested (slot :: slots) b) (even : slot = .sequence ∨ slot = .mapping false)
    (stop : Mark) : Nested slots (b.close stop) := by
  obtain ⟨fits, spine, unstarted⟩ := h
  rw [Builder.close]
  cases stack : b.stack with
  | nil =>
    rw [stack] at fits
    cases fits with
    | document rooted => rcases even with even | even <;> cases even
  | cons o r =>
    rw [stack] at fits spine
    obtain ⟨row, around⟩ := spine
    let f : Node → Node := fun n => { n with stop, body := Builder.fill o.children.reverse n.body }
    have size : (b.nodes.modify o.index f).size = b.nodes.size := Array.size_modify ..
    obtain ⟨n, -, here, children, below⟩ := fits.closed even stop
    have kept : ∀ i, i ≠ o.index → (b.nodes.modify o.index f)[i]? = b.nodes[i]? := by
      intro i other
      rw [Array.getElem?_modify, if_neg (Ne.symm other)]
    have single : Row (b.nodes.modify o.index f) o.index [o.index] b.nodes.size := by
      refine .cons here ?_ (.nil _)
      rw [children]
      exact row.congr fun place low _ => kept place (by omega)
    have around := around.congr fun place high => kept place (by omega)
    have grown : Extends b.nodes (b.nodes.modify o.index f) := by
      refine .modify b.nodes o.index ?_ ?_
      · rintro ⟨index, parent, anchor, start, stop', content, body⟩
        cases body <;> rfl
      · rintro ⟨index, parent, anchor, start, stop', content, body⟩
        cases body <;> rfl
    refine ⟨below.extend grown (fun empty => size.trans empty), ?_, ?_⟩
    · show Spine (b.nodes.modify o.index f) r (b.nodes.modify o.index f).size
      rw [size]
      cases r with
      | nil =>
        have bottom : o.index = 0 := around
        rw [bottom] at single ⊢
        exact .inr single
      | cons p r =>
        obtain ⟨⟨before, children, row⟩, around⟩ := around
        refine ⟨?_, around⟩
        rw [children, List.reverse_cons]
        exact row.append single
    · intro off
      obtain ⟨none, -⟩ := unstarted off
      cases none

/-- The start of a document, before which there are no nodes, and its end. -/
theorem start (h : Nested [] b) (first : b.started = false) :
    Nested [.document false] { b with started := true } := by
  obtain ⟨-, empty⟩ := h.unstarted first
  have stack : b.stack = [] := by
    have fits := h.fits
    cases stack : b.stack with
    | nil => rfl
    | cons o r => rw [stack] at fits; cases fits
  refine ⟨?_, h.spine, nofun⟩
  show Fits b.nodes [.document false] b.stack
  rw [stack]
  exact .document (.inr empty)

theorem stop (h : Nested [.document true] b) : Nested [] b := by
  have stack : b.stack = [] := by
    have fits := h.fits
    cases stack : b.stack with
    | nil => rfl
    | cons o r => rw [stack] at fits; cases fits
  refine ⟨?_, h.spine, fun off => nomatch (h.unstarted off).1⟩
  rw [stack]
  exact .outside

/-- One event that fits what is open. -/
theorem step (h : Nested slots b) {e : Event} {b' : Builder} (taken : b.step e = .ok b')
    {slots' : List Slot} (move : e.kind.move slots = some slots') : Nested slots' b' := by
  rw [Builder.step] at taken
  obtain ⟨_, -, taken⟩ := bind_eq_ok.mp taken
  cases kind : e.kind with
  | documentStart =>
    rw [kind] at taken move
    obtain ⟨first, taken⟩ := guard_eq_ok.mp taken
    cases taken
    cases slots with
    | nil =>
      cases move
      exact h.start (Bool.eq_false_iff.mpr first)
    | cons slot r => cases move
  | documentEnd =>
    rw [kind] at taken move
    cases taken
    match slots, move with
    | [.document true], rfl => exact h.stop
  | aliasOf name =>
    rw [kind] at taken move
    obtain ⟨-, taken⟩ := guard_eq_ok.mp taken
    cases taken
    cases slots with
    | nil => cases move
    | cons slot r =>
      obtain ⟨filled, same, rfl⟩ := Option.map_eq_some_iff.mp move
      exact (h.add same none _ _ _ (by rintro ⟨⟩ rfl; rfl)).1
  | scalar anchor tag text quoting =>
    rw [kind] at taken move
    cases taken
    cases slots with
    | nil => cases move
    | cons slot r =>
      obtain ⟨filled, same, rfl⟩ := Option.map_eq_some_iff.mp move
      exact (h.add same anchor _ _ _ (by rintro ⟨⟩ rfl; rfl)).1
  | sequenceStart anchor tag frame =>
    rw [kind] at taken move
    cases taken
    cases slots with
    | nil => cases move
    | cons slot r =>
      obtain ⟨filled, same, rfl⟩ := Option.map_eq_some_iff.mp move
      exact h.enter same anchor e frame (by rintro ⟨⟩ rfl; rfl)
        (by rintro ⟨⟩ rfl; exact .inl ⟨rfl, rfl⟩)
  | mappingStart anchor tag frame =>
    rw [kind] at taken move
    cases taken
    cases slots with
    | nil => cases move
    | cons slot r =>
      obtain ⟨filled, same, rfl⟩ := Option.map_eq_some_iff.mp move
      exact h.enter same anchor e frame (by rintro ⟨⟩ rfl; rfl)
        (by rintro ⟨⟩ rfl; exact .inr ⟨rfl, rfl⟩)
  | sequenceEnd =>
    rw [kind] at taken move
    cases taken
    cases Event.Kind.move_sequenceEnd move
    exact h.close (.inl rfl) e.stop
  | mappingEnd =>
    rw [kind] at taken move
    cases taken
    cases Event.Kind.move_mappingEnd move
    exact h.close (.inr rfl) e.stop
  | streamStart =>
    rw [kind] at taken move
    cases taken
    cases move
    exact h
  | streamEnd =>
    rw [kind] at taken move
    cases taken
    cases move
    exact h

/-- Events that fit what is open. -/
theorem steps {events : List Event} (h : Nested slots b) {b' : Builder}
    (taken : events.foldlM Builder.step b = .ok b') {slots' : List Slot}
    (moves : Event.moves slots events = some slots') : Nested slots' b' := by
  induction events generalizing b slots with
  | nil =>
    cases taken
    cases moves
    exact h
  | cons e events ih =>
    rw [List.foldlM_cons] at taken
    obtain ⟨c, first, taken⟩ := bind_eq_ok.mp taken
    rw [Event.moves, List.foldlM_cons] at moves
    obtain ⟨between, move, moves⟩ := Option.bind_eq_some_iff.mp moves
    exact ih (h.step first move) taken moves

end Nested

/-- The nodes of a tree come in a row: the first one, each followed by its children. -/
theorem row_of_compose {s : Text} {lenient : Bool} {t : Tree} (h : compose s lenient = .ok t) :
    t.nodes.size = 0 ∨ Row t.nodes 0 [0] t.nodes.size := by
  obtain ⟨b, taken, whole, rfl⟩ := exists_of_compose h
  have start : Nested [] { text := s, lenient } := ⟨.outside, .inl rfl, fun _ => ⟨rfl, rfl⟩⟩
  have nested := start.steps taken (EventFeed.moves_ofText whole)
  obtain ⟨fits, spine, -⟩ := nested
  cases stack : b.stack with
  | nil =>
    rw [stack] at spine
    exact spine
  | cons o r =>
    rw [stack] at fits
    cases fits

end YamlEdit.Tree
