import YamlEdit.Proofs.Outcome
import YamlEdit.Proofs.Tree.WellFormed

/-!
# Extents of nodes

Where the events of a text come in the order of the text, its nodes do: what is inside of a node lies
between the two ends of the node, and children lie one behind another. The end of a block collection
is only where the next token begins, and what is written for it ends with the last node inside, which
following last children finds in as many steps as there are nodes.

The row of a tree (`Row`) orders nodes by place. Here the same row is read with positions of the text
beside the places (`Spans`), and it is built along with the tree: a collection that is open has begun,
and the children that it has so far end before the position of the events.
-/

namespace YamlEdit

/-- Events in the order of the text: each ends at or behind its start, and the next one starts there
or later. -/
structure Event.InOrder (events : List Event) : Prop where
  range : ∀ e ∈ events, e.start.index ≤ e.stop.index
  apart : events.IsChain fun e f => e.stop.index ≤ f.start.index

instance (events : List Event) : Decidable (Event.InOrder events) :=
  decidable_of_iff (_ ∧ _) ⟨fun ⟨range, apart⟩ => ⟨range, apart⟩, fun h => ⟨h.range, h.apart⟩⟩

theorem Event.InOrder.tail {e : Event} {events : List Event} (h : InOrder (e :: events)) :
    InOrder events ∧ ∀ f ∈ events.head?, e.stop.index ≤ f.start.index := by
  have range : ∀ f ∈ events, f.start.index ≤ f.stop.index :=
    fun f hf => h.range f (List.mem_cons_of_mem e hf)
  cases events with
  | nil => exact ⟨⟨range, .nil⟩, nofun⟩
  | cons f events =>
    obtain ⟨first, rest⟩ := List.isChain_cons_cons.mp h.apart
    refine ⟨⟨range, rest⟩, ?_⟩
    rintro _ ⟨⟩
    exact first

namespace Span

@[simp] theorem index_markAt (text : Text) (index : Nat) (near : Mark) :
    (markAt text index near).index = index := by
  unfold markAt
  split
  · next same => exact same.symm
  · dsimp only
    split <;> rfl

theorem le_withoutBlanks (text : Text) (start stop : Nat) : start ≤ withoutBlanks text start stop :=
  Nat.le_add_right ..

theorem withoutBlanks_le {text : Text} {start stop : Nat} (h : start ≤ stop) :
    withoutBlanks text start stop ≤ stop := by
  have shorter : (Text.dropEndWhile (Text.slice text start stop) isBlank).length ≤
      (Text.slice text start stop).length := by
    rw [Text.dropEndWhile, List.length_reverse]
    exact Nat.le_trans (List.dropWhile_suffix _).length_le (Nat.le_of_eq List.length_reverse)
  have bound := Text.length_slice_le text start stop
  rw [withoutBlanks]
  omega

end Span

namespace Tree

/-! ## Rows with positions -/

/-- The nodes from one place to before another are those listed, each followed by its children; they
lie one behind another between two positions of the text, and what is inside of a node lies between
the two ends of the node. -/
inductive Spans (nodes : Array Node) : Nat → Nat → List Nat → Nat → Nat → Prop
  | nil {i low high : Nat} (room : low ≤ high) : Spans nodes i low [] i high
  | cons {i j k low high : Nat} {n : Node} {rest : List Nat} (here : nodes[i]? = some n)
    (begins : low ≤ n.start.index)
    (below : Spans nodes (i + 1) n.start.index n.children j n.stop.index)
    (after : Spans nodes j n.stop.index rest k high) : Spans nodes i low (i :: rest) k high

namespace Spans

variable {nodes : Array Node} {i j k low mid high : Nat} {l m : List Nat}

theorem row (h : Spans nodes i low l k high) : Row nodes i l k := by
  induction h with
  | nil _ => exact .nil _
  | cons here _ _ _ ihBelow ihAfter => exact .cons here ihBelow ihAfter

theorem le (h : Spans nodes i low l k high) : low ≤ high := by
  induction h with
  | nil room => exact room
  | cons _ begins _ _ ihBelow ihAfter => omega

theorem mono {high' : Nat} (h : Spans nodes i low l k high) (wider : high ≤ high') :
    Spans nodes i low l k high' := by
  induction h with
  | nil room => exact .nil (Nat.le_trans room wider)
  | cons here begins below _ _ ihAfter => exact .cons here begins below (ihAfter wider)

theorem append (h : Spans nodes i low l j mid) (h' : Spans nodes j mid m k high) :
    Spans nodes i low (l ++ m) k high := by
  induction h with
  | @nil i low mid room =>
    cases h' with
    | nil room' => exact .nil (Nat.le_trans room room')
    | cons here begins below after => exact .cons here (Nat.le_trans room begins) below after
  | cons here begins below _ _ ihAfter => exact .cons here begins below (ihAfter h')

/-- Rows with the same nodes in between. -/
theorem congr {more : Array Node} (h : Spans nodes i low l k high)
    (same : ∀ place, i ≤ place → place < k → more[place]? = nodes[place]?) :
    Spans more i low l k high := by
  induction h with
  | nil room => exact .nil room
  | @cons i j k low high n rest here begins below after ihBelow ihAfter =>
    have first := below.row.le
    have second := after.row.le
    refine .cons ((same i (Nat.le_refl i) (by omega)).trans here) begins (ihBelow ?_) (ihAfter ?_)
    · intro place left right
      exact same place (by omega) (by omega)
    · intro place left right
      exact same place (by omega) right

/-- What is inside of a node at a place of the row. -/
theorem at_ (h : Spans nodes i low l k high) (left : i ≤ j) (right : j < k) :
    ∃ n stop, nodes[j]? = some n ∧ Spans nodes (j + 1) n.start.index n.children stop n.stop.index := by
  induction h with
  | nil _ => omega
  | @cons i j' k low high n rest here begins below after ihBelow ihAfter =>
    by_cases first : j = i
    · subst first
      exact ⟨n, j', here, below⟩
    by_cases inner : j < j'
    · exact ihBelow (by omega) inner
    · exact ihAfter (by omega) right

/-- A node that is listed lies between the two positions. -/
theorem listed (h : Spans nodes i low l k high) {c : Nat} (hc : c ∈ l) :
    ∃ n, nodes[c]? = some n ∧ low ≤ n.start.index ∧ n.stop.index ≤ high := by
  induction h with
  | nil _ => cases hc
  | @cons i j k low high n rest here begins below after _ ihAfter =>
    rcases List.mem_cons.mp hc with rfl | later
    · exact ⟨n, here, begins, after.le⟩
    · obtain ⟨m, found, starts, stops⟩ := ihAfter later
      have range := below.le
      exact ⟨m, found, by omega, stops⟩

/-- Of two nodes listed one behind the other, the first ends before the second starts. -/
theorem chain (h : Spans nodes i low l k high) :
    l.IsChain fun c d => ∀ n, nodes[c]? = some n → ∀ m, nodes[d]? = some m →
      n.stop.index ≤ m.start.index := by
  induction h with
  | nil _ => exact .nil
  | @cons i j k low high n rest here begins below after _ ihAfter =>
    cases after with
    | nil _ => exact .singleton _
    | cons here' begins' below' after' =>
      refine .cons_cons ?_ ihAfter
      intro n' found m' found'
      cases here.symm.trans found
      cases here'.symm.trans found'
      exact begins'

end Spans

/-! ## The last leaf -/

/-- The node that is written last in a node: following last children from block collections leads to
a scalar, an alias, a flow collection or an empty one. -/
inductive EndsWith (t : Tree) : Node → Node → Prop
  | leaf {n : Node} (closed : n.isFlow = true ∨ n.children = []) : EndsWith t n n
  | last {n m leaf : Node} {c : Nat} (block : n.isFlow = false) (last : n.children.getLast? = some c)
    (found : t.node? c = some m) (ends : EndsWith t m leaf) : EndsWith t n leaf

/-- Every node of a row ends with a leaf, which ends inside of the node. -/
theorem Spans.endsWith {t : Tree} {i k low high : Nat} {l : List Nat}
    (h : Spans t.nodes i low l k high) :
    ∀ c ∈ l.getLast?, ∃ n leaf, t.node? c = some n ∧ t.EndsWith n leaf ∧
      low ≤ leaf.stop.index ∧ leaf.stop.index ≤ high := by
  induction h with
  | nil _ => exact fun c hc => nomatch hc
  | @cons i j k low high n rest here begins below after ihBelow ihAfter =>
    intro c hc
    have range := below.le
    have room := after.le
    cases rest with
    | cons d rest =>
      obtain ⟨m, leaf, found, ends, starts, stops⟩ := ihAfter c (by simpa using hc)
      exact ⟨m, leaf, found, ends, by omega, stops⟩
    | nil =>
      cases hc
      by_cases closed : n.isFlow = true ∨ n.children = []
      · exact ⟨n, n, here, .leaf closed, by omega, room⟩
      · rw [not_or] at closed
        have hd := List.getLast?_eq_some_getLast closed.2
        obtain ⟨m, leaf, found, ends, starts, stops⟩ := ihBelow _ hd
        exact ⟨n, leaf, here, .last (by simpa using closed.1) hd found ends, by omega, by omega⟩

/-- The search for the last leaf finds it: every step leads to a later place. -/
theorem EndsWith.lastLeaf {t : Tree} {n leaf : Node} (h : t.EndsWith n leaf)
    (later : ∀ i n, t.node? i = some n → ∀ c ∈ n.children, i < c) {i steps : Nat}
    (here : t.node? i = some n) (enough : t.nodes.size ≤ steps + i) : t.lastLeaf steps n = leaf := by
  induction h generalizing i steps with
  | @leaf n closed =>
    cases steps with
    | zero => rfl
    | succ steps =>
      rw [Tree.lastLeaf]
      rcases closed with flow | none
      · rw [if_pos flow]
      · rw [none]
        exact ite_self n
  | @last n m leaf c block last found _ ih =>
    have inside := (Array.getElem?_eq_some_iff.mp here).1
    cases steps with
    | zero => omega
    | succ steps =>
      have further := later i n here c (List.mem_of_getLast? last)
      rw [Tree.lastLeaf, block, if_neg Bool.false_ne_true, last]
      dsimp only
      rw [found]
      exact ih found (by omega)

/-! ## Building -/

/-- Where the node at a place starts. -/
def startAt (nodes : Array Node) (i : Nat) : Nat :=
  (nodes[i]?).elim 0 (·.start.index)

/-- The collections around a place, innermost first; what they hold so far ends before the place. -/
def Encloses (nodes : Array Node) : List Open → Nat → Prop
  | [], i => i = 0
  | o :: r, i =>
    (∃ before, o.children = i :: before ∧
      Spans nodes (o.index + 1) (startAt nodes o.index) before.reverse i (startAt nodes i)) ∧
      Encloses nodes r o.index

/-- The open collections, innermost first, in a row up to a place that ends before a position. -/
def Reaches (nodes : Array Node) (position : Nat) : List Open → Nat → Prop
  | [], stop => stop = 0 ∨ Spans nodes 0 0 [0] stop position
  | o :: r, stop =>
    Spans nodes (o.index + 1) (startAt nodes o.index) o.children.reverse stop position ∧
      Encloses nodes r o.index

theorem Reaches.mono {nodes : Array Node} {position later stop : Nat} {stack : List Open}
    (h : Reaches nodes position stack stop) (further : position ≤ later) :
    Reaches nodes later stack stop := by
  cases stack with
  | nil => exact h.imp_right fun spans => spans.mono further
  | cons o r => exact ⟨h.1.mono further, h.2⟩

theorem Encloses.congr {nodes more : Array Node} {stack : List Open} {i : Nat}
    (h : Encloses nodes stack i) (same : ∀ place < i, more[place]? = nodes[place]?)
    (start : startAt more i = startAt nodes i) : Encloses more stack i := by
  induction stack generalizing i with
  | nil => exact h
  | cons o r ih =>
    obtain ⟨⟨before, children, spans⟩, around⟩ := h
    have inside := spans.row.le
    have begun : startAt more o.index = startAt nodes o.index := by
      rw [startAt, startAt, same o.index (by omega)]
    refine ⟨⟨before, children, ?_⟩, ih around (fun place low => same place (by omega)) begun⟩
    rw [start, begun]
    exact spans.congr fun place _ high => same place high

namespace Reaches

variable {b : Builder} {position : Nat}

/-- A node without children, as far as it goes. -/
theorem add (h : Reaches b.nodes position b.stack b.nodes.size)
    (rooted : b.stack = [] → b.nodes.size = 0) (anchor : Option Text)
    {start stop : Mark} (content : Mark) {body : Node.Body}
    (childless : ∀ n : Node, n.body = body → n.children = [])
    (begins : position ≤ start.index) (range : start.index ≤ stop.index) :
    let added := b.add anchor start stop content body
    Reaches added.nodes stop.index added.stack added.nodes.size ∧
      Encloses added.nodes added.stack b.nodes.size ∧
      startAt added.nodes b.nodes.size = start.index := by
  intro added
  let n : Node :=
    { index := b.nodes.size, parent := b.stack.head?.map (·.index), anchor, start, stop, content
      body }
  have here : (b.nodes.push n)[b.nodes.size]? = some n := Array.getElem?_push_size
  have kept : ∀ i < b.nodes.size, (b.nodes.push n)[i]? = b.nodes[i]? := by
    intro i inside
    rw [Array.getElem?_push, if_neg (by omega)]
  have single : Spans (b.nodes.push n) b.nodes.size position [b.nodes.size] (b.nodes.size + 1)
      stop.index := by
    refine .cons here begins ?_ (.nil (Nat.le_refl _))
    rw [childless n rfl]
    exact .nil range
  have size : (b.nodes.push n).size = b.nodes.size + 1 := Array.size_push ..
  have begun : startAt (b.nodes.push n) b.nodes.size = start.index := by
    rw [startAt, here]
    rfl
  show Reaches (b.nodes.push n) _ (Builder.addChild b.nodes.size b.stack) (b.nodes.push n).size ∧
    Encloses (b.nodes.push n) (Builder.addChild b.nodes.size b.stack) b.nodes.size ∧ _
  rw [size]
  refine ⟨?_, ?_, begun⟩
  · cases stack : b.stack with
    | nil =>
      rw [rooted stack] at single ⊢
      exact .inr (match single with
        | .cons here _ below after => .cons here (Nat.zero_le _) below after)
    | cons o r =>
      rw [stack] at h
      obtain ⟨spans, around⟩ := h
      have below := spans.row.le
      have same : startAt (b.nodes.push n) o.index = startAt b.nodes o.index := by
        rw [startAt, startAt, kept o.index (by omega)]
      refine ⟨?_, around.congr (fun place low => kept place (by omega)) same⟩
      show Spans _ (o.index + 1) _ (b.nodes.size :: o.children).reverse _ _
      rw [List.reverse_cons, same]
      exact (spans.congr fun place _ high => kept place high).append single
  · cases stack : b.stack with
    | nil => exact rooted stack
    | cons o r =>
      rw [stack] at h
      obtain ⟨spans, around⟩ := h
      have below := spans.row.le
      have same : startAt (b.nodes.push n) o.index = startAt b.nodes o.index := by
        rw [startAt, startAt, kept o.index (by omega)]
      refine ⟨⟨o.children, rfl, ?_⟩, around.congr (fun place low => kept place (by omega)) same⟩
      rw [same, begun]
      exact (spans.congr fun place _ high => kept place high).mono begins

/-- A collection that stays open. -/
theorem enter (h : Reaches b.nodes position b.stack b.nodes.size)
    (rooted : b.stack = [] → b.nodes.size = 0) (anchor : Option Text) {e : Event} (frame : Frame)
    {body : Node.Body} (childless : ∀ n : Node, n.body = body → n.children = [])
    (begins : position ≤ e.start.index) (range : e.start.index ≤ e.stop.index) :
    let entered := b.enter anchor e frame body
    Reaches entered.nodes e.stop.index entered.stack entered.nodes.size := by
  intro entered
  let content := Span.markAt b.text
    (Span.collectionContent b.text (frame == .flow) e.stop.index) e.stop
  obtain ⟨-, around, begun⟩ := h.add rooted anchor content childless begins (Nat.le_refl _)
  refine ⟨?_, around⟩
  show Spans entered.nodes (b.nodes.size + 1) (startAt entered.nodes b.nodes.size) []
    entered.nodes.size _
  have size : entered.nodes.size = b.nodes.size + 1 := Array.size_push ..
  rw [size, show startAt entered.nodes b.nodes.size = e.start.index from begun]
  exact .nil range

/-- A collection that ends. -/
theorem close (h : Reaches b.nodes position b.stack b.nodes.size) {slot : Slot} {slots : List Slot}
    (fits : Fits b.nodes (slot :: slots) b.stack) (even : slot = .sequence ∨ slot = .mapping false)
    {stop : Mark} (further : position ≤ stop.index) :
    let closed := b.close stop
    Reaches closed.nodes stop.index closed.stack closed.nodes.size := by
  intro closed
  have shape : closed = b.close stop := rfl
  rw [Builder.close] at shape
  cases stack : b.stack with
  | nil =>
    rw [stack] at fits
    cases fits with
    | document rooted => rcases even with even | even <;> cases even
  | cons o r =>
    rw [stack] at h fits shape
    obtain ⟨spans, around⟩ := h
    rw [shape]
    let f : Node → Node := fun n => { n with stop, body := Builder.fill o.children.reverse n.body }
    show Reaches (b.nodes.modify o.index f) stop.index r (b.nodes.modify o.index f).size
    rw [show (b.nodes.modify o.index f).size = b.nodes.size from Array.size_modify ..]
    obtain ⟨n, known, here, children, -⟩ := fits.closed even stop
    have here : (b.nodes.modify o.index f)[o.index]? = some (f n) := here
    have kept : ∀ i, i ≠ o.index → (b.nodes.modify o.index f)[i]? = b.nodes[i]? := by
      intro i other
      rw [Array.getElem?_modify, if_neg (Ne.symm other)]
    have old : startAt b.nodes o.index = n.start.index := by rw [startAt, known]; rfl
    have begun : startAt (b.nodes.modify o.index f) o.index = startAt b.nodes o.index := by
      rw [old, startAt, here]
      rfl
    have single : ∀ low ≤ n.start.index, Spans (b.nodes.modify o.index f) o.index low [o.index]
        b.nodes.size stop.index := by
      intro low begins
      refine .cons here begins ?_ (.nil (Nat.le_refl _))
      rw [show (f n).children = o.children.reverse from children]
      have inner := spans.mono further
      rw [old] at inner
      exact inner.congr fun place left _ => kept place (by omega)
    have around := around.congr (fun place high => kept place (by omega)) begun
    cases r with
    | nil =>
      have whole : ∀ place, o.index = place → Spans (b.nodes.modify o.index f) place 0 [place]
          b.nodes.size stop.index := by
        rintro _ rfl
        exact single 0 (Nat.zero_le _)
      exact .inr (whole 0 around)
    | cons p r =>
      obtain ⟨⟨before, children, spans⟩, around⟩ := around
      refine ⟨?_, around⟩
      rw [children, List.reverse_cons]
      rw [begun, old] at spans
      exact spans.append (single _ (Nat.le_refl _))

/-- One event that fits what is open, and starts at or behind the position. -/
theorem step (h : Reaches b.nodes position b.stack b.nodes.size) {slots slots' : List Slot}
    (nested : Nested slots b) {e : Event} {b' : Builder} (taken : b.step e = .ok b')
    (move : e.kind.move slots = some slots') (begins : position ≤ e.start.index)
    (range : e.start.index ≤ e.stop.index) :
    Reaches b'.nodes e.stop.index b'.stack b'.nodes.size := by
  have idle : Reaches b.nodes e.stop.index b.stack b.nodes.size :=
    h.mono (Nat.le_trans begins range)
  have fits := nested.fits
  -- Without an open collection there is at most the document, and a node that is added to it is the
  -- first one.
  have rooted : ∀ {slot filled : Slot} {r : List Slot}, slots = slot :: r →
      slot.filled? = some filled → b.stack = [] → b.nodes.size = 0 := by
    rintro slot filled r rfl same stack
    rw [stack] at fits
    cases fits with
    | document full =>
      rcases full with rfl | empty
      · cases same
      · exact empty
  rw [Builder.step] at taken
  obtain ⟨_, -, taken⟩ := bind_eq_ok.mp taken
  cases kind : e.kind with
  | documentStart =>
    rw [kind] at taken
    obtain ⟨-, taken⟩ := guard_eq_ok.mp taken
    cases taken
    exact idle
  | aliasOf name =>
    rw [kind] at taken move
    obtain ⟨-, taken⟩ := guard_eq_ok.mp taken
    cases taken
    obtain ⟨slot, r, rfl⟩ := List.exists_cons_of_ne_nil (l := slots) (by rintro rfl; cases move)
    obtain ⟨filled, same, rfl⟩ := Option.map_eq_some_iff.mp move
    exact (h.add (rooted rfl same) none _ (by rintro ⟨⟩ rfl; rfl) begins range).1
  | scalar anchor tag text quoting =>
    rw [kind] at taken move
    cases taken
    obtain ⟨slot, r, rfl⟩ := List.exists_cons_of_ne_nil (l := slots) (by rintro rfl; cases move)
    obtain ⟨filled, same, rfl⟩ := Option.map_eq_some_iff.mp move
    have ends : e.start.index ≤
        (if quoting.isBlock then Span.withoutBlanks b.text e.start.index e.stop.index
          else e.stop.index) ∧
        (if quoting.isBlock then Span.withoutBlanks b.text e.start.index e.stop.index
          else e.stop.index) ≤ e.stop.index := by
      split
      · exact ⟨Span.le_withoutBlanks .., Span.withoutBlanks_le range⟩
      · exact ⟨range, Nat.le_refl _⟩
    refine ((h.add (rooted rfl same) anchor _ (by rintro ⟨⟩ rfl; rfl) begins ?_).1).mono ?_
    · rw [Span.index_markAt]
      exact ends.1
    · rw [Span.index_markAt]
      exact ends.2
  | sequenceStart anchor tag frame | mappingStart anchor tag frame =>
    rw [kind] at taken move
    cases taken
    obtain ⟨slot, r, rfl⟩ := List.exists_cons_of_ne_nil (l := slots) (by rintro rfl; cases move)
    obtain ⟨filled, same, rfl⟩ := Option.map_eq_some_iff.mp move
    exact h.enter (rooted rfl same) anchor frame (by rintro ⟨⟩ rfl; rfl) begins range
  | sequenceEnd =>
    rw [kind] at taken move
    cases taken
    cases Event.Kind.move_sequenceEnd move
    exact h.close fits (.inl rfl) (Nat.le_trans begins range)
  | mappingEnd =>
    rw [kind] at taken move
    cases taken
    cases Event.Kind.move_mappingEnd move
    exact h.close fits (.inr rfl) (Nat.le_trans begins range)
  | streamStart | streamEnd | documentEnd =>
    rw [kind] at taken
    cases taken
    exact idle

/-- Events in order that fit what is open. -/
theorem steps {events : List Event} (h : Reaches b.nodes position b.stack b.nodes.size)
    {slots slots' : List Slot} (nested : Nested slots b) {b' : Builder}
    (taken : events.foldlM Builder.step b = .ok b')
    (moves : Event.moves slots events = some slots') (order : Event.InOrder events)
    (begins : ∀ e ∈ events.head?, position ≤ e.start.index) :
    ∃ last, Reaches b'.nodes last b'.stack b'.nodes.size := by
  induction events generalizing b slots position with
  | nil =>
    cases taken
    exact ⟨position, h⟩
  | cons e events ih =>
    rw [List.foldlM_cons] at taken
    obtain ⟨c, first, taken⟩ := bind_eq_ok.mp taken
    rw [Event.moves, List.foldlM_cons] at moves
    obtain ⟨between, move, moves⟩ := Option.bind_eq_some_iff.mp moves
    have range := order.range e List.mem_cons_self
    have reaches := h.step nested first move (begins e rfl) range
    exact ih reaches (nested.step first move) taken moves order.tail.1 order.tail.2

end Reaches

/-- The nodes of a text whose events are in order lie in order. -/
theorem spans_of_compose {s : Text} {lenient : Bool} {t : Tree} (h : compose s lenient = .ok t)
    (order : Event.InOrder (EventFeed.ofText s).items) :
    t.nodes.size = 0 ∨ ∃ last, Spans t.nodes 0 0 [0] t.nodes.size last := by
  obtain ⟨b, taken, whole, rfl⟩ := exists_of_compose h
  have nested : Nested [] { text := s, lenient } := ⟨.outside, .inl rfl, fun _ => ⟨rfl, rfl⟩⟩
  have start : Reaches #[] 0 [] 0 := .inl rfl
  have moves := EventFeed.moves_ofText whole
  obtain ⟨last, reaches⟩ := Reaches.steps (b := { text := s, lenient }) start nested taken moves
    order fun e _ => Nat.zero_le _
  have fits := (nested.steps taken moves).fits
  cases stack : b.stack with
  | nil =>
    rw [stack] at reaches
    exact reaches.imp_right fun spans => ⟨last, spans⟩
  | cons o r =>
    rw [stack] at fits
    cases fits

/-! ## The layout of a tree -/

/-- Nodes that lie in the order of the text. -/
structure Spaced (t : Tree) : Prop where
  /-- A node is a range of the text, and what is written for it ends there. -/
  range : ∀ i, ∀ n ∈ t.node? i,
    n.start.index ≤ (t.trueEnd n).index ∧ (t.trueEnd n).index ≤ n.stop.index
  /-- Children lie between the ends of the node around them. -/
  inside : ∀ i, ∀ n ∈ t.node? i, ∀ c ∈ n.children, ∃ m ∈ t.node? c,
    n.start.index ≤ m.start.index ∧ m.stop.index ≤ n.stop.index
  /-- What is written for a child ends before the next one starts. -/
  apart : ∀ i, ∀ n ∈ t.node? i, n.children.IsChain fun c d => ∀ m ∈ t.node? c, ∀ x ∈ t.node? d,
    (t.trueEnd m).index ≤ x.start.index
  /-- What is written for a node ends with the last leaf in it. -/
  leaf : ∀ i, ∀ n ∈ t.node? i, ∃ leaf, t.EndsWith n leaf ∧ t.trueEnd n = leaf.stop

/-- Where every event of a text ends at or behind its start and before the next one starts, the
nodes of the text are spaced in the same way. -/
theorem spaced_of_compose {s : Text} {lenient : Bool} {t : Tree} (h : compose s lenient = .ok t)
    (order : Event.InOrder (EventFeed.ofText s).items) : t.Spaced := by
  have below : ∀ i n, t.node? i = some n →
      ∃ stop, Spans t.nodes (i + 1) n.start.index n.children stop n.stop.index := by
    intro i n found
    have inside := (Array.getElem?_eq_some_iff.mp found).1
    obtain ⟨last, spans⟩ := (spans_of_compose h order).resolve_left (by omega)
    obtain ⟨n', stop, here, below⟩ := spans.at_ (Nat.zero_le i) inside
    cases found.symm.trans here
    exact ⟨stop, below⟩
  have later : ∀ i n, t.node? i = some n → ∀ c ∈ n.children, i < c := by
    intro i n found c hc
    obtain ⟨stop, below⟩ := below i n found
    exact (below.row.inside c hc).1
  have ends : ∀ i n, t.node? i = some n → ∃ leaf, t.EndsWith n leaf ∧ t.trueEnd n = leaf.stop ∧
      n.start.index ≤ leaf.stop.index ∧ leaf.stop.index ≤ n.stop.index := by
    intro i n found
    obtain ⟨stop, below⟩ := below i n found
    have single : Spans t.nodes i n.start.index [i] stop n.stop.index :=
      .cons found (Nat.le_refl _) below (.nil (Nat.le_refl _))
    obtain ⟨n', leaf, here, ends, starts, stops⟩ := single.endsWith i rfl
    cases found.symm.trans here
    refine ⟨leaf, ends, ?_, starts, stops⟩
    rw [trueEnd, lastWritten, ends.lastLeaf later found (Nat.le_add_right _ _)]
  refine ⟨?_, ?_, ?_, ?_⟩
  · intro i n found
    obtain ⟨leaf, -, same, range⟩ := ends i n found
    rw [same]
    exact range
  · intro i n found c hc
    obtain ⟨stop, below⟩ := below i n found
    obtain ⟨m, known, range⟩ := below.listed hc
    exact ⟨m, known, range⟩
  · intro i n found
    obtain ⟨stop, below⟩ := below i n found
    refine below.chain.imp ?_
    intro c d apart m hm x hx
    obtain ⟨leaf, -, same, -, stops⟩ := ends c m hm
    rw [same]
    exact Nat.le_trans stops (apart m hm x hx)
  · intro i n found
    obtain ⟨leaf, last, same, -⟩ := ends i n found
    exact ⟨leaf, last, same⟩

/-- A block scalar with blank lines behind it, collections that end where the next token begins, an
alias and empty values. -/
def widelySpaced : Text :=
  "a: &x\n  - |\n    b  \n\n  - [c, {d: }]\n\n# e\nf: *x\ng:\n- h:\n".toList

theorem spaced_widelySpaced : ∃ t, compose widelySpaced = .ok t ∧
    Event.InOrder (EventFeed.ofText widelySpaced).items ∧ t.Spaced := by
  obtain ⟨t, composed, -⟩ := exists_of_any
    (show (compose widelySpaced).toOption.any (fun t => t.nodes.size == 16) = true by decide +kernel)
  have order : Event.InOrder (EventFeed.ofText widelySpaced).items := by decide +kernel
  exact ⟨t, composed, order, spaced_of_compose composed order⟩

end Tree

end YamlEdit
