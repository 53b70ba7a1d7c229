import YamlEdit.Proofs.Load.Alike
import YamlEdit.Tree.Compose

/-!
# A text with a graph has a tree

Graph and tree are built from the same events, and refuse the same ones for the same causes: both
know the anchors by name, and an anchored node of a tree always has a tag, so an alias finds it.

The nodes of the row that are no aliases are the vertices, in the same order. So a node's vertex has
as number how many such nodes stand before it, which later nodes do not change; and an alias leads
to the vertex of the node that it stands for.
-/

namespace YamlEdit

/-- Where an alias leads to, if a node is one. -/
def Node.link? (n : Node) : Option (Option Nat) :=
  match n.body with
  | .aliasOf _ target => some (target.map (·.1))
  | _ => none

theorem Node.link?_eq_none {n : Node} : n.link? = none ↔ n.isAlias = false := by
  obtain ⟨index, parent, anchor, start, stop, content, body⟩ := n
  cases body <;> simp [link?, isAlias, kind]

namespace Tree

/-! ## Vertices by number -/

/-- Whether a row has a node at a place, one that is no alias. -/
def isOwn (nodes : Array Node) (i : Nat) : Bool :=
  (nodes[i]?).map Node.link? == some none

/-- The places before another that have nodes which are no aliases. -/
def own (nodes : Array Node) (stop : Nat) : List Nat :=
  (List.range stop).filter (isOwn nodes)

/-- The number of the vertex that a node which is no alias becomes. -/
def rank (nodes : Array Node) (i : Nat) : Nat :=
  (own nodes i).length

/-- The number of the vertex that a node leads to. -/
def place (nodes : Array Node) (i : Nat) : Nat :=
  match (nodes[i]?).bind Node.link? with
  | some (some target) => rank nodes target
  | _ => rank nodes i

/-- What becomes of a node that is no alias; `lead` numbers the vertices that its children lead
to. -/
def vertexBy (lead : Nat → Nat) : Node.Body → Vertex
  | .scalar tag text _ => ⟨tag, none, .scalar text⟩
  | .sequence tag _ items => ⟨tag, none, .sequence (items.map lead)⟩
  | .mapping tag _ pairs => ⟨tag, none, .mapping (pairs.map fun p => (lead p.1, lead p.2))⟩
  | .aliasOf .. => default

theorem isOwn_iff {nodes : Array Node} {i : Nat} :
    isOwn nodes i = true ↔ ∃ n, nodes[i]? = some n ∧ n.isAlias = false := by
  rw [isOwn, beq_iff_eq, Option.map_eq_some_iff]
  exact exists_congr fun n => and_congr_right fun _ => Node.link?_eq_none

theorem lt_of_isOwn {nodes : Array Node} {i : Nat} (h : isOwn nodes i = true) : i < nodes.size := by
  obtain ⟨n, here, -⟩ := isOwn_iff.mp h
  exact (Array.getElem?_eq_some_iff.mp here).1

theorem mem_own {nodes : Array Node} {stop i : Nat} :
    i ∈ own nodes stop ↔ i < stop ∧ isOwn nodes i = true := by
  rw [own, List.mem_filter, List.mem_range]

theorem own_succ (nodes : Array Node) (stop : Nat) :
    own nodes (stop + 1) = own nodes stop ++ if isOwn nodes stop then [stop] else [] := by
  rw [own, own, List.range_succ, List.filter_append, List.filter_singleton, Bool.cond_eq_ite]

theorem own_append (nodes : Array Node) {i stop : Nat} (h : i ≤ stop) :
    ∃ more, own nodes stop = own nodes i ++ more := by
  induction h with
  | refl => exact ⟨[], (List.append_nil _).symm⟩
  | step _ ih =>
    obtain ⟨more, cut⟩ := ih
    exact ⟨more ++ _, by rw [own_succ, cut, List.append_assoc]⟩

/-- A vertex's number is the position of its node among those that are no aliases. -/
theorem getElem?_own {nodes : Array Node} {i stop : Nat} (inside : i < stop)
    (h : isOwn nodes i = true) : (own nodes stop)[rank nodes i]? = some i := by
  obtain ⟨more, cut⟩ := own_append nodes (Nat.succ_le_of_lt inside)
  rw [cut, Nat.succ_eq_add_one, own_succ, if_pos h, List.append_assoc, rank,
    List.getElem?_append_right (Nat.le_refl _), Nat.sub_self]
  rfl

theorem idxOf_own {nodes : Array Node} {i stop : Nat} (inside : i < stop)
    (h : isOwn nodes i = true) : (own nodes stop).idxOf i = rank nodes i := by
  obtain ⟨more, cut⟩ := own_append nodes (Nat.succ_le_of_lt inside)
  have fresh : i ∉ own nodes i := fun again => Nat.lt_irrefl i (mem_own.mp again).1
  rw [cut, Nat.succ_eq_add_one, own_succ, if_pos h, List.append_assoc,
    List.idxOf_append_of_notMem fresh, List.singleton_append, List.idxOf_cons_self, Nat.add_zero,
    rank]

/-! ## Rows that grow

A row changes by a node at its end, and by the end of a collection. Neither changes what was said of
the nodes before. -/

/-- A row goes on with another: its nodes are where they were, of the same kinds, and aliases lead
where they led. -/
structure Extends (nodes more : Array Node) : Prop where
  size : nodes.size ≤ more.size
  links : ∀ i < nodes.size, (more[i]?).map Node.link? = (nodes[i]?).map Node.link?
  kinds : ∀ i < nodes.size, (more[i]?).map Node.kind = (nodes[i]?).map Node.kind

namespace Extends

variable {nodes more : Array Node}

theorem push (nodes : Array Node) (n : Node) : Extends nodes (nodes.push n) := by
  have kept : ∀ i < nodes.size, (nodes.push n)[i]? = nodes[i]? := by
    intro i inside
    rw [Array.getElem?_push, if_neg (by omega)]
  refine ⟨by simp, ?_, ?_⟩
  · intro i inside
    rw [kept i inside]
  · intro i inside
    rw [kept i inside]

theorem modify (nodes : Array Node) (k : Nat) {f : Node → Node} (links : ∀ n, (f n).link? = n.link?)
    (kinds : ∀ n, (f n).kind = n.kind) : Extends nodes (nodes.modify k f) := by
  have kept : ∀ {α : Type} (g : Node → α), (∀ n, g (f n) = g n) → ∀ i : Nat,
      ((nodes.modify k f)[i]?).map g = (nodes[i]?).map g := by
    intro α g same i
    rw [Array.getElem?_modify]
    split
    · rw [Option.map_map]
      exact congrArg (Option.map · _) (funext same)
    · rfl
  exact ⟨by simp, fun i _ => kept _ links i, fun i _ => kept _ kinds i⟩

theorem isOwn (h : Extends nodes more) {i : Nat} (inside : i < nodes.size) :
    isOwn more i = isOwn nodes i := by
  rw [Tree.isOwn, Tree.isOwn, h.links i inside]

theorem own (h : Extends nodes more) {stop : Nat} (inside : stop ≤ nodes.size) :
    own more stop = own nodes stop := by
  refine List.filter_congr ?_
  intro i hi
  exact h.isOwn (Nat.lt_of_lt_of_le (List.mem_range.mp hi) inside)

theorem rank (h : Extends nodes more) {i : Nat} (inside : i ≤ nodes.size) :
    rank more i = rank nodes i :=
  congrArg List.length (h.own inside)

end Extends

/-! ## What holds of every row

A child and an alias come behind the collection and the node that they belong to. -/

/-- A row whose nodes know their places, with children in the row and aliases of nodes before
them. -/
structure Sound (nodes : Array Node) : Prop where
  index : ∀ (i : Nat) n, nodes[i]? = some n → n.index = i
  link : ∀ (i : Nat) n, nodes[i]? = some n → ∀ target, n.link? = some target →
    ∃ j, target = some j ∧ j < i ∧ isOwn nodes j = true
  child : ∀ (i : Nat) n, nodes[i]? = some n → ∀ c ∈ n.children, c < nodes.size

/-- A child leads to the same vertex when the row goes on. -/
theorem Extends.place {nodes more : Array Node} (h : Extends nodes more) (sound : Sound nodes)
    {i : Nat} (inside : i < nodes.size) : place more i = place nodes i := by
  have links := h.links i inside
  have here : nodes[i]? = some nodes[i] := Array.getElem?_eq_getElem inside
  rw [here] at links
  obtain ⟨n, there, same⟩ := Option.map_eq_some_iff.mp links
  rw [Tree.place, Tree.place, here, there, Option.bind_some, Option.bind_some, same]
  cases link : nodes[i].link? with
  | none => exact h.rank (Nat.le_of_lt inside)
  | some target =>
    obtain ⟨j, rfl, before, -⟩ := sound.link i _ here target link
    exact h.rank (by omega)

theorem Sound.push {nodes : Array Node} (h : Sound nodes) {n : Node} (index : n.index = nodes.size)
    (link : ∀ target, n.link? = some target → ∃ j, target = some j ∧ isOwn nodes j = true)
    (childless : n.children = []) : Sound (nodes.push n) := by
  have grown := Extends.push nodes n
  have cases_ : ∀ (i : Nat) m, (nodes.push n)[i]? = some m →
      (i = nodes.size ∧ m = n) ∨ nodes[i]? = some m := by
    intro i m hm
    rw [Array.getElem?_push] at hm
    split at hm
    · next last => exact .inl ⟨last, (Option.some.inj hm).symm⟩
    · exact .inr hm
  constructor
  · intro i m hm
    rcases cases_ i m hm with ⟨rfl, rfl⟩ | old
    · exact index
    · exact h.index i m old
  · intro i m hm target ht
    rcases cases_ i m hm with ⟨rfl, rfl⟩ | old
    · obtain ⟨j, led, inside⟩ := link target ht
      have before := lt_of_isOwn inside
      exact ⟨j, led, before, (grown.isOwn before).trans inside⟩
    · obtain ⟨j, led, before, inside⟩ := h.link i m old target ht
      exact ⟨j, led, before, (grown.isOwn (lt_of_isOwn inside)).trans inside⟩
  · intro i m hm c hc
    rw [Array.size_push]
    rcases cases_ i m hm with ⟨rfl, rfl⟩ | old
    · rw [childless] at hc
      cases hc
    · exact Nat.lt_succ_of_lt (h.child i m old c hc)

theorem Sound.modify {nodes : Array Node} (h : Sound nodes) (k : Nat) {f : Node → Node}
    (grown : Extends nodes (nodes.modify k f)) (index : ∀ n, (f n).index = n.index)
    (keeps : ∀ n, (f n).link? = n.link?)
    (children : ∀ n, nodes[k]? = some n → ∀ c ∈ (f n).children, c < nodes.size) :
    Sound (nodes.modify k f) := by
  have cases_ : ∀ (i : Nat) m, (nodes.modify k f)[i]? = some m →
      (∃ n, nodes[i]? = some n ∧ i = k ∧ m = f n) ∨ nodes[i]? = some m := by
    intro i m hm
    rw [Array.getElem?_modify] at hm
    split at hm
    · next same =>
      obtain ⟨n, here, filled⟩ := Option.map_eq_some_iff.mp hm
      exact .inl ⟨n, here, same.symm, filled.symm⟩
    · exact .inr hm
  constructor
  · intro i m hm
    rcases cases_ i m hm with ⟨n, here, -, rfl⟩ | old
    · exact (index n).trans (h.index i n here)
    · exact h.index i m old
  · intro i m hm target ht
    have kept : ∀ n, nodes[i]? = some n → n.link? = some target →
        ∃ j, target = some j ∧ j < i ∧ isOwn (nodes.modify k f) j = true := by
      intro n here hn
      obtain ⟨j, led, before, inside⟩ := h.link i n here target hn
      exact ⟨j, led, before, (grown.isOwn (lt_of_isOwn inside)).trans inside⟩
    rcases cases_ i m hm with ⟨n, here, -, rfl⟩ | old
    · exact kept n here ((keeps n).symm.trans ht)
    · exact kept m old ht
  · intro i m hm c hc
    rw [Array.size_modify]
    rcases cases_ i m hm with ⟨n, here, rfl, rfl⟩ | old
    · exact children n here c hc
    · exact h.child i m old c hc

/-! ## Side by side -/

/-- What a node is when it is added to the row, and the vertex that it becomes. -/
inductive Begun : Node.Body → Tag → Vertex.Body → Prop
  | scalar (tag : Tag) (text : Text) (quoting : Quoting) :
    Begun (.scalar tag text quoting) tag (.scalar text)
  | sequence (tag : Tag) (frame : Frame) : Begun (.sequence tag frame []) tag (.sequence [])
  | mapping (tag : Tag) (frame : Frame) : Begun (.mapping tag frame []) tag (.mapping [])

/-- Every node that is no alias has a vertex that tells the same. -/
def Mirrors (nodes : Array Node) (vertices : Array Vertex) : Prop :=
  ∀ (i : Nat) n, nodes[i]? = some n → n.isAlias = false →
    (vertices[rank nodes i]?).map Vertex.bare = some (vertexBy (place nodes) n.body)

/-- An open collection of a graph and the same one of a row. -/
structure Stands (nodes : Array Node) (o : Graph.Open) (p : Open) : Prop where
  vertex : o.vertex = rank nodes p.index
  kind : (nodes[p.index]?).map Node.kind = some (if o.isMapping then .mapping else .sequence)
  children : o.children = p.children.map (place nodes)
  inside : ∀ c ∈ p.children, c < nodes.size

/-- A graph and a tree under construction that have seen the same events. -/
structure Twin (g : Graph.Builder) (b : Builder) : Prop where
  strict : b.lenient = false
  started : g.started = b.started
  sound : Sound b.nodes
  anchors : g.anchors = b.anchors.map fun e => (e.1, rank b.nodes e.2)
  anchored : ∀ e ∈ b.anchors, isOwn b.nodes e.2 = true
  size : g.vertices.size = rank b.nodes b.nodes.size
  vertices : Mirrors b.nodes g.vertices
  stack : List.Forall₂ (Stands b.nodes) g.stack b.stack

theorem rank_lt {nodes : Array Node} {i stop : Nat} (inside : i < stop)
    (h : isOwn nodes i = true) : rank nodes i < rank nodes stop :=
  (List.getElem?_eq_some_iff.mp (getElem?_own inside h)).1

theorem rank_inj {nodes : Array Node} {i j : Nat} (hi : isOwn nodes i = true)
    (hj : isOwn nodes j = true) (same : rank nodes i = rank nodes j) : i = j := by
  have left := getElem?_own (lt_of_isOwn hi) hi
  have right := getElem?_own (lt_of_isOwn hj) hj
  rw [same] at left
  exact Option.some.inj (left.symm.trans right)

theorem place_own {nodes : Array Node} {i : Nat} (h : isOwn nodes i = true) :
    place nodes i = rank nodes i := by
  obtain ⟨n, here, own⟩ := isOwn_iff.mp h
  rw [place, here, Option.bind_some, Node.link?_eq_none.mpr own]

theorem mem_children_of_pairs {n : Node} {tag : Tag} {frame : Frame} {pairs : List (Nat × Nat)}
    (body : n.body = .mapping tag frame pairs) {p : Nat × Nat} (hp : p ∈ pairs) :
    p.1 ∈ n.children ∧ p.2 ∈ n.children := by
  rw [Node.children, body]
  exact ⟨List.mem_flatMap.mpr ⟨p, hp, by simp⟩, List.mem_flatMap.mpr ⟨p, hp, by simp⟩⟩

theorem mem_of_mem_pairUp : ∀ {l : List Nat} {c : Nat},
    c ∈ (Node.pairUp l).flatMap (fun p => [p.1, p.2]) → c ∈ l
  | [], _, h => h
  | [_], _, h => nomatch h
  | k :: v :: r, c, h => by
    rw [Node.pairUp, List.flatMap_cons] at h
    rcases List.mem_append.mp h with first | later
    · exact List.mem_append_left r first
    · exact List.mem_append_right [k, v] (mem_of_mem_pairUp later)

/-- A collection that ends has the children that it was given. -/
theorem mem_of_mem_children_fill {n : Node} {children : List Nat} {stop : Mark} {c : Nat}
    (hc : c ∈ ({ n with stop, body := Builder.fill children n.body } : Node).children) :
    c ∈ children := by
  obtain ⟨index, parent, anchor, start, stop', content, body⟩ := n
  cases body with
  | scalar tag text quoting => cases hc
  | aliasOf name target => cases hc
  | sequence tag frame items => exact hc
  | mapping tag frame pairs => exact mem_of_mem_pairUp hc

theorem pairUp_map (f : Nat → Nat) : ∀ l : List Nat,
    Node.pairUp (l.map f) = (Node.pairUp l).map fun p => (f p.1, f p.2)
  | [] => rfl
  | [_] => rfl
  | k :: v :: r => congrArg ((f k, f v) :: ·) (pairUp_map f r)

/-- A collection that ends is the vertex that gets the same children. -/
theorem bare_fill {n : Node} {isMapping : Bool}
    (kind : n.kind = if isMapping then .mapping else .sequence) {v : Vertex} {before : Nat → Nat}
    (same : v.bare = vertexBy before n.body) (lead : Nat → Nat) (children : List Nat) :
    ({ v with
      body := if isMapping then .mapping (Node.pairUp (children.map lead))
        else .sequence (children.map lead) } : Vertex).bare =
      vertexBy lead (Builder.fill children n.body) := by
  obtain ⟨index, parent, anchor, start, stop, content, body⟩ := n
  have tags : v.tag = (vertexBy before body).tag := (congrArg Vertex.tag same :)
  rw [Vertex.bare]
  dsimp only
  rw [tags]
  cases isMapping with
  | true =>
    cases body with
    | mapping tag frame pairs =>
      rw [if_pos rfl, pairUp_map]
      rfl
    | scalar tag text quoting => cases kind
    | sequence tag frame items => cases kind
    | aliasOf name target => cases kind
  | false =>
    cases body with
    | sequence tag frame items => rfl
    | scalar tag text quoting => cases kind
    | mapping tag frame pairs => cases kind
    | aliasOf name target => cases kind

theorem vertexBy_congr {n : Node} {f g : Nat → Nat} (same : ∀ c ∈ n.children, f c = g c) :
    vertexBy f n.body = vertexBy g n.body := by
  cases body : n.body with
  | scalar tag text quoting => rfl
  | aliasOf name target => rfl
  | sequence tag frame items =>
    have children : n.children = items := by rw [Node.children, body]
    rw [children] at same
    exact congrArg (fun l => (⟨tag, none, .sequence l⟩ : Vertex)) (List.map_congr_left same)
  | mapping tag frame pairs =>
    refine congrArg (fun l => (⟨tag, none, .mapping l⟩ : Vertex)) (List.map_congr_left ?_)
    intro p hp
    obtain ⟨key, value⟩ := mem_children_of_pairs body hp
    rw [same _ key, same _ value]

/-- A node becomes the same vertex when the row goes on. -/
theorem Extends.vertexBy {nodes more : Array Node} (h : Extends nodes more) (sound : Sound nodes)
    {i : Nat} {n : Node} (here : nodes[i]? = some n) :
    vertexBy (Tree.place more) n.body = vertexBy (Tree.place nodes) n.body :=
  vertexBy_congr fun c hc => h.place sound (sound.child i n here c hc)

/-- The vertices of a row with one node more. -/
theorem Mirrors.push {nodes : Array Node} {vertices more : Array Vertex} {n : Node}
    (h : Mirrors nodes vertices) (sound : Sound nodes) (size : vertices.size = rank nodes nodes.size)
    (old : ∀ k < vertices.size, more[k]? = vertices[k]?)
    (new : n.isAlias = false →
      (more[vertices.size]?).map Vertex.bare = some (vertexBy (place (nodes.push n)) n.body)) :
    Mirrors (nodes.push n) more := by
  have grown : Extends nodes (nodes.push n) := .push nodes n
  intro i m hm alone
  by_cases last : i = nodes.size
  · subst last
    rw [Array.getElem?_push_size] at hm
    cases hm
    rw [grown.rank (Nat.le_refl _), ← size]
    exact new alone
  · rw [Array.getElem?_push, if_neg last] at hm
    have inside := (Array.getElem?_eq_some_iff.mp hm).1
    have before := rank_lt inside (isOwn_iff.mpr ⟨m, hm, alone⟩)
    rw [grown.rank (Nat.le_of_lt inside), old _ (by omega), h i m hm alone,
      grown.vertexBy sound hm]

theorem Stands.extend {nodes more : Array Node} {o : Graph.Open} {p : Open}
    (h : Stands nodes o p) (grown : Extends nodes more) (sound : Sound nodes) :
    Stands more o p := by
  have inside : p.index < nodes.size := by
    obtain ⟨n, here, -⟩ := Option.map_eq_some_iff.mp h.kind
    exact (Array.getElem?_eq_some_iff.mp here).1
  refine ⟨?_, ?_, ?_, ?_⟩
  · rw [h.vertex, grown.rank (Nat.le_of_lt inside)]
  · rw [grown.kinds _ inside, h.kind]
  · rw [h.children]
    exact List.map_congr_left fun c hc => (grown.place sound (h.inside c hc)).symm
  · intro c hc
    exact Nat.lt_of_lt_of_le (h.inside c hc) grown.size

/-- The innermost open collections get the same child. -/
theorem stands_lead {nodes more : Array Node} {g : Graph.Builder} {stack : List Open}
    (h : List.Forall₂ (Stands nodes) g.stack stack) (grown : Extends nodes more)
    (sound : Sound nodes) {index : Nat} (inside : index < more.size) :
    List.Forall₂ (Stands more) (g.lead (place more index)).stack (Builder.addChild index stack) := by
  rw [Graph.Builder.lead]
  cases stack with
  | nil =>
    have empty := List.forall₂_nil_right_iff.mp h
    rw [empty]
    dsimp only
    rw [empty]
    exact .nil
  | cons p r =>
    obtain ⟨o, rest, first, others, cut⟩ := List.forall₂_cons_right_iff.mp h
    rw [cut]
    have first := first.extend grown sound
    refine .cons ⟨first.vertex, first.kind, ?_, ?_⟩ (others.imp fun _ _ s => s.extend grown sound)
    · exact congrArg (place more index :: ·) first.children
    · intro c hc
      rcases List.mem_cons.mp hc with rfl | old
      · exact inside
      · exact first.inside c old

theorem lead_keeps (g : Graph.Builder) (vertex : Nat) :
    (g.lead vertex).anchors = g.anchors ∧ (g.lead vertex).started = g.started ∧
      (g.lead vertex).vertices = g.vertices := by
  rw [Graph.Builder.lead]
  split <;> exact ⟨rfl, rfl, rfl⟩

/-! ## One event -/

namespace Twin

variable {g : Graph.Builder} {b : Builder}

/-- What is said of the anchors when the row goes on. -/
theorem anchors_extend (h : Twin g b) {more : Array Node} (grown : Extends b.nodes more) :
    (b.anchors.map fun e => (e.1, rank more e.2)) = g.anchors ∧
      ∀ e ∈ b.anchors, isOwn more e.2 = true := by
  have inside : ∀ e ∈ b.anchors, e.2 < b.nodes.size := fun e he => lt_of_isOwn (h.anchored e he)
  constructor
  · rw [h.anchors]
    refine List.map_congr_left ?_
    intro e he
    rw [grown.rank (Nat.le_of_lt (inside e he))]
  · intro e he
    rw [grown.isOwn (inside e he)]
    exact h.anchored e he

theorem add (h : Twin g b) (e : Event) (anchor : Option Text) {tag : Tag} {body : Vertex.Body}
    {body' : Node.Body} (begun : Begun body' tag body) (start stop content : Mark) :
    Twin (g.add e anchor tag body) (b.add anchor start stop content body') := by
  let n : Node :=
    { index := b.nodes.size, parent := b.stack.head?.map (·.index), anchor, start, stop, content
      body := body' }
  have own : n.isAlias = false := by cases begun <;> rfl
  have childless : n.children = [] := by cases begun <;> rfl
  have grown : Extends b.nodes (b.nodes.push n) := .push b.nodes n
  have last : (b.nodes.push n)[b.nodes.size]? = some n := Array.getElem?_push_size
  have here : isOwn (b.nodes.push n) b.nodes.size = true := isOwn_iff.mpr ⟨n, last, own⟩
  have new : b.nodes.size < (b.nodes.push n).size := by simp
  have number : rank (b.nodes.push n) b.nodes.size = g.vertices.size :=
    (grown.rank (Nat.le_refl _)).trans h.size.symm
  obtain ⟨anchors, started, vertices⟩ := lead_keeps g g.vertices.size
  obtain ⟨kept, anchored⟩ := h.anchors_extend grown
  refine ⟨h.strict, started.trans h.started, ?_, ?_, ?_, ?_, ?_, ?_⟩
  · refine h.sound.push rfl ?_ childless
    intro target link
    rw [Node.link?_eq_none.mpr own] at link
    cases link
  · cases anchor with
    | none => exact anchors.trans kept.symm
    | some name =>
      refine congr (congrArg List.cons ?_) (anchors.trans kept.symm)
      exact congrArg (name, ·) number.symm
  · intro e he
    cases anchor with
    | none => exact anchored e he
    | some name =>
      rcases List.mem_cons.mp he with rfl | old
      · exact here
      · exact anchored e old
  · show ((g.lead g.vertices.size).vertices.push _).size = rank (b.nodes.push n) (b.nodes.push n).size
    rw [vertices, Array.size_push, Array.size_push, rank, own_succ, if_pos here, List.length_append,
      ← number]
    rfl
  · have pushed : (g.add e anchor tag body).vertices = g.vertices.push ⟨tag, some e.start, body⟩ :=
      congrArg (fun l : Array Vertex => l.push _) vertices
    rw [pushed]
    refine h.vertices.push h.sound h.size ?_ ?_
    · intro k hk
      rw [Array.getElem?_push, if_neg (by omega)]
    · intro _
      rw [Array.getElem?_push_size]
      cases begun <;> rfl
  · have led := stands_lead h.stack grown h.sound new
    rw [place_own here, number] at led
    exact led

theorem lead (h : Twin g b) {j : Nat} (target : isOwn b.nodes j = true) (name : Text) (tag : Tag)
    (start stop content : Mark) :
    Twin (g.lead (rank b.nodes j)) (b.add none start stop content (.aliasOf name (some (j, tag)))) := by
  let n : Node :=
    { index := b.nodes.size, parent := b.stack.head?.map (·.index), anchor := none, start, stop
      content, body := .aliasOf name (some (j, tag)) }
  have grown : Extends b.nodes (b.nodes.push n) := .push b.nodes n
  have last : (b.nodes.push n)[b.nodes.size]? = some n := Array.getElem?_push_size
  have new : b.nodes.size < (b.nodes.push n).size := by simp
  have other : isOwn (b.nodes.push n) b.nodes.size = false := by
    rw [isOwn, last]
    rfl
  have leads : place (b.nodes.push n) b.nodes.size = rank b.nodes j := by
    rw [place, last]
    exact grown.rank (Nat.le_of_lt (lt_of_isOwn target))
  obtain ⟨anchors, started, vertices⟩ := lead_keeps g (rank b.nodes j)
  obtain ⟨kept, anchored⟩ := h.anchors_extend grown
  refine ⟨h.strict, started.trans h.started, ?_, anchors.trans kept.symm, anchored, ?_, ?_, ?_⟩
  · refine h.sound.push rfl ?_ rfl
    intro aim link
    cases link
    exact ⟨j, rfl, target⟩
  · show (g.lead (rank b.nodes j)).vertices.size = rank (b.nodes.push n) (b.nodes.push n).size
    rw [vertices, h.size, Array.size_push, rank, rank, own_succ, other, grown.own (Nat.le_refl _),
      if_neg Bool.false_ne_true, List.append_nil]
  · rw [vertices]
    refine h.vertices.push h.sound h.size (fun _ _ => rfl) ?_
    intro alone
    cases alone
  · have led := stands_lead h.stack grown h.sound new
    rw [leads] at led
    exact led

theorem enter (h : Twin g b) (e : Event) (anchor : Option Text) {tag : Tag} {isMapping : Bool}
    {body : Node.Body} (frame : Frame)
    (begun : Begun body tag (if isMapping then .mapping [] else .sequence [])) :
    Twin (g.enter e anchor tag isMapping) (b.enter anchor e frame body) := by
  have added := h.add e anchor begun e.start e.start
    (Span.markAt b.text (Span.collectionContent b.text (frame == .flow) e.stop.index) e.stop)
  refine ⟨added.strict, added.started, added.sound, added.anchors, added.anchored, added.size,
    added.vertices, .cons ⟨?_, ?_, rfl, ?_⟩ added.stack⟩
  · exact h.size.trans ((Extends.push b.nodes _).rank (Nat.le_refl _)).symm
  · show ((b.nodes.push _)[b.nodes.size]?).map Node.kind = _
    rw [Array.getElem?_push_size]
    cases isMapping <;> cases begun <;> rfl
  · intro c hc
    cases hc

/-- A collection that ends: node and vertex get the same children. -/
theorem close (h : Twin g b) (stop : Mark) : Twin g.close (b.close stop) := by
  have stack := h.stack
  rw [Graph.Builder.close, Builder.close]
  cases cut : b.stack with
  | nil =>
    rw [cut] at stack
    rw [List.forall₂_nil_right_iff.mp stack]
    exact h
  | cons p r =>
    rw [cut] at stack
    obtain ⟨o, rest, first, others, cut'⟩ := List.forall₂_cons_right_iff.mp stack
    rw [cut']
    let f : Node → Node := fun n => { n with stop, body := Builder.fill p.children.reverse n.body }
    have links : ∀ n, (f n).link? = n.link? := by
      rintro ⟨index, parent, anchor, start, stop, content, body⟩
      cases body <;> rfl
    have kinds : ∀ n, (f n).kind = n.kind := by
      rintro ⟨index, parent, anchor, start, stop, content, body⟩
      cases body <;> rfl
    have grown : Extends b.nodes (b.nodes.modify p.index f) := .modify b.nodes p.index links kinds
    obtain ⟨n, here, kind⟩ := Option.map_eq_some_iff.mp first.kind
    have alone : n.isAlias = false := by
      rw [Node.isAlias, kind]
      cases o.isMapping <;> rfl
    have sound : Sound (b.nodes.modify p.index f) := by
      refine h.sound.modify p.index grown (fun _ => rfl) links ?_
      intro m hm c hc
      refine first.inside c (List.mem_reverse.mp ?_)
      rw [here] at hm
      cases hm
      exact mem_of_mem_children_fill hc
    obtain ⟨kept, anchored⟩ := h.anchors_extend grown
    refine ⟨h.strict, h.started, sound, kept.symm, anchored, ?_, ?_, ?_⟩
    · show (g.vertices.modify o.vertex _).size = rank _ (b.nodes.modify p.index f).size
      rw [Array.size_modify, Array.size_modify, h.size, grown.rank (Nat.le_refl _)]
    · have inner : isOwn b.nodes p.index = true := isOwn_iff.mpr ⟨n, here, alone⟩
      have lead : o.children.reverse = p.children.reverse.map (place (b.nodes.modify p.index f)) := by
        rw [first.children, ← List.map_reverse]
        refine List.map_congr_left ?_
        intro c hc
        exact (grown.place h.sound (first.inside c (List.mem_reverse.mp hc))).symm
      intro i m hm own
      have hm : (b.nodes.modify p.index f)[i]? = some m := hm
      rw [Array.getElem?_modify] at hm
      show ((g.vertices.modify o.vertex _)[rank (b.nodes.modify p.index f) i]?).map _ =
        some (vertexBy (place (b.nodes.modify p.index f)) m.body)
      by_cases same : p.index = i
      · subst same
        rw [if_pos rfl, here] at hm
        cases hm
        have mirror := h.vertices p.index n here alone
        obtain ⟨v, hv, bare⟩ := Option.map_eq_some_iff.mp mirror
        rw [grown.rank (Nat.le_of_lt (lt_of_isOwn inner)), first.vertex, Array.getElem?_modify,
          if_pos rfl, hv, lead]
        exact congrArg some (bare_fill kind bare _ _)
      · rw [if_neg same] at hm
        have there : isOwn b.nodes i = true := isOwn_iff.mpr ⟨m, hm, own⟩
        have apart : o.vertex ≠ rank b.nodes i := by
          rw [first.vertex]
          exact fun equal => same (rank_inj inner there equal)
        rw [grown.rank (Nat.le_of_lt (lt_of_isOwn there)), Array.getElem?_modify, if_neg apart,
          h.vertices i m hm own, grown.vertexBy h.sound hm]
    · exact others.imp fun _ _ s => s.extend grown h.sound

end Twin

/-- What a tree knows of an anchor is its node's number. -/
theorem Twin.lookup {g : Graph.Builder} {b : Builder} (h : Twin g b) (name : Text) :
    g.anchors.lookup name = (b.anchors.lookup name).map (rank b.nodes) := by
  rw [h.anchors]
  induction b.anchors with
  | nil => rfl
  | cons e r ih =>
    rw [List.map_cons, List.lookup_cons, List.lookup_cons]
    cases name == e.1 with
    | true => rfl
    | false => exact ih

theorem Twin.target? {g : Graph.Builder} {b : Builder} (h : Twin g b) {name : Text} {j : Nat}
    (found : b.anchors.lookup name = some j) :
    isOwn b.nodes j = true ∧ ∃ tag, b.target? name = some (j, tag) := by
  have known : (name, j) ∈ b.anchors := by
    obtain ⟨before, after, cut, -⟩ := List.lookup_eq_some_iff.mp found
    rw [cut]
    exact List.mem_append_right before List.mem_cons_self
  have own := h.anchored _ known
  obtain ⟨⟨index, parent, anchor, start, stop, content, body⟩, here, alone⟩ := isOwn_iff.mp own
  refine ⟨own, ?_⟩
  rw [Builder.target?, found]
  dsimp only at here
  simp only [Option.bind_eq_bind, Option.bind_some, here]
  cases body with
  | scalar tag text quoting => exact ⟨tag, rfl⟩
  | sequence tag frame items => exact ⟨tag, rfl⟩
  | mapping tag frame pairs => exact ⟨tag, rfl⟩
  | aliasOf name target => cases alone

theorem agree_checkAnchor {g : Graph.Builder} {b : Builder} (h : Twin g b) (e : Event) :
    AgreeBy SameCause (fun _ _ => True) (g.checkAnchor e) (b.checkAnchor e) := by
  rw [Graph.Builder.checkAnchor, Builder.checkAnchor]
  cases e.kind.anchor? with
  | none => trivial
  | some name =>
    dsimp only
    rw [h.strict, Bool.not_false, Bool.and_true, h.lookup name]
    cases b.anchors.lookup name with
    | none => trivial
    | some j => exact rfl

/-- One event is taken by both builders, or refused by both for the same cause. -/
theorem agree_step {g : Graph.Builder} {b : Builder} (h : Twin g b) (e : Event) :
    AgreeBy SameCause Twin (g.step e) (b.step e) := by
  refine (agree_checkAnchor h e).bind fun _ _ _ => ?_
  cases e.kind with
  | documentStart =>
    dsimp only
    rw [h.started]
    exact .guard { h with started := rfl } rfl
  | aliasOf name =>
    dsimp only
    rw [h.lookup name, h.strict, Bool.not_false, Bool.and_true]
    cases found : b.anchors.lookup name with
    | none =>
      have missing : (b.target? name).isNone = true := by
        rw [Builder.target?, found]
        rfl
      rw [if_pos missing]
      exact rfl
    | some j =>
      obtain ⟨own, tag, target⟩ := h.target? found
      rw [target, Option.isNone_some, if_neg Bool.false_ne_true]
      exact h.lead own ..
  | scalar anchor tag text quoting => exact h.add e anchor (.scalar tag text quoting) ..
  | sequenceStart anchor tag frame => exact h.enter e anchor frame (.sequence tag frame)
  | mappingStart anchor tag frame => exact h.enter e anchor frame (.mapping tag frame)
  | sequenceEnd => exact h.close e.stop
  | mappingEnd => exact h.close e.stop
  | streamStart => exact h
  | streamEnd => exact h
  | documentEnd => exact h

/-- The builders that have seen nothing. -/
theorem Twin.start (s : Text) : Twin { text := s } { text := s, lenient := false } := by
  have none : ∀ {n : Node} {i : Nat}, (#[] : Array Node)[i]? = some n → False := by
    intro n i h
    cases h
  refine ⟨rfl, rfl, ⟨?_, ?_, ?_⟩, rfl, ?_, rfl, ?_, .nil⟩
  · intro i n h
    exact (none h).elim
  · intro i n h
    exact (none h).elim
  · intro i n h
    exact (none h).elim
  · intro e he
    cases he
  · intro i n h
    exact (none h).elim

/-- A graph and a tree of one text. -/
structure Beside (g : Graph) (t : Tree) : Prop where
  root : g.root = 0
  sound : Sound t.nodes
  size : g.vertices.size = rank t.nodes t.nodes.size
  vertices : Mirrors t.nodes g.vertices

/-- A text is composed to a tree exactly if it is composed to a graph, and where it is not, both are
refused for the same cause. -/
theorem agree_compose (s : Text) : AgreeBy SameCause Beside (Graph.compose s) (compose s) := by
  have one : ∀ (g : Graph.Builder) (b : Builder) (e f : Event), Twin g b → e = f →
      AgreeBy SameCause Twin (g.step e) (b.step f) := by
    intro g b e f h same
    rw [same]
    exact agree_step h f
  rw [Graph.compose, compose]
  cases firstUnreadable? s with
  | some e => exact rfl
  | none =>
    refine (AgreeBy.foldlM one (List.forall₂_same.mpr fun e _ => rfl) (Twin.start s)).bind ?_
    intro g b twin
    cases (EventFeed.ofText s).fault with
    | some e => exact rfl
    | none => exact ⟨rfl, twin.sound, twin.size, twin.vertices⟩

end Tree

end YamlEdit
