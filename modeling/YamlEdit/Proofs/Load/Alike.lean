import YamlEdit.Load.Construct
import YamlEdit.Proofs.Event.Alike

/-!
# Loading sees no marks

The value of a text is that of every text with tokens of the same kinds. Marks go into the graph and
into faults only, and nothing that is built from the graph looks at them.
-/

namespace YamlEdit

/-- A fault without its places and the text that it shows. -/
def Located.bare {κ : Type} (e : Located κ) : Located κ :=
  ⟨e.cause, [], none, none⟩

/-- An error without places and the text that it shows: its class, and what its message says besides
them. -/
def LoadError.bare : LoadError → LoadError
  | unreadable character position => .unreadable character position
  | scan e => .scan e.bare
  | parse e => .parse e.bare
  | compose e => .compose e.bare
  | construct e => .construct e.bare
  | literal fault => .literal fault

/-- Errors that differ only in places and in the text that they show. -/
def SameCause (e f : LoadError) : Prop := e.bare = f.bare

theorem SameCause.of_construct {cause cause' : ConstructFault} (same : cause = cause')
    (s t : Text) (began began' failed failed' : Option Mark) :
    SameCause (.construct ⟨cause, s, began, failed⟩) (.construct ⟨cause', t, began', failed'⟩) := by
  subst same
  rfl

/-- A node without its place. -/
def Vertex.bare (v : Vertex) : Vertex :=
  { v with start := none }

theorem Vertex.kind_of_bare {v w : Vertex} (h : v.bare = w.bare) : v.kind = w.kind := by
  have body : v.bare.body = w.bare.body := congrArg Vertex.body h
  have body : v.body = w.body := body
  simp only [kind, body]

/-- Rows of nodes that differ only in places. -/
structure SameVertices (a b : Array Vertex) : Prop where
  size : a.size = b.size
  nodes : ∀ i : Nat, (a[i]?).map Vertex.bare = (b[i]?).map Vertex.bare

namespace SameVertices

variable {a b : Array Vertex}

theorem push (h : SameVertices a b) {v w : Vertex} (same : v.bare = w.bare) :
    SameVertices (a.push v) (b.push w) := by
  refine ⟨by simp [h.size], ?_⟩
  intro i
  simp only [Array.getElem?_push, h.size]
  split
  · simp [same]
  · exact h.nodes i

theorem modify (h : SameVertices a b) (j : Nat) {f : Vertex → Vertex}
    (local' : ∀ v w : Vertex, v.bare = w.bare → (f v).bare = (f w).bare) :
    SameVertices (a.modify j f) (b.modify j f) := by
  refine ⟨by simp [h.size], ?_⟩
  intro i
  have here := h.nodes i
  simp only [Array.getElem?_modify]
  split
  · cases ha : a[i]? with
    | none =>
      cases hb : b[i]? with
      | none => rfl
      | some w => rw [ha, hb] at here; cases here
    | some v =>
      cases hb : b[i]? with
      | none => rw [ha, hb] at here; cases here
      | some w =>
        rw [ha, hb] at here
        exact congrArg some (local' v w (Option.some.inj here))
  · exact here

end SameVertices

namespace Graph.Builder

/-- Graphs under construction that differ only in places. -/
structure Alike (b c : Builder) : Prop where
  vertices : SameVertices b.vertices c.vertices
  anchors : b.anchors = c.anchors
  stack : b.stack = c.stack
  started : b.started = c.started

theorem Alike.lead {b c : Builder} (h : Alike b c) (vertex : Nat) :
    Alike (b.lead vertex) (c.lead vertex) := by
  unfold Builder.lead
  rw [h.stack]
  split
  · exact h
  · exact { h with stack := rfl }

theorem Alike.add {b c : Builder} (h : Alike b c) (e f : Event) (anchor : Option Text) (tag : Tag)
    (body : Vertex.Body) : Alike (b.add e anchor tag body) (c.add f anchor tag body) := by
  have led := h.lead b.vertices.size
  unfold Builder.add
  simp only [h.vertices.size] at led ⊢
  refine ⟨led.vertices.push rfl, ?_, led.stack, led.started⟩
  cases anchor with
  | none => exact led.anchors
  | some name => exact congrArg ((name, c.vertices.size) :: ·) led.anchors

theorem Alike.enter {b c : Builder} (h : Alike b c) (e f : Event) (anchor : Option Text) (tag : Tag)
    (isMapping : Bool) : Alike (b.enter e anchor tag isMapping) (c.enter f anchor tag isMapping) := by
  have added := h.add e f anchor tag (if isMapping then .mapping [] else .sequence [])
  unfold Builder.enter
  dsimp only
  rw [h.vertices.size]
  exact { added with stack := congrArg (⟨c.vertices.size, isMapping, []⟩ :: ·) added.stack }

theorem Alike.close {b c : Builder} (h : Alike b c) : Alike b.close c.close := by
  unfold Builder.close
  rw [h.stack]
  split
  · exact h
  · next o r _ =>
    refine ⟨?_, h.anchors, rfl, h.started⟩
    dsimp only
    refine h.vertices.modify o.vertex ?_
    intro v w same
    exact congrArg (fun u : Vertex => { u with
      body := if o.isMapping then .mapping (Node.pairUp o.children.reverse)
        else .sequence o.children.reverse }) same

theorem agree_checkAnchor {b c : Builder} (h : Alike b c) {e f : Event} (same : e.kind = f.kind) :
    Agree (fun _ _ => True) (b.checkAnchor e) (c.checkAnchor f) := by
  unfold checkAnchor
  rw [same, h.anchors]
  split
  · trivial
  · split <;> trivial

/-- One event. -/
theorem agree_step {b c : Builder} (h : Alike b c) {e f : Event} (same : e.kind = f.kind) :
    Agree Alike (b.step e) (c.step f) := by
  refine (agree_checkAnchor h same).bind fun _ _ _ => ?_
  rw [same]
  cases f.kind with
  | documentStart =>
    dsimp only
    rw [h.started]
    exact .guard { h with started := rfl } trivial
  | aliasOf name =>
    dsimp only
    rw [h.anchors]
    cases c.anchors.lookup name with
    | none => trivial
    | some vertex => exact h.lead vertex
  | scalar anchor tag text quoting => exact h.add ..
  | sequenceStart anchor tag frame => exact h.enter ..
  | mappingStart anchor tag frame => exact h.enter ..
  | sequenceEnd => exact h.close
  | mappingEnd => exact h.close
  | streamStart => exact h
  | streamEnd => exact h
  | documentEnd => exact h

end Graph.Builder

namespace Graph

/-- Graphs that differ only in places and in the text that faults show. -/
structure Alike (g h : Graph) : Prop where
  vertices : SameVertices g.vertices h.vertices
  root : g.root = h.root

/-- Graphs composed from events of the same kinds. -/
theorem agree_compose {s t : Text} (readable : firstUnreadable? s = none)
    (readable' : firstUnreadable? t = none)
    (kinds : (EventFeed.ofText s).kinds = (EventFeed.ofText t).kinds)
    (fault : (EventFeed.ofText s).fault.isNone = (EventFeed.ofText t).fault.isNone) :
    Agree Alike (compose s) (compose t) := by
  have events : List.Forall₂ (fun e f : Event => e.kind = f.kind) (EventFeed.ofText s).items
      (EventFeed.ofText t).items := by
    have equal := kinds
    rw [EventFeed.kinds, EventFeed.kinds, ← List.forall₂_eq_eq_eq, List.forall₂_map_left_iff,
      List.forall₂_map_right_iff] at equal
    exact equal
  have start : Builder.Alike { text := s } { text := t } := ⟨⟨rfl, fun _ => rfl⟩, rfl, rfl, rfl⟩
  have folded := AgreeBy.foldlM (f := Builder.step) (g := Builder.step)
    (fun _ _ _ _ alike kind => Builder.agree_step alike kind) events start
  unfold compose
  rw [readable, readable']
  refine folded.bind ?_
  intro b c h
  cases hs : (EventFeed.ofText s).fault with
  | none =>
    cases ht : (EventFeed.ofText t).fault with
    | none => exact ⟨h.vertices, rfl⟩
    | some e => rw [hs, ht] at fault; cases fault
  | some e =>
    cases ht : (EventFeed.ofText t).fault with
    | none => rw [hs, ht] at fault; cases fault
    | some e' => trivial

namespace Alike

variable {g h : Graph} (same : Alike g h)
include same

theorem vertex? (i : Nat) : (g.vertex? i).map Vertex.bare = (h.vertex? i).map Vertex.bare :=
  same.vertices.nodes i

theorem vertex (i : Nat) :
    ((g.vertex? i).getD default).bare = ((h.vertex? i).getD default).bare := by
  have here := same.vertex? i
  cases hg : g.vertex? i with
  | none =>
    cases hh : h.vertex? i with
    | none => rfl
    | some w => rw [hg, hh] at here; cases here
  | some v =>
    cases hh : h.vertex? i with
    | none => rw [hg, hh] at here; cases here
    | some w =>
      rw [hg, hh] at here
      exact Option.some.inj here

theorem body (i : Nat) : ((g.vertex? i).getD default).body = ((h.vertex? i).getD default).body :=
  (congrArg Vertex.body (same.vertex i) :)

theorem kind (i : Nat) : ((g.vertex? i).getD default).kind = ((h.vertex? i).getD default).kind :=
  Vertex.kind_of_bare (same.vertex i)

theorem tag? (i : Nat) : g.tag? i = h.tag? i := by
  have here := congrArg (Option.map Vertex.tag) (same.vertex? i)
  simpa [Graph.tag?, Function.comp_def, Vertex.bare] using here

theorem pairs (i : Nat) : g.pairs i = h.pairs i := by
  have here := same.vertex? i
  unfold Graph.pairs
  cases hg : g.vertex? i with
  | none =>
    cases hh : h.vertex? i with
    | none => rfl
    | some w => rw [hg, hh] at here; cases here
  | some v =>
    cases hh : h.vertex? i with
    | none => rw [hg, hh] at here; cases here
    | some w =>
      rw [hg, hh] at here
      obtain ⟨tag, start, body⟩ := v
      obtain ⟨tag', start', body'⟩ := w
      have equal : body = body' := congrArg Vertex.body (Option.some.inj here)
      subst equal
      cases body <;> rfl

theorem setBody (i : Nat) (body : Vertex.Body) : Alike (g.setBody i body) (h.setBody i body) := by
  refine ⟨?_, same.root⟩
  rw [Graph.setBody]
  dsimp only
  refine same.vertices.modify i ?_
  intro _ _ equal
  exact congrArg (fun u : Vertex => { u with body }) equal

theorem setTag (i : Nat) (tag : Tag) : Alike (g.setTag i tag) (h.setTag i tag) := by
  refine ⟨?_, same.root⟩
  rw [Graph.setTag]
  dsimp only
  refine same.vertices.modify i ?_
  intro _ _ equal
  exact congrArg (fun u : Vertex => { u with tag }) equal

end Alike

end Graph

namespace Construct

open YamlEdit.Graph (Alike)

theorem nextMerge_alike {g h : Graph} (same : g.Alike h) (index : Nat) (pairs : List (Nat × Nat)) :
    (nextMerge g index pairs).1.Alike (nextMerge h index pairs).1 ∧
      (nextMerge g index pairs).2 = (nextMerge h index pairs).2 := by
  induction pairs generalizing g h index with
  | nil => exact ⟨same, rfl⟩
  | cons p r ih =>
    obtain ⟨k, v⟩ := p
    unfold nextMerge
    rw [same.tag? k]
    split
    · exact ⟨same, rfl⟩
    · exact ih (same.setTag k .str) _
    · exact ih same _

/-- Graphs that are alike, each with pairs, which are the same. -/
def SamePairs (p q : Graph × List (Nat × Nat)) : Prop :=
  p.1.Alike q.1 ∧ p.2 = q.2

theorem agree_mergedItems {flatten : Graph → Nat → Except LoadError Graph}
    (inner : ∀ g h i, g.Alike h → AgreeBy SameCause Graph.Alike (flatten g i) (flatten h i)) (n m : Vertex)
    {g h : Graph} (same : g.Alike h) (items : List Nat) (collected : List (List (Nat × Nat))) :
    AgreeBy SameCause SamePairs (mergedItems flatten n g items collected)
      (mergedItems flatten m h items collected) := by
  induction items generalizing g h collected with
  | nil => exact ⟨same, rfl⟩
  | cons i r ih =>
    simp only [mergedItems, same.body i]
    split
    · refine (inner g h i same).bind ?_
      intro g' h' same'
      rw [same'.pairs i]
      exact ih same' _
    · exact .of_construct (congrArg _ (same.kind i)) ..

theorem agree_flattenFrom (keys : Nat) {g h : Graph} (same : g.Alike h) (i index : Nat)
    (merged : List (Nat × Nat)) :
    AgreeBy SameCause Graph.Alike (flattenFrom keys g i index merged) (flattenFrom keys h i index merged) := by
  induction keys using Nat.strongRecOn generalizing g h i index merged with
  | ind keys ih =>
    have next := nextMerge_alike same index ((g.pairs i).drop index)
    unfold flattenFrom
    dsimp only
    rw [← same.pairs i]
    generalize nextMerge g index ((g.pairs i).drop index) = p at next
    generalize nextMerge h index ((g.pairs i).drop index) = q at next
    obtain ⟨g, found⟩ := p
    obtain ⟨h, found'⟩ := q
    obtain ⟨same, rfl⟩ := next
    dsimp only at same ⊢
    cases found with
    | none =>
      dsimp only
      rw [same.pairs i]
      split
      · exact same
      · exact same.setBody ..
    | some found =>
      obtain ⟨place, value⟩ := found
      cases keys with
      | zero => exact same
      | succ keys =>
        have inner := fun g h i (same : Graph.Alike g h) (merged : List (Nat × Nat)) (index : Nat) =>
          ih keys (Nat.lt_succ_self keys) same i index merged
        dsimp only
        rw [same.pairs i]
        have erased := same.setBody i (.mapping ((h.pairs i).eraseIdx place))
        rw [erased.body value]
        split
        · refine (inner _ _ _ erased _ _).bind ?_
          intro g' h' same'
          rw [same'.pairs value]
          exact inner _ _ _ same' _ _
        · refine (agree_mergedItems (fun _ _ j alike => inner _ _ j alike _ _) _ _ erased _ _).bind ?_
          rintro ⟨g', more⟩ ⟨h', more'⟩ ⟨same', rfl⟩
          exact inner _ _ _ same' _ _
        · exact .of_construct (congrArg _ (erased.kind value)) ..

theorem mergeKeys_alike {g h : Graph} (same : g.Alike h) : mergeKeys g = mergeKeys h := by
  have pairs : g.pairs = h.pairs := funext same.pairs
  have tags : g.tag? = h.tag? := funext same.tag?
  unfold mergeKeys
  rw [same.vertices.size, pairs, tags]

theorem agree_flatten {g h : Graph} (same : g.Alike h) (i : Nat) :
    AgreeBy SameCause Graph.Alike (flatten g i) (flatten h i) := by
  rw [flatten]
  rw [mergeKeys_alike same]
  exact agree_flattenFrom _ same i 0 []

/-! ## Building -/

/-- States of building over graphs that are alike. -/
structure SameBuilder (b c : Builder) : Prop where
  graph : b.graph.Alike c.graph
  store : b.store = c.store
  built : b.built = c.built
  waiting : b.waiting = c.waiting

/-- Steps of building that agree over graphs that are alike. -/
abbrev Same {α : Type} (R : α → α → Prop) (x y : Build α) : Prop :=
  AgreesBy SameCause SameBuilder R x y

/-- Nodes that differ only in places. -/
def SameVertex (v w : Vertex) : Prop := v.bare = w.bare

theorem SameVertex.body {v w : Vertex} (h : SameVertex v w) : v.body = w.body :=
  (congrArg Vertex.body h :)

theorem SameVertex.tag {v w : Vertex} (h : SameVertex v w) : v.tag = w.tag :=
  (congrArg Vertex.tag h :)

theorem same_fault {α : Type} {R : α → α → Prop} {cause : ConstructFault}
    {began began' failed failed' : Option Mark} :
    Same R (fault cause began failed) (fault cause began' failed') :=
  AgreesBy.of_get.bind fun _ _ _ => AgreesBy.of_throw rfl

theorem same_vertex (i : Nat) : Same SameVertex (vertex i) (vertex i) :=
  AgreesBy.of_get.bind fun _ _ h => AgreesBy.of_pure (h.graph.vertex i)

theorem same_literal {α : Type} (x : Except LiteralFault α) :
    Same (· = ·) (literal x) (literal x) := by
  cases x with
  | error f => exact AgreesBy.of_throw rfl
  | ok v => exact AgreesBy.of_pure rfl

theorem same_scalarText (steps i : Nat) :
    Same (· = ·) (scalarText steps i) (scalarText steps i) := by
  induction steps generalizing i with
  | zero =>
    refine (same_vertex i).bind fun v w same => (same_vertex i).bind fun _ _ _ => ?_
    rw [Vertex.kind_of_bare same]
    exact same_fault
  | succ steps ih =>
    refine (same_vertex i).bind ?_
    intro v w same
    rw [same.body, Vertex.kind_of_bare same]
    cases w.body with
    | scalar text => exact AgreesBy.of_pure rfl
    | sequence items => exact same_fault
    | mapping pairs =>
      refine AgreesBy.of_get.bind ?_
      intro b c h
      have tags : b.graph.tag? = c.graph.tag? := funext h.graph.tag?
      dsimp only
      rw [tags]
      cases pairs.find? fun p => c.graph.tag? p.1 == some .value with
      | none => exact same_fault
      | some p => exact ih p.2

theorem same_text (i : Nat) : Same (· = ·) (text i) (text i) := by
  refine AgreesBy.of_get.bind ?_
  intro b c h
  rw [h.graph.vertices.size]
  exact same_scalarText _ i

theorem same_remember (i : Nat) (o : Object) : Same (· = ·) (remember i o) (remember i o) := by
  refine AgreesBy.of_get.bind ?_
  intro b c h
  rw [h.store, h.built]
  refine AgreesBy.bind (R := fun _ _ => True) ⟨fun _ _ _ => ⟨trivial, ?_⟩⟩ fun _ _ _ => AgreesBy.of_pure rfl
  exact { h with store := rfl, built := rfl }

theorem same_leaf (i : Nat) (v : Value) : Same (· = ·) (leaf i v) (leaf i v) :=
  same_remember i _

theorem same_later (i : Nat) (o : Object) : Same (· = ·) (later i o) (later i o) := by
  refine AgreesBy.bind (AgreesBy.of_modify fun b c h => ?_) fun _ _ _ => same_remember i o
  exact { h with waiting := congrArg (· ++ [i]) h.waiting }

/-- The object of a node. -/
theorem same_object (i : Nat) : Same (· = ·) (object i) (object i) := by
  have number {x : Text → Except LiteralFault Value} :
      Same (· = ·) (do leaf i (← literal (x (← text i)))) (do leaf i (← literal (x (← text i)))) := by
    refine (same_text i).bind ?_
    intro s t same
    subst same
    refine (same_literal _).bind ?_
    intro v w same
    subst same
    exact same_leaf i v
  refine AgreesBy.of_get.bind ?_
  intro b c h
  rw [h.built]
  cases c.built.lookup i with
  | some ref => exact AgreesBy.of_pure rfl
  | none =>
    refine (same_vertex i).bind ?_
    intro v w same
    rw [same.tag]
    cases w.tag with
    | null => exact (same_text i).bind fun _ _ _ => same_leaf i _
    | bool => exact number
    | int => exact number
    | float => exact number
    | str =>
      refine (same_text i).bind ?_
      intro s t same
      subst same
      exact same_leaf i _
    | timestamp =>
      refine (same_text i).bind ?_
      intro s t equal
      subst equal
      refine .guard (by rw [Vertex.kind_of_bare same]) (AgreesBy.of_throw rfl) ?_
      refine (same_literal _).bind ?_
      intro v w equal
      subst equal
      exact same_leaf i _
    | binary =>
      refine (same_text i).bind ?_
      intro s t equal
      subst equal
      cases Literal.binary s with
      | ok b => exact same_leaf i b
      | error cause => exact same_fault
    | seq => exact same_later i _
    | map => exact same_later i _
    | set => exact same_later i _
    | omap => exact same_later i _
    | pairs => exact same_later i _
    | merge => exact same_fault
    | value => exact same_fault
    | other name => exact same_fault

theorem same_replace (ref : Nat) (o : Object) :
    Same (fun _ _ => True) (replace ref o) (replace ref o) :=
  AgreesBy.of_modify fun _ _ h => { h with store := congrArg (Store.replace · ref o) h.store }

theorem same_isHashable (ref : Nat) : Same (· = ·) (isHashable ref) (isHashable ref) := by
  refine AgreesBy.of_get.bind ?_
  intro b c h
  rw [h.store]
  split <;> exact AgreesBy.of_pure rfl

theorem same_entries (i : Nat) : Same (· = ·) (entries i) (entries i) := by
  refine (same_vertex i).bind ?_
  intro v w same
  rw [same.body, Vertex.kind_of_bare same]
  cases w.body with
  | scalar text => exact same_fault
  | sequence items => exact same_fault
  | mapping pairs =>
    refine AgreesBy.of_get.bind ?_
    intro b c h
    have flat := agree_flatten h.graph i
    cases hb : flatten b.graph i with
    | error e =>
      cases hc : flatten c.graph i with
      | error e' =>
        rw [hb, hc] at flat
        exact AgreesBy.of_throw flat
      | ok g => rw [hb, hc] at flat; cases flat
    | ok g =>
      cases hc : flatten c.graph i with
      | error e' => rw [hb, hc] at flat; cases flat
      | ok g' =>
        rw [hb, hc] at flat
        refine AgreesBy.bind (R := fun _ _ => True)
          ⟨fun _ _ _ => ⟨trivial, { h with graph := flat }⟩⟩ fun _ _ _ => ?_
        rw [Graph.Alike.pairs flat i]
        refine AgreesBy.foldlM (fun r t p equal => ?_) _ rfl
        subst equal
        obtain ⟨k, value⟩ := p
        refine (same_object k).bind ?_
        intro key key' equal
        subst equal
        refine (same_isHashable key).bind ?_
        intro hashable hashable' equal
        subst equal
        have entry : Same (· = ·)
            (do let value ← object value; return (← get).store.putEntry r key value)
            (do let value ← object value; return (← get).store.putEntry r key value) := by
          refine (same_object value).bind fun _ _ equal => AgreesBy.of_get.bind ?_
          intro b c h
          subst equal
          rw [h.store]
          exact AgreesBy.of_pure rfl
        refine .ite Iff.rfl (fun _ => ?_) fun _ => entry
        refine (same_vertex k).bind fun _ _ _ => ?_
        exact AgreesBy.bind (R := fun _ _ => True) same_fault fun _ _ _ => entry

theorem same_pairItems (keyed : Bool) (i : Nat) :
    Same (· = ·) (pairItems keyed i) (pairItems keyed i) := by
  refine (same_vertex i).bind ?_
  intro v w same
  rw [same.body, Vertex.kind_of_bare same]
  cases w.body with
  | scalar text => exact same_fault
  | mapping pairs => exact same_fault
  | sequence items =>
    refine AgreesBy.mapM (fun j => ?_) items
    refine (same_vertex j).bind ?_
    intro sub sub' alike
    rw [alike.body, Vertex.kind_of_bare alike]
    split
    · next k value _ =>
      refine (same_object k).bind ?_
      intro key key' equal
      subst equal
      refine (same_object value).bind ?_
      intro value value' equal
      subst equal
      refine AgreesBy.of_get.bind ?_
      intro b c h
      rw [h.store]
      refine AgreesBy.bind (AgreesBy.of_modify fun b c h => ?_) fun _ _ _ => AgreesBy.of_pure rfl
      exact { h with store := rfl }
    · exact same_fault
    · exact same_fault

theorem same_content (i : Nat) : Same (· = ·) (content i) (content i) := by
  refine (same_vertex i).bind ?_
  intro v w same
  rw [same.tag]
  split
  · refine (same_entries i).bind ?_
    intro e f equal
    subst equal
    exact AgreesBy.of_pure rfl
  · refine (same_entries i).bind ?_
    intro e f equal
    subst equal
    exact AgreesBy.of_pure rfl
  · refine (same_pairItems true i).bind ?_
    intro e f equal
    subst equal
    exact AgreesBy.of_pure rfl
  · refine (same_pairItems false i).bind ?_
    intro e f equal
    subst equal
    exact AgreesBy.of_pure rfl
  · rw [same.body, Vertex.kind_of_bare same]
    cases w.body with
    | scalar text => exact same_fault
    | mapping pairs => exact same_fault
    | sequence items =>
      refine (AgreesBy.mapM same_object items).bind ?_
      intro e f equal
      subst equal
      exact AgreesBy.of_pure rfl

theorem same_fill (steps : Nat) : Same (fun _ _ => True) (fill steps) (fill steps) := by
  induction steps with
  | zero => exact AgreesBy.of_pure trivial
  | succ steps ih =>
    refine AgreesBy.of_get.bind ?_
    intro b c h
    rw [h.waiting]
    cases hw : c.waiting with
    | nil => exact AgreesBy.of_pure trivial
    | cons i r =>
      refine AgreesBy.bind (R := fun _ _ => True)
        ⟨fun _ _ _ => ⟨trivial, { h with waiting := rfl }⟩⟩ fun _ _ _ => ?_
      refine (same_content i).bind ?_
      intro o o' equal
      subst equal
      refine AgreesBy.of_get.bind ?_
      intro b c h
      rw [h.built]
      exact (same_replace _ o).bind fun _ _ _ => ih

/-- Graphs that are alike have the same value. -/
theorem agree_run {g h : Graph} (same : g.Alike h) : AgreeBy SameCause (· = ·) (run g) (run h) := by
  have build : Same (· = ·) (do let ref ← object g.root; fill (g.vertices.size + 1); return ref)
      (do let ref ← object h.root; fill (h.vertices.size + 1); return ref) := by
    rw [same.root, same.vertices.size]
    refine (same_object h.root).bind fun r s equal => (same_fill _).bind fun _ _ _ => ?_
    exact AgreesBy.of_pure equal
  refine (build.run { graph := g } { graph := h } ⟨same, rfl, rfl, rfl⟩).bind ?_
  rintro ⟨root, b⟩ ⟨root', c⟩ ⟨equal, states⟩
  exact congr (congrArg Loaded.mk states.store) equal

end Construct

theorem Graph.agree_load {g h : Graph} (same : g.Alike h) :
    AgreeBy SameCause (· = ·) g.load h.load := by
  unfold Graph.load
  have empty : g.vertices.isEmpty = h.vertices.isEmpty := by
    simp only [Array.isEmpty, same.vertices.size]
  rw [empty]
  split
  · rfl
  · exact Construct.agree_run same

/-- Texts whose tokens are of the same kinds have the same value, if they can be read at all. -/
theorem agree_loadValue {s t : Text} (readable : firstUnreadable? s = none)
    (readable' : firstUnreadable? t = none)
    (kinds : (TokenFeed.ofText s).items.map (·.kind) = (TokenFeed.ofText t).items.map (·.kind))
    (fault : (TokenFeed.ofText s).fault.isNone = (TokenFeed.ofText t).fault.isNone) :
    Agree (· = ·) (loadValue s) (loadValue t) := by
  obtain ⟨events, faults⟩ := EventFeed.ofText_alike kinds fault
  have graphs := Graph.agree_compose readable readable' events faults
  refine (graphs.bind fun g h same => (Graph.agree_load same).agree).bind ?_
  intro a b same
  subst same
  rfl

end YamlEdit
